import TreeCompiler.Machine.Basic

/-!
# The built-in machine: x86-64 with the System V calling convention
-/

namespace TreeCompiler

namespace Machine

/-- Fourteen registers are allocatable; `%rbp` and `%rsp` are reserved. -/
def x86_64 : Machine where
  allocatableNames :=
    ["rax", "rbx", "rcx", "rdx", "rsi", "rdi", "r8", "r9", "r10", "r11", "r12", "r13", "r14", "r15"]
  framePointerName := "rbp"
  stackPointerName := "rsp"
  wordSize := 8
  roles :=
    { arguments := [⟨5⟩, ⟨4⟩, ⟨3⟩, ⟨2⟩, ⟨6⟩, ⟨7⟩]
      callerSaves := [⟨0⟩, ⟨2⟩, ⟨3⟩, ⟨4⟩, ⟨5⟩, ⟨6⟩, ⟨7⟩, ⟨8⟩, ⟨9⟩]
      calleeSaves := [⟨1⟩, ⟨10⟩, ⟨11⟩, ⟨12⟩, ⟨13⟩, ⟨14⟩]
      returnValue := ⟨0⟩
      mulDiv := (⟨0⟩, ⟨3⟩)
      shiftCount := ⟨2⟩ }
  shiftOperand := "%cl"
  allocatable_ne_nil := by decide
  wordSize_pos := by decide
  names_nodup := by decide
  names_lt := by decide
  roles_lt := by decide

end Machine

end TreeCompiler
