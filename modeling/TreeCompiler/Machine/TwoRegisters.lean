import TreeCompiler.Machine.Basic

/-!
# A machine with two registers — small enough to follow an allocation by hand
-/

namespace TreeCompiler

namespace Machine

/-- Two registers are allocatable; calls pass everything in memory. -/
def twoRegisters : Machine where
  allocatableNames := ["a", "b"]
  framePointerName := "fp"
  stackPointerName := "sp"
  wordSize := 4
  roles :=
    { arguments := []
      callerSaves := [⟨0⟩]
      calleeSaves := []
      returnValue := ⟨0⟩
      mulDiv := (⟨0⟩, ⟨1⟩)
      shiftCount := ⟨1⟩ }
  shiftOperand := "%b"
  allocatable_ne_nil := by decide
  wordSize_pos := by decide
  names_nodup := by decide
  names_lt := by decide
  roles_lt := by decide

end Machine

end TreeCompiler
