import TreeCompiler.Temp

/-!
# Machine — the register file and the calling convention

Every pass is handed the machine it works for.  Registers are temps: the allocatable registers come
first (temp `i` has color `i`), then the frame pointer and the stack pointer.  The laws that a
description must satisfy to make sense are part of `Machine`:

- the register names are pairwise distinct and fewer than `Temp.firstVirtual`;
- there is something to allocate, and words have a positive size;
- each register with a role is one of the registers.
-/

namespace TreeCompiler

/-- What a register is used for by convention. -/
structure Roles where
  /-- Carry the first arguments of a call, in order. -/
  arguments : List Temp
  /-- May be changed by a call. -/
  callerSaves : List Temp
  /-- Hold the same value before and after a call. -/
  calleeSaves : List Temp
  returnValue : Temp
  /-- Low and high half of a product, quotient and remainder of a division. -/
  mulDiv : Temp × Temp
  /-- Holds the count of a shift by a variable amount. -/
  shiftCount : Temp

namespace Roles

/-- All registers that have a role. -/
def all (r : Roles) : List Temp :=
  r.arguments ++ r.callerSaves ++ r.calleeSaves
    ++ [r.returnValue, r.mulDiv.1, r.mulDiv.2, r.shiftCount]

end Roles

structure Machine where
  /-- Names of the allocatable registers in color order. -/
  allocatableNames : List String
  framePointerName : String
  stackPointerName : String
  /-- Bytes of a word. -/
  wordSize : Int
  roles : Roles
  /-- The count register as a shift spells it. -/
  shiftOperand : String
  allocatable_ne_nil : allocatableNames ≠ []
  wordSize_pos : 0 < wordSize
  names_nodup : (allocatableNames ++ [framePointerName, stackPointerName]).Nodup
  names_lt : allocatableNames.length + 2 < Temp.firstVirtual
  roles_lt : ∀ t ∈ roles.all, t.id < allocatableNames.length + 2

namespace Machine

/-! ## The register file -/

/-- Register names by temp number. -/
def names (m : Machine) : List String :=
  m.allocatableNames ++ [m.framePointerName, m.stackPointerName]

/-- The number of colors. -/
def colors (m : Machine) : Nat := m.allocatableNames.length

/-- Every register, the allocatable ones first. -/
def registers (m : Machine) : List Temp := (List.range m.names.length).map Temp.mk

def allocatable (m : Machine) : List Temp := (List.range m.colors).map Temp.mk

def framePointer (m : Machine) : Temp := ⟨m.colors⟩

def stackPointer (m : Machine) : Temp := ⟨m.colors + 1⟩

/-- Frame and stack pointer, which never get a color. -/
def reserved (m : Machine) : List Temp := [m.framePointer, m.stackPointer]

def isRegister (m : Machine) (t : Temp) : Bool := t.id < m.names.length

def isReserved (m : Machine) (t : Temp) : Bool := t = m.framePointer || t = m.stackPointer

/-- The fixed color of an allocatable register. -/
def colorOf? (m : Machine) (t : Temp) : Option Nat := if t.id < m.colors then some t.id else none

def registerOfColor (_m : Machine) (color : Nat) : Temp := ⟨color⟩

/-- The bare name of a register. -/
def name? (m : Machine) (t : Temp) : Option String := m.names[t.id]?

/-- A register as an instruction spells it. -/
def asmName? (m : Machine) (t : Temp) : Option String := (m.name? t).map ("%" ++ ·)

/-- The position of the first name equal to `name`. -/
def indexOf? (names : List String) (name : String) : Option Nat := names.findIdx? (· == name)

def registerNamed? (m : Machine) (name : String) : Option Temp :=
  (indexOf? m.names name).map Temp.mk

/-- Registers whose values leave the procedure: the callee-saves, the stack pointer and the return
value, the last two only where they are not among the callee-saves already. -/
def returnSink (m : Machine) : List Temp :=
  [m.stackPointer, m.roles.returnValue].foldl
    (fun sink t => if t ∈ sink then sink else sink ++ [t]) m.roles.calleeSaves

theorem length_names (m : Machine) : m.names.length = m.colors + 2 := by
  simp [names, colors]

theorem isRegister_iff {m : Machine} {t : Temp} : m.isRegister t = true ↔ t.id < m.colors + 2 := by
  simp [isRegister, length_names]

theorem isRegister_stackPointer (m : Machine) : m.isRegister m.stackPointer = true :=
  isRegister_iff.2 (Nat.lt_succ_self _)

theorem isRegister_framePointer (m : Machine) : m.isRegister m.framePointer = true :=
  isRegister_iff.2 (Nat.lt_add_of_pos_right Nat.two_pos)

theorem isRegister_of_role {m : Machine} {t : Temp} (h : t ∈ m.roles.all) : m.isRegister t = true :=
  isRegister_iff.2 (m.roles_lt t h)

/-- Registers lie before the virtual temps. -/
theorem lt_firstVirtual {m : Machine} {t : Temp} (h : m.isRegister t = true) :
    t.id < Temp.firstVirtual :=
  Nat.lt_trans (isRegister_iff.1 h) m.names_lt

theorem isVirtual_of_not_register {m : Machine} {t : Temp} (h : t.isVirtual = true) :
    m.isRegister t = false := by
  have hm := m.names_lt
  simp only [Temp.isVirtual, decide_eq_true_eq] at h
  simp only [isRegister, length_names, colors, decide_eq_false_iff_not]
  omega

theorem indexOf?_lt {names : List String} {name : String} {i : Nat}
    (h : indexOf? names name = some i) : i < names.length := by
  rw [indexOf?, List.findIdx?_eq_some_iff_getElem] at h
  exact h.1

end Machine

end TreeCompiler
