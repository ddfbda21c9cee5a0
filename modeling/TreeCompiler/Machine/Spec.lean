import TreeCompiler.Machine.Basic

/-!
# Machine specifications — reading a machine off register names

A `MachineSpec` names registers by text.  `Machine.ofSpec` resolves the names and refuses a
description that is inconsistent, with the first fault it meets.
-/

namespace TreeCompiler

/-- A machine as it is written down. -/
structure MachineSpec where
  wordSize : Int
  /-- Allocatable registers in color order. -/
  allocatable : List String
  framePointer : String
  stackPointer : String
  returnValue : String
  arguments : List String := []
  callerSaves : List String := []
  calleeSaves : List String := []
  mulDiv : String × String
  shiftCount : String
  /-- How a shift spells the count register; its own spelling when absent. -/
  shiftCountOperand : Option String := none

/-- What can be wrong with a machine specification. -/
inductive SpecError
  | nothingAllocatable
  | wordSizeNotPositive (size : Int)
  | pointersCoincide
  | tooManyRegisters (count : Nat)
  | listedTwice (name : String)
  | unknownRegister (name : String)
  deriving DecidableEq

def SpecError.message : SpecError → String
  | .nothingAllocatable => "Target has no allocatable registers"
  | .wordSizeNotPositive size => s!"Word size must be positive, got {size}"
  | .pointersCoincide => "Frame pointer and stack pointer must be distinct registers"
  | .tooManyRegisters count =>
      s!"Target has {count} registers, at most {Temp.firstVirtual - 1} are supported"
  | .listedTwice name =>
      s!"Register {name} is listed twice (reserved registers cannot be allocatable)"
  | .unknownRegister name => s!"Unknown register {name} in target description"

namespace MachineSpec

/-- All register names in the order of their temps. -/
def names (s : MachineSpec) : List String := s.allocatable ++ [s.framePointer, s.stackPointer]

/-- The first name that occurs a second time. -/
def repeated? : List String → List String → Option String
  | _, [] => none
  | seen, n :: r => if n ∈ seen then some n else repeated? (n :: seen) r

theorem nodup_of_repeated?_eq_none {seen l : List String} (h : repeated? seen l = none) :
    l.Nodup ∧ ∀ n ∈ l, n ∉ seen := by
  induction l generalizing seen with
  | nil => simp
  | cons n r ih =>
      unfold repeated? at h
      split at h
      · cases h
      · rename_i hn
        obtain ⟨hr, hs⟩ := ih h
        refine ⟨List.nodup_cons.2 ⟨fun hm => hs n hm List.mem_cons_self, hr⟩, ?_⟩
        intro x hx
        rcases List.mem_cons.1 hx with rfl | hx
        · exact hn
        · exact fun hm => hs x hx (List.mem_cons_of_mem _ hm)

/-- A temp that stands for one of the first `n` registers. -/
abbrev RegisterBelow (n : Nat) := { t : Temp // t.id < n }

/-- The register of a name. -/
def resolve (names : List String) (name : String) :
    Except SpecError (RegisterBelow names.length) :=
  match h : Machine.indexOf? names name with
  | some i => .ok ⟨⟨i⟩, Machine.indexOf?_lt h⟩
  | none => .error (.unknownRegister name)

/-- The registers of a list of names. -/
def resolveAll (names : List String) :
    List String → Except SpecError (List (RegisterBelow names.length))
  | [] => .ok []
  | n :: r => do
      let t ← resolve names n
      let ts ← resolveAll names r
      return t :: ts

/-- The role registers, which are registers because each was resolved. -/
def resolveRoles (s : MachineSpec) :
    Except SpecError { r : Roles // ∀ t ∈ r.all, t.id < s.names.length } := do
  let arguments ← resolveAll s.names s.arguments
  let callerSaves ← resolveAll s.names s.callerSaves
  let calleeSaves ← resolveAll s.names s.calleeSaves
  let returnValue ← resolve s.names s.returnValue
  let low ← resolve s.names s.mulDiv.1
  let high ← resolve s.names s.mulDiv.2
  let shiftCount ← resolve s.names s.shiftCount
  let roles : Roles :=
    { arguments := arguments.map (·.1), callerSaves := callerSaves.map (·.1),
      calleeSaves := calleeSaves.map (·.1), returnValue := returnValue.1,
      mulDiv := (low.1, high.1), shiftCount := shiftCount.1 }
  return ⟨roles, by
    intro t ht
    simp only [Roles.all, roles, List.mem_append, List.mem_map, List.mem_cons, List.not_mem_nil,
      or_false] at ht
    rcases ht with ((⟨x, -, rfl⟩ | ⟨x, -, rfl⟩) | ⟨x, -, rfl⟩) | rfl | rfl | rfl | rfl
    · exact x.2
    · exact x.2
    · exact x.2
    · exact returnValue.2
    · exact low.2
    · exact high.2
    · exact shiftCount.2⟩

end MachineSpec

/-- The machine of a specification, or the first fault. -/
def Machine.ofSpec (s : MachineSpec) : Except SpecError Machine :=
  if hne : s.allocatable = [] then
    .error .nothingAllocatable
  else if hw : s.wordSize ≤ 0 then
    .error (.wordSizeNotPositive s.wordSize)
  else if s.framePointer = s.stackPointer then
    .error .pointersCoincide
  else if hlt : Temp.firstVirtual ≤ s.names.length then
    .error (.tooManyRegisters s.names.length)
  else
    match hdup : MachineSpec.repeated? [] s.names with
    | some name => .error (.listedTwice name)
    | none =>
        match s.resolveRoles with
        | .error e => .error e
        | .ok roles => .ok
            { allocatableNames := s.allocatable
              framePointerName := s.framePointer
              stackPointerName := s.stackPointer
              wordSize := s.wordSize
              roles := roles.1
              shiftOperand := s.shiftCountOperand.getD ("%" ++ s.shiftCount)
              allocatable_ne_nil := hne
              wordSize_pos := by omega
              names_nodup := (MachineSpec.nodup_of_repeated?_eq_none hdup).1
              names_lt := by
                have : s.names.length = s.allocatable.length + 2 := by simp [MachineSpec.names]
                omega
              roles_lt := by
                intro t ht
                have := roles.2 t ht
                simpa [MachineSpec.names] using this }

end TreeCompiler
