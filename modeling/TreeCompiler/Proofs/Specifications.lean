import Mathlib.Data.List.Nodup
import TreeCompiler.Machine.Spec
import TreeCompiler.Proofs.Failing
import TreeCompiler.Proofs.RegisterFile

/-!
# Machine specifications — which ones are accepted, and what machine they give

A specification is accepted if and only if it is consistent (`Machine.ofSpec_decides`): a fault that
is reported is one (`MachineSpec.applies_of_ofSpec`), and a consistent specification has none.  The
machine has the registers that the specification names (`MachineSpec.Describes`); numbers and names,
and numbers and colors, are found from each other by position.
-/

namespace TreeCompiler

/-! ## Consistent specifications -/

namespace MachineSpec

variable {s : MachineSpec} {names : List String}

/-- The names that are given a role. -/
def roleNames (s : MachineSpec) : List String :=
  s.arguments ++ s.callerSaves ++ s.calleeSaves
    ++ [s.returnValue, s.mulDiv.1, s.mulDiv.2, s.shiftCount]

/-- What a specification must satisfy. -/
structure Consistent (s : MachineSpec) : Prop where
  allocatable_ne_nil : s.allocatable ≠ []
  wordSize_pos : 0 < s.wordSize
  /-- The allocatable registers, the frame pointer and the stack pointer have different names. -/
  names_nodup : s.names.Nodup
  names_lt : s.names.length < 100
  roles_named : ∀ name ∈ s.roleNames, name ∈ s.names

/-! ### Reading names -/

theorem getElem?_of_resolve {name : String} {t : RegisterBelow names.length}
    (h : resolve names name = .ok t) : names[t.1.id]? = some name := by
  unfold resolve at h
  split at h
  · rename_i i hi
    cases h
    exact Machine.getElem?_of_indexOf? hi
  · cases h

theorem map_of_resolveAll {ns : List String} {ts : List (RegisterBelow names.length)}
    (h : resolveAll names ns = .ok ts) :
    (ts.map (·.1)).map (fun t => names[t.id]?) = ns.map some := by
  induction ns generalizing ts with
  | nil =>
      cases h
      rfl
  | cons n ns ih =>
      obtain ⟨t, ht, h⟩ := bind_eq_ok_iff.1 h
      obtain ⟨rest, hrest, h⟩ := bind_eq_ok_iff.1 h
      cases h
      simp only [List.map_cons, getElem?_of_resolve ht, ih hrest]

/-- The registers with a role are those that a specification names, in its order. -/
structure Casts (s : MachineSpec) (name? : Temp → Option String) (r : Roles) : Prop where
  arguments : r.arguments.map name? = s.arguments.map some
  callerSaves : r.callerSaves.map name? = s.callerSaves.map some
  calleeSaves : r.calleeSaves.map name? = s.calleeSaves.map some
  returnValue : name? r.returnValue = some s.returnValue
  mulDiv_low : name? r.mulDiv.1 = some s.mulDiv.1
  mulDiv_high : name? r.mulDiv.2 = some s.mulDiv.2
  shiftCount : name? r.shiftCount = some s.shiftCount

theorem Casts.map_all {name? : Temp → Option String} {r : Roles} (h : s.Casts name? r) :
    r.all.map name? = s.roleNames.map some := by
  unfold Roles.all roleNames
  simp only [List.map_append, List.map_cons, List.map_nil, h.arguments, h.callerSaves,
    h.calleeSaves, h.returnValue, h.mulDiv_low, h.mulDiv_high, h.shiftCount]

theorem casts_of_resolveRoles {r : { r : Roles // ∀ t ∈ r.all, t.id < s.names.length }}
    (h : s.resolveRoles = .ok r) : s.Casts (fun t => s.names[t.id]?) r.1 := by
  obtain ⟨arguments, harguments, h⟩ := bind_eq_ok_iff.1 h
  obtain ⟨callerSaves, hcaller, h⟩ := bind_eq_ok_iff.1 h
  obtain ⟨calleeSaves, hcallee, h⟩ := bind_eq_ok_iff.1 h
  obtain ⟨returnValue, hreturn, h⟩ := bind_eq_ok_iff.1 h
  obtain ⟨low, hlow, h⟩ := bind_eq_ok_iff.1 h
  obtain ⟨high, hhigh, h⟩ := bind_eq_ok_iff.1 h
  obtain ⟨shiftCount, hshift, h⟩ := bind_eq_ok_iff.1 h
  cases h
  exact ⟨map_of_resolveAll harguments, map_of_resolveAll hcaller, map_of_resolveAll hcallee,
    getElem?_of_resolve hreturn, getElem?_of_resolve hlow, getElem?_of_resolve hhigh,
    getElem?_of_resolve hshift⟩

/-- Where it fails, a name with a role is no register. -/
def ReportsUnknown {α : Type} (s : MachineSpec) (x : Except SpecError α) : Prop :=
  ∀ e, x = .error e → ∃ name ∈ s.roleNames, name ∉ s.names ∧ e = .unknownRegister name

theorem ReportsUnknown.bind {α β : Type} {x : Except SpecError α} {f : α → Except SpecError β}
    (hx : s.ReportsUnknown x) (hf : ∀ a, s.ReportsUnknown (f a)) : s.ReportsUnknown (x >>= f) := by
  intro e h
  rcases bind_eq_error_iff.1 h with h | ⟨a, _, h⟩
  · exact hx e h
  · exact hf a e h

theorem reportsUnknown_ok {α : Type} (a : α) : s.ReportsUnknown (.ok a) := nofun

theorem reportsUnknown_resolve {name : String} (hname : name ∈ s.roleNames) :
    s.ReportsUnknown (resolve s.names name) := by
  intro e h
  unfold resolve at h
  split at h
  · cases h
  · rename_i hi
    cases h
    exact ⟨name, hname, Machine.not_mem_of_indexOf? hi, rfl⟩

theorem reportsUnknown_resolveAll {ns : List String} (hns : ∀ n ∈ ns, n ∈ s.roleNames) :
    s.ReportsUnknown (resolveAll s.names ns) := by
  induction ns with
  | nil => exact reportsUnknown_ok []
  | cons n ns ih =>
      apply ReportsUnknown.bind (reportsUnknown_resolve (hns n List.mem_cons_self))
      intro t
      apply ReportsUnknown.bind (ih fun i hi => hns i (List.mem_cons_of_mem n hi))
      exact fun ts => reportsUnknown_ok (t :: ts)

theorem reportsUnknown_resolveRoles (s : MachineSpec) : s.ReportsUnknown s.resolveRoles := by
  refine .bind (reportsUnknown_resolveAll fun n hn => by simp [roleNames, hn]) fun _ => ?_
  refine .bind (reportsUnknown_resolveAll fun n hn => by simp [roleNames, hn]) fun _ => ?_
  refine .bind (reportsUnknown_resolveAll fun n hn => by simp [roleNames, hn]) fun _ => ?_
  refine .bind (reportsUnknown_resolve (by simp [roleNames])) fun _ => ?_
  refine .bind (reportsUnknown_resolve (by simp [roleNames])) fun _ => ?_
  refine .bind (reportsUnknown_resolve (by simp [roleNames])) fun _ => ?_
  refine .bind (reportsUnknown_resolve (by simp [roleNames])) fun _ => ?_
  exact reportsUnknown_ok _

theorem le_count_of_repeated? {seen l : List String} {name : String}
    (h : repeated? seen l = some name) : 2 ≤ (seen ++ l).count name := by
  induction l generalizing seen with
  | nil => cases h
  | cons n l ih =>
      unfold repeated? at h
      split at h
      · rename_i hn
        cases h
        have hseen : 0 < seen.count name := List.count_pos_iff.2 hn
        rw [List.count_append, List.count_cons_self]
        omega
      · have hperm : (n :: seen ++ l).Perm (seen ++ n :: l) := List.perm_middle.symm
        exact hperm.count_eq name ▸ ih h

end MachineSpec

/-! ## Faults -/

/-- What a fault says of a specification. -/
def SpecError.Applies (s : MachineSpec) : SpecError → Prop
  | .nothingAllocatable => s.allocatable = []
  | .wordSizeNotPositive size => size = s.wordSize ∧ size ≤ 0
  | .pointersCoincide => s.framePointer = s.stackPointer
  | .tooManyRegisters count => count = s.names.length ∧ 100 ≤ count
  | .listedTwice name => 2 ≤ s.names.count name
  | .unknownRegister name => name ∈ s.roleNames ∧ name ∉ s.names

namespace MachineSpec

variable {s : MachineSpec} {e : SpecError}

theorem Consistent.not_applies (h : s.Consistent) (e : SpecError) : ¬ e.Applies s := by
  intro he
  cases e with
  | nothingAllocatable => exact h.allocatable_ne_nil he
  | wordSizeNotPositive size =>
      obtain ⟨rfl, hle⟩ := he
      exact Int.not_le_of_gt h.wordSize_pos hle
  | pointersCoincide =>
      have hpointers := (List.nodup_append.1 h.names_nodup).2.1
      exact (List.nodup_cons.1 hpointers).1 (List.mem_singleton.2 he)
  | tooManyRegisters count =>
      obtain ⟨rfl, hle⟩ := he
      exact Nat.not_le_of_lt h.names_lt hle
  | listedTwice name =>
      have hle := List.nodup_iff_count_le_one.1 h.names_nodup name
      exact absurd he (Nat.not_le_of_lt (Nat.lt_succ_of_le hle))
  | unknownRegister name => exact he.2 (h.roles_named name he.1)

/-- A fault that is reported applies. -/
theorem applies_of_ofSpec (h : Machine.ofSpec s = .error e) : e.Applies s := by
  unfold Machine.ofSpec at h
  -- the checks are made in this order, and the first fault ends them
  split at h
  · rename_i hnil
    cases h
    exact hnil
  split at h
  · rename_i hsize
    cases h
    exact ⟨rfl, hsize⟩
  split at h
  · rename_i hpointers
    cases h
    exact hpointers
  split at h
  · rename_i hmany
    cases h
    exact ⟨rfl, hmany⟩
  split at h
  · rename_i name hdup
    cases h
    have hle : 2 ≤ ([] ++ s.names).count name := MachineSpec.le_count_of_repeated? hdup
    exact hle
  split at h
  · rename_i e' hroles
    cases h
    obtain ⟨name, hmem, hnot, rfl⟩ := s.reportsUnknown_resolveRoles e hroles
    exact ⟨hmem, hnot⟩
  · cases h

end MachineSpec

/-! ## Accepted specifications -/

/-- A machine is the one that a specification describes. -/
structure MachineSpec.Describes (s : MachineSpec) (m : Machine) : Prop where
  wordSize : m.wordSize = s.wordSize
  shiftOperand : m.shiftOperand = s.shiftCountOperand.getD ("%" ++ s.shiftCount)
  /-- The registers are those that are named, in the same order. -/
  registers : m.registers.map m.name? = s.names.map some
  allocatable : m.allocatable.map m.name? = s.allocatable.map some
  framePointer : m.name? m.framePointer = some s.framePointer
  stackPointer : m.name? m.stackPointer = some s.stackPointer
  /-- Names and numbers are found from each other. -/
  registerNamed?_iff : ∀ name t, m.registerNamed? name = some t ↔ m.name? t = some name
  named_iff : ∀ name, (∃ t, m.registerNamed? name = some t) ↔ name ∈ s.names
  numbered_iff : ∀ t, (∃ name, m.name? t = some name) ↔ t.id ≤ m.colors + 1
  /-- Colors and allocatable registers are found from each other. -/
  colors : m.colors = s.allocatable.length
  colorOf?_iff : ∀ t x, m.colorOf? t = some x ↔ x < m.colors ∧ m.registerOfColor x = t
  colored_iff : ∀ t, (∃ x, m.colorOf? t = some x) ↔ t ∈ m.allocatable
  framePointer_not_allocatable : m.framePointer ∉ m.allocatable
  stackPointer_not_allocatable : m.stackPointer ∉ m.allocatable
  not_virtual : ∀ t, m.isRegister t = true → t.isVirtual = false
  casts : s.Casts m.name? m.roles
  /-- The stack pointer and the return value follow the callee-saves where they are missing. -/
  returnSink : ∃ rest, m.returnSink = m.roles.calleeSaves ++ rest ∧
    rest.Sublist [m.stackPointer, m.roles.returnValue] ∧ rest.Nodup ∧
    ∀ t, t ∈ rest ↔ (t = m.stackPointer ∨ t = m.roles.returnValue) ∧ t ∉ m.roles.calleeSaves

namespace Machine

variable {m : Machine} {s : MachineSpec}

/-- What an accepted specification becomes. -/
theorem fields_of_ofSpec (h : ofSpec s = .ok m) :
    m.allocatableNames = s.allocatable ∧ m.framePointerName = s.framePointer ∧
      m.stackPointerName = s.stackPointer ∧ m.wordSize = s.wordSize ∧
      m.shiftOperand = s.shiftCountOperand.getD ("%" ++ s.shiftCount) ∧
      s.Casts (fun t => s.names[t.id]?) m.roles := by
  unfold ofSpec at h
  split at h
  · cases h
  split at h
  · cases h
  split at h
  · cases h
  split at h
  · cases h
  split at h
  · cases h
  split at h
  · cases h
  · rename_i roles hroles
    cases h
    exact ⟨rfl, rfl, rfl, rfl, rfl, MachineSpec.casts_of_resolveRoles hroles⟩

theorem names_of_ofSpec (h : ofSpec s = .ok m) : m.names = s.names := by
  obtain ⟨hnames, hfp, hsp, -⟩ := fields_of_ofSpec h
  unfold names MachineSpec.names
  rw [hnames, hfp, hsp]

theorem casts_of_ofSpec (h : ofSpec s = .ok m) : s.Casts m.name? m.roles := by
  have hname : m.name? = fun t => s.names[t.id]? := by
    funext t
    rw [name?, names_of_ofSpec h]
  rw [hname]
  exact (fields_of_ofSpec h).2.2.2.2.2

theorem describes_of_ofSpec (h : ofSpec s = .ok m) : s.Describes m where
  wordSize := (fields_of_ofSpec h).2.2.2.1
  shiftOperand := (fields_of_ofSpec h).2.2.2.2.1
  registers := names_of_ofSpec h ▸ m.map_name?_registers
  allocatable := (fields_of_ofSpec h).1 ▸ m.map_name?_allocatable
  framePointer := (fields_of_ofSpec h).2.1 ▸ m.name?_framePointer
  stackPointer := (fields_of_ofSpec h).2.2.1 ▸ m.name?_stackPointer
  registerNamed?_iff _ _ := registerNamed?_eq_some_iff
  named_iff _ := names_of_ofSpec h ▸ exists_registerNamed?_iff
  numbered_iff _ := exists_name?_iff
  colors := congrArg List.length (fields_of_ofSpec h).1
  colorOf?_iff _ _ := colorOf?_eq_some_iff
  colored_iff t := by
    simp only [colorOf?_eq_some_iff, mem_allocatable_iff]
    exact ⟨fun ⟨x, hx, ht⟩ => ht ▸ hx, fun hlt => ⟨t.id, hlt, rfl⟩⟩
  framePointer_not_allocatable hmem := Nat.lt_irrefl _ (mem_allocatable_iff.1 hmem)
  stackPointer_not_allocatable hmem := Nat.not_succ_lt_self (mem_allocatable_iff.1 hmem)
  not_virtual t ht := by
    have hlt := lt_firstVirtual ht
    exact decide_eq_false (Nat.not_le_of_lt hlt)
  casts := casts_of_ofSpec h
  returnSink := m.exists_returnSink

/-- The laws of a machine are those of its specification. -/
theorem consistent_of_ofSpec (h : ofSpec s = .ok m) : s.Consistent := by
  obtain ⟨hnames, -, -, hsize, -⟩ := fields_of_ofSpec h
  refine ⟨hnames ▸ m.allocatable_ne_nil, hsize ▸ m.wordSize_pos, ?_, ?_, ?_⟩
  · exact names_of_ofSpec h ▸ m.names_nodup
  · have hlt := m.names_lt
    rw [← names_of_ofSpec h, length_names]
    exact hlt
  · intro name hname
    -- the name was resolved, to a register that has it
    have hmem : some name ∈ m.roles.all.map m.name? := by
      rw [(casts_of_ofSpec h).map_all]
      exact List.mem_map_of_mem hname
    obtain ⟨t, -, ht⟩ := List.mem_map.1 hmem
    exact names_of_ofSpec h ▸ List.mem_of_getElem? ht

/-- A specification is accepted if and only if it is consistent, and then it gives the machine that
it describes. -/
theorem ofSpec_decides (s : MachineSpec) :
    ((∃ m, ofSpec s = .ok m) ↔ s.Consistent) ∧ ∀ m, ofSpec s = .ok m → s.Describes m := by
  refine ⟨⟨?_, ?_⟩, fun m => describes_of_ofSpec⟩
  · rintro ⟨m, hm⟩
    exact consistent_of_ofSpec hm
  · intro hs
    cases h : ofSpec s with
    | ok m => exact ⟨m, rfl⟩
    -- a fault would have to apply
    | error e => exact absurd (MachineSpec.applies_of_ofSpec h) (hs.not_applies e)

/-- A machine that saves one register twice, and its stack pointer as well. -/
def savesTwice : MachineSpec where
  wordSize := 4
  allocatable := ["r0", "r1"]
  framePointer := "fp"
  stackPointer := "sp"
  returnValue := "r0"
  calleeSaves := ["r1", "sp", "r1"]
  mulDiv := ("r0", "r1")
  shiftCount := "r1"

/-- The stack pointer is not listed again among the registers whose values leave a procedure. -/
theorem ofSpec_decides_savesTwice :
    savesTwice.Consistent ∧ ∃ m, ofSpec savesTwice = .ok m ∧ savesTwice.Describes m ∧
      m.returnSink = [⟨1⟩, ⟨3⟩, ⟨1⟩, ⟨0⟩] := by
  have hconsistent : savesTwice.Consistent := by
    refine ⟨?_, ?_, ?_, ?_, ?_⟩ <;> decide
  obtain ⟨m, hm⟩ := (ofSpec_decides savesTwice).1.2 hconsistent
  refine ⟨hconsistent, m, hm, (ofSpec_decides savesTwice).2 m hm, ?_⟩
  cases hm
  decide

end Machine

end TreeCompiler
