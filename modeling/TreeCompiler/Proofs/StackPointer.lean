import TreeCompiler.Machine.Spec
import TreeCompiler.Proofs.Procedures

/-!
# StackPointer — the stack pointer stays where it is

Places in the frame and arguments in memory are addressed from the stack pointer, so it must not
move between the entry of a procedure and its exit.  No instruction defines it if the body moves
nothing to it and the machine does not give it a role for which selected code writes a register;
then it has one value in every execution of the allocated code (`Procedure.keeps_stackPointer`).  A
machine specification may give it such a role, and calls define it then
(`Procedure.call_defines_stackPointer`).
-/

namespace TreeCompiler

open FlowGraph Selection Allocation

/-- No instruction defines the stack pointer. -/
def Still (m : Machine) (code : List Instr) : Prop := ∀ i ∈ code, m.stackPointer ∉ i.defs

/-- From each point on, the stack pointer has one value in an execution of the items. -/
def Steady (m : Machine) (names : NameMap) (items : List Item) : Prop :=
  ∀ (V : Type) (w : Words V) (s e : State String V Unit) (cs : List (Choice V)), s.rest <:+ items →
    Execution names.lookup m.stackPointer w items s cs e →
    e.file (names.lookup m.stackPointer) = s.file (names.lookup m.stackPointer)

/-- What keeps the stack pointer where it is while a procedure is compiled. -/
structure Procedure.KeepsStackPointer (p : Procedure) (m : Machine) (options : AllocOptions)
    (n : Namer) : Prop where
  selected : ∀ s n', p.select m n = (.ok s, n') → Still m s.instrs
  /-- The code of each round, also if allocation fails later. -/
  rounds : ∀ s n' q slots, p.select m n = (.ok s, n') →
    Reaches m options (.first s.frame s.instrs n') q slots → Still m q.instrs
  allocated : ∀ a, (p.compile m options n).1.outcome = .ok a → Still m a.instrs
  /-- No other temp is in the stack pointer. -/
  apart : ∀ a, (p.compile m options n).1.outcome = .ok a → ∀ t name,
    m.asmName? m.stackPointer = some name → a.coloring.get? t = some name → t = m.stackPointer
  steady : ∀ a, (p.compile m options n).1.outcome = .ok a → ∀ items, instrsOf items = a.instrs →
    Steady m a.coloring items

section Still

variable {m : Machine} {code : List Instr} {items : List Item} {start : Progress} {a : Allocation}

/-- Spilling inserts nothing that defines the stack pointer. -/
theorem Still.of_origin {k : Nat} {symbol : String} {places : List (Temp × Int)} (h : Still m code)
    (hk : Temp.firstVirtual ≤ k) (horigin : ∀ x ∈ items, Item.Origin ⟨m, symbol⟩ code k places x) :
    Still m (instrsOf items) := by
  intro i hi hsp
  obtain ⟨x, hx, rfl⟩ := List.mem_map.1 hi
  have hlt : m.stackPointer.id < k :=
    Nat.lt_of_lt_of_le (Machine.lt_firstVirtual m.isRegister_stackPointer) hk
  obtain ⟨j, hj, hdef⟩ := (horigin x hx).defs hsp hlt
  exact h j hj hdef

/-- The place of the stack pointer is written by nothing else. -/
theorem Allocation.Finished.lookup_ne (h : Finished m start a items)
    (hstill : Still m a.instrs) {i : Instr} (hi : i ∈ a.instrs) {d : Temp} (hd : d ∈ i.defs) :
    a.coloring.lookup d ≠ a.coloring.lookup m.stackPointer := by
  intro heq
  have hname : ∃ name, m.asmName? m.stackPointer = some name ∧
      a.coloring.get? m.stackPointer = some name := by
    cases h.register m.stackPointer m.isRegister_stackPointer with
    | register _ hname hget => exact ⟨_, hname, hget⟩
    | allocated hregister =>
        rw [m.isRegister_stackPointer] at hregister
        cases hregister
  obtain ⟨name, hname, hsp⟩ := hname
  have hget : ∃ name', a.coloring.get? d = some name' := by
    cases h.named i hi d (List.mem_append_left _ hd) with
    | register _ _ hget => exact ⟨_, hget⟩
    | allocated _ _ _ hget => exact ⟨_, hget⟩
  obtain ⟨name', hget⟩ := hget
  -- both have names, and no other temp is called by the name of a reserved register
  unfold TempMap.lookup at heq
  rw [hget, hsp] at heq
  obtain rfl : name' = name := heq
  have hreserved : m.isReserved m.stackPointer = true := by
    simp [Machine.isReserved]
  obtain rfl := h.reserved d m.stackPointer name' hreserved hname hget
  exact hstill i hi hd

/-- No step writes to the place of the stack pointer. -/
theorem steady_of_forall_ne {names : NameMap}
    (h : ∀ x ∈ items, ∀ d ∈ x.instr.defs, names.lookup d ≠ names.lookup m.stackPointer) :
    Steady m names items := by
  intro V w s e cs hsuffix hexec
  induction hexec with
  | refl => rfl
  | source htag hfits hgoes _ ih =>
      exact (ih (hgoes.suffix hsuffix)).trans
        (write_of_forall_ne (h _ (hsuffix.mem List.mem_cons_self)))
  | inserted htag hmay hgoes _ ih =>
      exact (ih (hgoes.suffix hsuffix)).trans
        (write_of_forall_ne (h _ (hsuffix.mem List.mem_cons_self)))

end Still

namespace Procedure

variable {p : Procedure} {ps : List Procedure} {m : Machine} {options : AllocOptions} {n n' : Namer}
  {i : Nat} {s : Selected}

/-- Selected code defines the stack pointer only if the body moves something to it or the machine
gives it a role for which registers are written. -/
theorem still_select (hfirst : Temp.firstVirtual ≤ n.nextTemp)
    (htemps : ∀ t ∈ p.temps, t.id < n.nextTemp) (hassigned : m.stackPointer ∉ p.assigned)
    (hwritten : m.stackPointer ∉ m.roles.written) (h : p.select m n = (.ok s, n')) :
    Still m s.instrs := by
  have hsaved : ∀ t ∈ m.savedRegisters, t ≠ m.stackPointer := by
    rintro t ht rfl
    have hreserved := (mem_savedRegisters.1 ht).2
    simp [Machine.isReserved] at hreserved
  have hvirtual : ∀ t : Temp, Temp.firstVirtual ≤ t.id → t ≠ m.stackPointer := by
    rintro t ht rfl
    exact absurd (Machine.lt_firstVirtual m.isRegister_stackPointer) (Nat.not_lt_of_le ht)
  obtain ⟨-, ops, hinstrs, hops⟩ := admitted_of_select (D := fun t => t ≠ m.stackPointer)
    hfirst htemps
    (fun t ht heq => hassigned (heq ▸ ht)) hsaved (fun t ht heq => hwritten (heq ▸ ht)) hvirtual h
  intro j hj hsp
  rw [hinstrs] at hj
  obtain ⟨op, hop, rfl⟩ := List.mem_map.1 hj
  exact (hops op hop).defs _ hsp rfl

/-- The stack pointer does not move in any procedure of a file that moves nothing to it, on any
machine that does not have it written otherwise: neither in the selected code nor in that of a round
nor in the allocated code is it defined, no other temp is put into it, and in every execution of the
allocated code it has one value. -/
theorem keeps_stackPointer (hp : ps[i]? = some p) (hassigned : m.stackPointer ∉ p.assigned)
    (hwritten : m.stackPointer ∉ m.roles.written) :
    p.KeepsStackPointer m options (namerAt ps m options i) := by
  have hselected : ∀ s n', p.select m (namerAt ps m options i) = (.ok s, n') → Still m s.instrs :=
    fun s n' h => still_select (firstVirtual_le_namerAt ps i) (fun t ht => lt_namerAt hp ht)
      hassigned hwritten h
  have hallocated : ∀ a, (p.compile m options (namerAt ps m options i)).1.outcome = .ok a →
      ∃ (s : Selected) (n' : Namer) (items : List Item),
        Finished m (.first s.frame s.instrs n') a items ∧ Still m a.instrs := by
    intro a hok
    obtain ⟨s, n', q, slots, items, hselect, -, -, -, hfinished⟩ := exists_finished hp hok
    refine ⟨s, n', items, hfinished, hfinished.instrs ▸ ?_⟩
    exact (hselected s n' hselect).of_origin (lt_of_select hp hselect).1 hfinished.origin
  refine ⟨hselected, fun s n' q slots hselect hreaches => ?_, fun a hok => ?_,
    fun a hok t name => ?_, fun a hok items hitems => steady_of_forall_ne fun x hx d hd => ?_⟩
  · obtain ⟨hfirst, htemps⟩ := lt_of_select hp hselect
    obtain ⟨⟨items, htracked⟩, -⟩ := hreaches.tracked hfirst htemps
    rw [← htracked.instrs]
    exact (hselected s n' hselect).of_origin hfirst htracked.origin
  · obtain ⟨_, _, _, -, hstill⟩ := hallocated a hok
    exact hstill
  · obtain ⟨_, _, _, hfinished, -⟩ := hallocated a hok
    exact hfinished.reserved t _ name (by simp [Machine.isReserved])
  · obtain ⟨_, _, _, hfinished, hstill⟩ := hallocated a hok
    exact hfinished.lookup_ne hstill (hitems ▸ List.mem_map_of_mem hx) hd

/-- A procedure of which two temps are spilled. -/
theorem keeps_stackPointer_callOfThree :
    (∃ a, (callOfThree.compile .twoRegisters {}
        (namerAt [callOfThree] .twoRegisters {} 0)).1.outcome = .ok a ∧ a.spilled.length = 2) ∧
      callOfThree.KeepsStackPointer .twoRegisters {}
        (namerAt [callOfThree] .twoRegisters {} 0) := by
  obtain ⟨a, hok, hlength, -⟩ := callOfThree_spills
  exact ⟨⟨a, hok, hlength⟩, keeps_stackPointer callOfThree_alone (by decide) (by decide)⟩

/-- The specification of a machine whose calls may change the stack pointer. -/
def callsChangeStackPointer : MachineSpec where
  wordSize := 4
  allocatable := ["r0", "r1"]
  framePointer := "fp"
  stackPointer := "sp"
  returnValue := "r0"
  callerSaves := ["r0", "sp"]
  mulDiv := ("r0", "r1")
  shiftCount := "r1"

/-- The specification is accepted, and a call in a body that moves nothing to the stack pointer
defines it. -/
theorem call_defines_stackPointer :
    let p : Procedure := ⟨"f", 0, [.exp (.call (.name "g") [])]⟩
    ∃ m, Machine.ofSpec callsChangeStackPointer = .ok m ∧ m.stackPointer ∉ p.assigned ∧
      ∃ attempt code, (compileFile [p] m {}).1[0]? = some attempt ∧
        attempt.selected? = some code ∧ ¬ Still m code := by
  intro p
  have hdefines : (Machine.ofSpec callsChangeStackPointer).toOption.any (fun m =>
      decide (m.stackPointer ∉ p.assigned) && (compileFile [p] m {}).1[0]?.any fun attempt =>
        attempt.selected?.any fun code => code.any fun i => i.defs.contains m.stackPointer) =
          true := by
    decide +kernel
  obtain ⟨m, hok, hdefines⟩ := exists_ok_of_any _ _ hdefines
  obtain ⟨hassigned, hdefines⟩ := Bool.and_eq_true_iff.1 hdefines
  obtain ⟨attempt, hattempt, hdefines⟩ := (Option.any_eq_true ..).1 hdefines
  obtain ⟨code, hcode, hdefines⟩ := (Option.any_eq_true ..).1 hdefines
  obtain ⟨j, hj, hdef⟩ := List.any_eq_true.1 hdefines
  exact ⟨m, hok, of_decide_eq_true hassigned, attempt, code, hattempt, hcode,
    fun hstill => hstill j hj (List.contains_iff_mem.1 hdef)⟩

end Procedure

end TreeCompiler
