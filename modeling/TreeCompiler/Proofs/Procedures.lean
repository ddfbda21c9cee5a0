import TreeCompiler.Machine.TwoRegisters
import TreeCompiler.Proofs.CalleeSaves
import TreeCompiler.Proofs.Progress

/-!
# Procedures — from a procedure of a file to its allocated code

Each procedure is compiled with the namer that the ones before it left, whose temps lie behind those
of the file (`Procedure.namerAt`).  It is selected in operations on temps that were handed out
(`Procedure.admitted_of_select`), and an allocation of it comes from rounds that start with these
(`Procedure.exists_finished`).
-/

namespace TreeCompiler

open Selection Allocation

/-- An outcome of which something is true is a success. -/
theorem exists_ok_of_any {ε α : Type} (outcome : Except ε α) (q : α → Bool)
    (h : outcome.toOption.any q = true) : ∃ a, outcome = .ok a ∧ q a = true := by
  cases outcome with
  | error e => cases h
  | ok a => exact ⟨a, rfl, h⟩

namespace Procedure

variable {p : Procedure} {ps : List Procedure} {m : Machine} {options : AllocOptions} {n n' : Namer}
  {i : Nat} {s : Selected} {a : Allocation}

/-! ## Procedures of a file -/

/-- The namer with which the procedure at a position of a file is compiled. -/
def namerAt (ps : List Procedure) (m : Machine) (options : AllocOptions) (i : Nat) : Namer :=
  (compileAll m options (ps.take i) (namerFor ps)).2

theorem getElem?_compileAll (hp : ps[i]? = some p) : (compileAll m options ps n).1[i]? =
    some (p.compile m options (compileAll m options (ps.take i) n).2).1 := by
  induction ps generalizing n i with
  | nil => cases hp
  | cons q ps ih =>
      cases i with
      | zero =>
          cases hp
          rfl
      | succ i => exact ih hp

theorem length_compileAll : (compileAll m options ps n).1.length = ps.length := by
  induction ps generalizing n with
  | nil => rfl
  | cons q ps ih => exact congrArg Nat.succ ih

/-- The attempts of a file are those of its procedures. -/
theorem getElem?_compileFile (hp : ps[i]? = some p) : (compileFile ps m options).1[i]? =
    some (p.compile m options (namerAt ps m options i)).1 := getElem?_compileAll hp

/-- Each attempt of a file is that of the procedure at its position. -/
theorem exists_of_getElem?_compileFile {attempt : Attempt}
    (h : (compileFile ps m options).1[i]? = some attempt) :
    ∃ p, ps[i]? = some p ∧ attempt = (p.compile m options (namerAt ps m options i)).1 := by
  have hlt : i < ps.length := by
    rw [← length_compileAll]
    exact (List.getElem?_eq_some_iff.1 h).1
  have hp : ps[i]? = some ps[i] := List.getElem?_eq_getElem hlt
  exact ⟨_, hp, Option.some.inj (h.symm.trans (getElem?_compileFile hp))⟩

theorem le_compileAll (ps : List Procedure) (n : Namer) :
    n.nextTemp ≤ (compileAll m options ps n).2.nextTemp := by
  induction ps generalizing n with
  | nil => exact Nat.le_refl _
  | cons q ps ih => exact (q.le_compile n).trans (ih _)

theorem firstVirtual_le_namerAt (ps : List Procedure) (i : Nat) :
    Temp.firstVirtual ≤ (namerAt ps m options i).nextTemp :=
  (Namer.le_nextTemp_resumeAfter {} (maxTempAll ps)).trans (le_compileAll _ _)

theorem lt_namerAt (hp : ps[i]? = some p) {t : Temp} (ht : t ∈ p.temps) :
    t.id < (namerAt ps m options i).nextTemp :=
  Nat.lt_of_lt_of_le (Namer.lt_nextTemp_of_atMost (le_maxTempAll (List.mem_of_getElem? hp) ht))
    (le_compileAll _ _)

/-! ## Selected code -/

/-- The selected code is what selection makes of the body between the copies of registers, and the
exit. -/
theorem exists_state_of_select (h : p.select m n = (.ok s, n')) :
    ∃ S, (Stm.selectAll ⟨m, (p.frame m).sizeSymbol⟩ (saveCalleeSaves m p.body n).1).run.run
        { namer := (saveCalleeSaves m p.body n).2 } = (.ok (), S) ∧
      s.instrs = (S.operations.toList ++ [Operation.exit]).map
        (Operation.instr ⟨m, (p.frame m).sizeSymbol⟩) ∧
      s.frame = (p.frame m).reserveOutgoing S.memoryArguments ∧ n' = S.namer := by
  have h : (p.frame m).select m (saveCalleeSaves m p.body n).1 (saveCalleeSaves m p.body n).2
      = (.ok s, n') := h
  obtain ⟨S, hrun, hinstrs, hframe⟩ := exists_of_select h
  exact ⟨S, hrun, hinstrs, hframe, namer_of_select h hrun⟩

/-- Selection does not rename the size of the frame. -/
theorem sizeSymbol_of_select (h : p.select m n = (.ok s, n')) :
    s.frame.sizeSymbol = (p.frame m).sizeSymbol := by
  obtain ⟨S, -, -, hframe, -⟩ := exists_state_of_select h
  rw [hframe]
  rfl

/-- Statements in front of a body and behind it copy registers. -/
theorem mem_saveCalleeSaves {body : List Stm} {stm : Stm} : stm ∈ (saveCalleeSaves m body n).1 ↔
    (∃ e ∈ (n.freshFor m.savedRegisters).1, Stm.move (.temp e.2) (.temp e.1) = stm) ∨
      stm ∈ body ∨
      ∃ e ∈ (n.freshFor m.savedRegisters).1, Stm.move (.temp e.1) (.temp e.2) = stm := by
  unfold saveCalleeSaves
  simp only [List.mem_append, List.mem_map, or_assoc]
  rfl

/-- The copies of registers move only to the registers and to fresh temps. -/
theorem allowed_saveCalleeSaves {D : Temp → Prop} (hfirst : Temp.firstVirtual ≤ n.nextTemp)
    (htemps : ∀ t ∈ p.temps, t.id < n.nextTemp) (hassigned : ∀ t ∈ p.assigned, D t)
    (hsaved : ∀ t ∈ m.savedRegisters, D t) (hvirtual : ∀ t : Temp, Temp.firstVirtual ≤ t.id → D t) :
    Allowed D (saveCalleeSaves m p.body n).2.nextTemp
      ((saveCalleeSaves m p.body n).1.flatMap Stm.assigned)
      ((saveCalleeSaves m p.body n).1.flatMap Stm.temps) := by
  have hsaves : Saves m n (n.freshFor m.savedRegisters).2 (n.freshFor m.savedRegisters).1 :=
    saves_freshFor m n
  have hregister : ∀ e ∈ (n.freshFor m.savedRegisters).1, e.1 ∈ m.savedRegisters := fun e he =>
    hsaves.registers ▸ List.mem_map_of_mem he
  have hlt : ∀ e ∈ (n.freshFor m.savedRegisters).1,
      e.1.id < (n.freshFor m.savedRegisters).2.nextTemp :=
    fun e he => Nat.lt_of_lt_of_le (Machine.lt_firstVirtual (hsaves.isRegister he).1)
      (hfirst.trans hsaves.le)
  refine { assigned := ?assigned, temps := ?temps }
  case assigned =>
    -- saving moves to fresh temps, restoring to the registers
    intro t ht
    obtain ⟨stm, hstm, ht⟩ := List.mem_flatMap.1 ht
    rcases mem_saveCalleeSaves.1 hstm with ⟨e, he, rfl⟩ | hstm | ⟨e, he, rfl⟩
    · obtain rfl := List.mem_singleton.1 ht
      exact hvirtual _ (hfirst.trans (hsaves.fresh e he).1)
    · exact hassigned t (List.mem_flatMap.2 ⟨stm, hstm, ht⟩)
    · obtain rfl := List.mem_singleton.1 ht
      exact hsaved _ (hregister e he)
  case temps =>
    have hpair : ∀ e ∈ (n.freshFor m.savedRegisters).1, ∀ t ∈ [e.2, e.1],
        t.id < (n.freshFor m.savedRegisters).2.nextTemp := by
      intro e he t ht
      rcases List.mem_pair.1 ht with rfl | rfl
      · exact (hsaves.fresh e he).2
      · exact hlt e he
    intro t ht
    obtain ⟨stm, hstm, ht⟩ := List.mem_flatMap.1 ht
    rcases mem_saveCalleeSaves.1 hstm with ⟨e, he, rfl⟩ | hstm | ⟨e, he, rfl⟩
    · exact hpair e he t ht
    · exact Nat.lt_of_lt_of_le (htemps t (List.mem_flatMap.2 ⟨stm, hstm, ht⟩)) hsaves.le
    · exact hpair e he t (List.mem_pair.2 (List.mem_pair.1 ht).symm)

/-- A procedure is selected in operations on temps that were handed out.  They define what its body
moves to, registers that are saved or that tiles are tied to, and fresh temps. -/
theorem admitted_of_select {D : Temp → Prop} (hfirst : Temp.firstVirtual ≤ n.nextTemp)
    (htemps : ∀ t ∈ p.temps, t.id < n.nextTemp) (hassigned : ∀ t ∈ p.assigned, D t)
    (hsaved : ∀ t ∈ m.savedRegisters, D t) (hwritten : ∀ t ∈ m.roles.written, D t)
    (hvirtual : ∀ t : Temp, Temp.firstVirtual ≤ t.id → D t) (h : p.select m n = (.ok s, n')) :
    n.nextTemp ≤ n'.nextTemp ∧ ∃ ops : List Operation,
      s.instrs = ops.map (·.instr ⟨m, (p.frame m).sizeSymbol⟩) ∧
      ∀ op ∈ ops, op.Admitted ⟨m, (p.frame m).sizeSymbol⟩ D n'.nextTemp := by
  obtain ⟨S, hrun, hinstrs, -, rfl⟩ := exists_state_of_select h
  have hle : n.nextTemp ≤ (saveCalleeSaves m p.body n).2.nextTemp := n.le_freshFor _
  have hD : Defines m (saveCalleeSaves m p.body n).2.nextTemp D :=
    ⟨hfirst.trans hle, fun t ht => hvirtual t (hfirst.trans (hle.trans ht)), hwritten⟩
  have hadmits : AdmitsUnit ⟨m, (p.frame m).sizeSymbol⟩ D _
      (Stm.selectAll ⟨m, (p.frame m).sizeSymbol⟩ (saveCalleeSaves m p.body n).1) :=
    admits_statements hD _ (allowed_saveCalleeSaves hfirst htemps hassigned hsaved hvirtual)
  obtain ⟨ops, hext, hops, -⟩ := hadmits _ _ S (Nat.le_refl _) hrun
  have hoperations : S.operations.toList = ops := hext.operations
  refine ⟨hle.trans hext.nextTemp_le, S.operations.toList ++ [.exit], hinstrs, fun op hop => ?_⟩
  rcases List.mem_append.1 hop with hop | hop
  · exact hops op (hoperations ▸ hop)
  · cases List.mem_singleton.1 hop
    refine admitted_of [] m.returnSink rfl rfl (by simp) fun t ht => ?_
    exact Nat.lt_of_lt_of_le (Machine.lt_firstVirtual (isRegister_of_mem_returnSink ht))
      (hfirst.trans (hle.trans hext.nextTemp_le))

/-- The temps of the selected code were handed out. -/
theorem lt_of_select (hp : ps[i]? = some p)
    (h : p.select m (namerAt ps m options i) = (.ok s, n')) :
    Temp.firstVirtual ≤ n'.nextTemp ∧ ∀ t, Mentions s.instrs t → t.id < n'.nextTemp := by
  obtain ⟨hle, ops, hinstrs, hops⟩ := admitted_of_select (D := fun _ => True)
    (firstVirtual_le_namerAt ps i) (fun t ht => lt_namerAt hp ht) (fun _ _ => trivial)
    (fun _ _ => trivial) (fun _ _ => trivial) (fun _ _ => trivial) h
  refine ⟨(firstVirtual_le_namerAt ps i).trans hle, fun t ⟨j, hj, ht⟩ => ?_⟩
  rw [hinstrs] at hj
  obtain ⟨op, hop, rfl⟩ := List.mem_map.1 hj
  exact (hops op hop).lt t ht

/-! ## Allocated code -/

/-- An allocation of a procedure comes from rounds that start with its selected code. -/
theorem exists_finished (hp : ps[i]? = some p)
    (hok : (p.compile m options (namerAt ps m options i)).1.outcome = .ok a) :
    ∃ s n' q slots items, p.select m (namerAt ps m options i) = (.ok s, n') ∧
      Reaches m options (.first s.frame s.instrs n') q slots ∧ Finishes m options q a ∧
      slots = (slotsOf s.frame a.spilled).map slotPlace ∧
      Finished m (.first s.frame s.instrs n') a items := by
  obtain ⟨s, n₁, n₂, hselect, hallocate, -⟩ := exists_of_compile hok
  obtain ⟨q, slots, hreaches, hfinishes, -⟩ := exists_finishes hallocate
  obtain ⟨hfirst, htemps⟩ := lt_of_select hp hselect
  obtain ⟨⟨items, htracked⟩, hslots⟩ := hreaches.tracked hfirst htemps
  exact ⟨s, n₁, q, slots, _, hselect, hreaches, hfinishes, hfinishes.spilled ▸ hslots,
    hfinishes.finished htracked⟩

/-! ## A procedure that spills -/

/-- Three constants are moved to temps, and these are passed to a call. -/
def callOfThree : Procedure :=
  ⟨"f", 4, [.move (.temp ⟨100⟩) (.const 1), .move (.temp ⟨101⟩) (.const 1),
    .move (.temp ⟨102⟩) (.const 1),
    .exp (.call (.name "g") [.temp ⟨100⟩, .temp ⟨101⟩, .temp ⟨102⟩])]⟩

theorem callOfThree_alone : [callOfThree][0]? = some callOfThree := rfl

/-- With two registers, all of the arguments are passed in memory, and two are spilled. -/
theorem callOfThree_spills : ∃ a,
    (callOfThree.compile .twoRegisters {} (namerAt [callOfThree] .twoRegisters {} 0)).1.outcome =
      .ok a ∧ a.spilled.length = 2 ∧ a.frame.outgoingSize = 12 := by
  obtain ⟨a, hok, hsizes⟩ := exists_ok_of_any
    (callOfThree.compile .twoRegisters {} (namerAt [callOfThree] .twoRegisters {} 0)).1.outcome
    (fun a => decide (a.spilled.length = 2 ∧ a.frame.outgoingSize = 12)) (by decide +kernel)
  exact ⟨a, hok, of_decide_eq_true hsizes⟩

end Procedure

end TreeCompiler
