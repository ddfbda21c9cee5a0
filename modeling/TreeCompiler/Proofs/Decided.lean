import TreeCompiler.Machine.TwoRegisters
import TreeCompiler.Proofs.AllocationRounds
import TreeCompiler.Proofs.Coloring.Outcome
import TreeCompiler.Proofs.Registers

/-!
# Decided — no temp is lost between coloring and spilling

The graph of some code has no move that names a reserved register, so a round colors or spills each
temp of its code (`colorCode_decided`).  When it spills none, all of them have registers and names
(`registerNames_ok`): allocation never fails for a temp that is neither colored nor spilled.
-/

namespace TreeCompiler

open Coloring Interference

namespace Allocation

variable {m : Machine} {options : AllocOptions} {avoid : TempSet} {code : List Instr}
  {g : Interference} {r : ColorResult} {names : NameMap} {ts : List Temp} {t : Temp}

theorem movesAvoidReserved_of_portrays (h : g.Portrays m code) : MovesAvoidReserved m g := by
  intro s d hmove
  rcases (h.move s d).1 hmove with ⟨_, _, _, hs, hd⟩
  exact ⟨hs, hd⟩

/-- A round decides each temp of its graph. -/
theorem colorCode_decided (h : colorCode m options avoid code = .ok (g, r)) (ht : t ∈ g.temps)
    (hreg : m.isRegister t = false) : Decided r t := by
  rcases exists_of_colorCode h with ⟨-, hportrays, hrun⟩
  rcases losesNothing hportrays.built (movesAvoidReserved_of_portrays hportrays) options avoid
    with ⟨c, hc⟩
  cases hrun.symm.trans hc.run
  exact hc.decided t ht hreg

/-- A temp that is not spilled has a register. -/
theorem registerOf_ok (h : colorCode m options avoid code = .ok (g, r)) (ht : t ∈ g.temps)
    (hspilled : t ∉ r.spilled) : ∃ p, registerOf m r t = .ok p := by
  unfold registerOf
  cases hcolor : r.colors.get? t with
  | some x => exact ⟨_, rfl⟩
  | none =>
      cases hreg : m.isRegister t with
      | true => exact ⟨t, rfl⟩
      | false =>
          rcases colorCode_decided h ht hreg with ⟨⟨x, hx⟩, _⟩ | ⟨_, hmem⟩
          · cases hcolor.symm.trans hx
          · exact absurd hmem hspilled

/-- Temps that have registers have names. -/
theorem registerNames_ok (h : ∀ t ∈ ts, ∃ p, registerOf m r t = .ok p) :
    ∃ names', registerNames m r ts names = .ok names' := by
  induction ts generalizing names with
  | nil => exact ⟨names, rfl⟩
  | cons t ts ih =>
      rcases h t List.mem_cons_self with ⟨p, hp⟩
      have hrest : ∀ t ∈ ts, ∃ p, registerOf m r t = .ok p := fun t ht =>
        h t (List.mem_cons_of_mem _ ht)
      cases hname : m.asmName? p with
      | some name =>
          rw [registerNames_of_some hp hname]
          exact ih hrest
      | none =>
          rw [registerNames_of_none hp hname]
          exact ih hrest

/-- A round that spills nothing finds a name for every temp. -/
theorem registerNames_colorCode (h : colorCode m options avoid code = .ok (g, r))
    (hspilled : r.spilled.isEmpty = true) :
    ∃ names, registerNames m r g.temps .empty = .ok names := by
  refine registerNames_ok fun t ht => registerOf_ok h ht fun hmem => ?_
  have hnil : r.spilled.toList = [] := List.isEmpty_iff.1 hspilled
  have hmem : t ∈ r.spilled.toList := hmem
  rw [hnil] at hmem
  cases hmem

theorem colorCode_ne_lostTemp : colorCode m options avoid code ≠ .error (.lostTemp t) := by
  intro h
  cases hbuild : FlowGraph.build code with
  | error e =>
      unfold colorCode at h
      rw [hbuild] at h
      cases h
  | ok flow =>
      have hok : ∃ g r, colorCode m options avoid code = .ok (g, r) := by
        rcases colorCode_eq hbuild with ⟨g, r, heq, _⟩
        exact ⟨g, r, heq⟩
      rcases hok with ⟨g, r, heq⟩
      cases heq.symm.trans h

theorem allocateWithin_ne_lostTemp {left done : Nat} {p : Progress} :
    (allocateWithin m options done left p).1 ≠ .error (.lostTemp t) := by
  induction left generalizing done p with
  | zero =>
      intro h
      cases h
  | succ left ih =>
      have hturn := turn m options done left p
      generalize allocateWithin m options done (left + 1) p = outcome at hturn
      cases hturn with
      | uncolored hcolor =>
          rintro ⟨⟩
          exact colorCode_ne_lostTemp hcolor
      | last hcolor hnone =>
          rcases registerNames_colorCode hcolor hnone with ⟨names, hnames⟩
          rw [hnames]
          intro h
          cases h
      | stop =>
          intro h
          cases h
      | next => exact ih

end Allocation

/-- No temp is lost by merging.  In a graph in which no move names a reserved register each temp is
colored or spilled and never both, and merged temps and their hosts are colored.  Allocation never
fails for a temp that is neither. -/
theorem loses_no_temp (m : Machine) :
    (∀ g, Built m g → MovesAvoidReserved m g → ∀ options avoid,
      ∃ c, LosesNothing m g options avoid c) ∧
    ∀ (frame : Frame) (options : AllocOptions) (code : List Instr) (n : Namer) (t : Temp),
      (frame.allocate m options code n).1 ≠ .error (.lostTemp t) :=
  ⟨fun _ hg hmoves options avoid => losesNothing hg hmoves options avoid,
    fun _ _ _ _ _ => Allocation.allocateWithin_ne_lostTemp⟩

/-- Three temps in a row of copies that ends at a register, two of which interfere with a fourth. -/
theorem loses_no_temp_copies :
    let g := ((((((Interference.registers .twoRegisters).addEdge ⟨100⟩ ⟨103⟩).addEdge ⟨101⟩
      ⟨103⟩).addEdge ⟨0⟩ ⟨103⟩).addMove ⟨100⟩ ⟨101⟩).addMove ⟨101⟩ ⟨102⟩).addMove ⟨102⟩ ⟨0⟩
    Built .twoRegisters g ∧ MovesAvoidReserved .twoRegisters g ∧
      ∃ c, LosesNothing .twoRegisters g {} .empty c := by
  intro g
  have hbuilt : Built .twoRegisters g := .addMove _ _ (.addMove _ _ (.addMove _ _
    (.addEdge _ _ (.addEdge _ _ (.addEdge _ _ .registers)))))
  have hfree : ∀ e ∈ g.moves.toList, ∀ n ∈ [e.1, e.2],
      ∀ t ∈ g.graph.nodes[n]?.toList, Machine.twoRegisters.isReserved t = false := by
    decide +kernel
  have hmoves : MovesAvoidReserved .twoRegisters g := by
    rintro s d ⟨e, he, hs, hd⟩
    have he := Array.mem_toList_iff.2 he
    exact ⟨hfree e he e.1 (by simp) s (Option.mem_toList.2 hs),
      hfree e he e.2 (by simp) d (Option.mem_toList.2 hd)⟩
  exact ⟨hbuilt, hmoves, (loses_no_temp .twoRegisters).1 g hbuilt hmoves {} .empty⟩

end TreeCompiler
