import TreeCompiler.Machine.X86
import TreeCompiler.Proofs.Coloring.Assign
import TreeCompiler.Proofs.Coloring.Labels

/-!
# Coloring runs — the invariants hold in every state of a run

A run visits the start, the state after sorting the nodes, the state after each step and the state
with colors (`Visited`).  Each of them passes the check, so a run has a result, and the result does
not depend on whether states are checked (`run_verified`).
-/

namespace TreeCompiler

namespace Coloring

open Interference (Built)

variable {c d start : Coloring}

/-- The states that a run visits. -/
inductive Visited (start : Coloring) : Coloring → Prop
  /-- Before anything is sorted. -/
  | start : Visited start start
  /-- After sorting, and after each step. -/
  | settling {c : Coloring} (h : Reaches start.makeWorklist c) : Visited start c
  /-- After the last step, with colors. -/
  | colored {c : Coloring} (h : Reaches start.makeWorklist c) (hdone : c.step? = none) :
      Visited start c.assignColors

theorem Start.verified_of_visited (h : Start start) (hc : Visited start c) : Verified c := by
  cases hc with
  | start => exact h.verified
  | settling hc => exact (h.coherent.1.reaches hc).verified
  | colored hc hdone => exact (h.coherent.1.reaches hc).verified_assignColors hdone

/-! ## Runs have results -/

/-- What the check looks at stays the same under other labels. -/
theorem Verified.relabel (h : Verified c) (r : Renumbering) (b : Bool) :
    Verified (c.relabel r b) where
  toLists := { h.toLists with lt_size := fun n hn => (size_relabel c r b).symm ▸ h.lt_size n hn }
  edges := { h.edges with lt_size := fun hb => (size_relabel c r b).symm ▸ h.edges.lt_size hb }
  degree n hn := by
    have hdegree : (c.relabel r b).graphDegree n = c.graphDegree n := by
      rw [graphDegree, graphDegree, nodes_relabel]
      rfl
    rw [hdegree]
    exact h.degree n hn
  spill_degree := h.spill_degree
  freeze_degree := h.freeze_degree
  freeze_moves := h.freeze_moves

theorem settle_relabel_of_stop (limit : Nat) (hstep : c.step? = none) (r : Renumbering)
    (b : Bool) : Coloring.settle limit (c.relabel r b) = .ok (c.relabel r b) := by
  unfold Coloring.settle
  rw [step?_relabel, hstep]
  rfl

/-- A run settles, whatever the labels, in a state that steps lead to. -/
theorem Coherent.settle {limit : Nat} (h : Coherent c) (hlimit : c.work ≤ limit) :
    ∃ d, Reaches c d ∧ d.step? = none
      ∧ ∀ r b, Coloring.settle limit (c.relabel r b) = .ok (d.relabel r b) := by
  induction limit generalizing c with
  | zero =>
      cases hstep : c.step? with
      | none => exact ⟨c, .refl, hstep, settle_relabel_of_stop _ hstep⟩
      | some c' => exact absurd (h.work_lt hstep) (by omega)
  | succ limit ih =>
      cases hstep : c.step? with
      | none => exact ⟨c, .refl, hstep, settle_relabel_of_stop _ hstep⟩
      | some c' =>
          have h' := h.step hstep
          have hwork : c'.work ≤ limit :=
            Nat.le_of_lt_succ (Nat.lt_of_lt_of_le (h.work_lt hstep) hlimit)
          obtain ⟨d, hreach, hdone, hsettle⟩ := ih h' hwork
          refine ⟨d, hreach.head hstep, hdone, fun r b => ?_⟩
          unfold Coloring.settle
          rw [step?_relabel, hstep]
          simp only [Option.map_some, (h'.verified.relabel r b).check]
          exact hsettle r b

/-- The outcome of a run is that of coloring the state in which it settles. -/
theorem Start.run_relabel (h : Start start) : ∃ d, Reaches start.makeWorklist d ∧ d.step? = none
    ∧ ∀ r b, (start.relabel r b).run = .ok (d.assignColors.relabel r b).result := by
  have hcoherent := h.coherent.1
  obtain ⟨d, hreach, hdone, hsettle⟩ := hcoherent.settle (work_le_stepLimit hcoherent.lists)
  refine ⟨d, hreach, hdone, fun r b => ?_⟩
  have hlimit : (start.makeWorklist.relabel r b).stepLimit = start.makeWorklist.stepLimit := by
    rw [stepLimit, stepLimit, size_relabel]
    rfl
  have hcolored := (hcoherent.reaches hreach).verified_assignColors hdone
  unfold Coloring.run
  dsimp only
  rw [makeWorklist_relabel, (hcoherent.verified.relabel r b).check, hlimit, hsettle r b]
  simp only [bind, Except.bind, assignColors_relabel, (hcolored.relabel r b).check]
  rfl

/-- The outcome is the same with and without checks. -/
theorem Start.run (h : Start start) : ∃ d, Reaches start.makeWorklist d ∧ d.step? = none
    ∧ ∀ b, (start.withChecks b).run = .ok d.assignColors.result := by
  obtain ⟨d, hreach, hdone, hrun⟩ := h.run_relabel
  refine ⟨d, hreach, hdone, fun b => ?_⟩
  have hresult : (d.assignColors.withChecks b).result = d.assignColors.result := rfl
  rw [withChecks_eq, hrun .refl b, ← withChecks_eq, hresult]

/-- Checking or not is all that the option changes in a start. -/
theorem ofGraph_withChecks (g : Interference) (m : Machine) (options : AllocOptions)
    (avoid : TempSet) (b : Bool) : ofGraph g m { options with checkInvariants := b } avoid
      = (ofGraph g m options avoid).withChecks b := by
  have hnodes : ofNodes g m { options with checkInvariants := b } avoid
      = (ofNodes g m options avoid).relabel .refl b :=
    withChecks_eq (ofNodes g m options avoid) b
  rw [withChecks_eq, ofGraph_eq, ofGraph_eq, hnodes,
    foldl_relabel _ .refl b fun c e => addEdge_relabel c .refl b e.1 e.2]
  exact foldl_relabel _ .refl b (fun _ _ => rfl) _

/-- In every state of a run the worklists and move sets hold what the states say, and the degrees
are right and fit the worklists; so a run has a result, the same with and without checks. -/
theorem run_verified {m : Machine} {g : Interference} (hg : Built m g) (options : AllocOptions)
    (avoid : TempSet) :
    (∀ c, Visited (ofGraph g m options avoid) c → c.verify = .ok () ∧ Verified c)
      ∧ ∃ r, ∀ b, (ofGraph g m { options with checkInvariants := b } avoid).run = .ok r := by
  have hstart := start_ofGraph hg.wellFormed m options avoid
  constructor
  · intro c hc
    have hverified := hstart.verified_of_visited hc
    exact ⟨hverified.verify, hverified⟩
  · obtain ⟨d, _, _, hrun⟩ := hstart.run
    refine ⟨d.assignColors.result, fun b => ?_⟩
    rw [ofGraph_withChecks]
    exact hrun b

/-- A graph with an edge and a copy, over the built-in machine. -/
theorem run_verified_edge_copy :
    Built .x86_64 (((Interference.registers .x86_64).addEdge ⟨100⟩ ⟨101⟩).addMove ⟨100⟩ ⟨102⟩) ∧
      ∃ r, ∀ b, (ofGraph (((Interference.registers .x86_64).addEdge ⟨100⟩ ⟨101⟩).addMove
        ⟨100⟩ ⟨102⟩) .x86_64 { checkInvariants := b } .empty).run = .ok r := by
  have hbuilt : Built .x86_64
      (((Interference.registers .x86_64).addEdge ⟨100⟩ ⟨101⟩).addMove ⟨100⟩ ⟨102⟩) :=
    .addMove ⟨100⟩ ⟨102⟩ (.addEdge ⟨100⟩ ⟨101⟩ .registers)
  exact ⟨hbuilt, (run_verified hbuilt {} .empty).2⟩

end Coloring

end TreeCompiler
