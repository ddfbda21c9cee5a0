import TreeCompiler.Proofs.Counting
import TreeCompiler.Proofs.Coloring.Transition

/-!
# Coloring runs settle — each step makes progress

A node leaves the graph once.  Between two such steps a node is sent to be simplified at most once,
and between two of those each step decides on a move of the worklist.  `Coloring.work` counts what
is left to do in this order, and it goes down with each step (`Coherent.work_lt`), so a run reaches
a state without a next step before its limit (`work_le_stepLimit`).
-/

namespace TreeCompiler

namespace Coloring

variable {c d e : Coloring}

/-! ## States that a run visits -/

/-- The states that steps lead to. -/
inductive Reaches (c : Coloring) : Coloring → Prop
  | refl : Reaches c c
  | step {d e : Coloring} (h : Reaches c d) (hstep : d.step? = some e) : Reaches c e

theorem Reaches.head (hstep : c.step? = some d) (h : Reaches d e) : Reaches c e := by
  induction h with
  | refl => exact .step .refl hstep
  | step _ hlast ih => exact .step ih hlast

theorem Coherent.reaches (h : Coherent c) (hcd : Reaches c d) : Coherent d := by
  induction hcd with
  | refl => exact h
  | step _ hstep ih => exact ih.step hstep

/-! ## What is left to do -/

/-- How many nodes are in the graph that are no registers. -/
def openCount (c : Coloring) : Nat := c.nodes.countP fun n => (c.state.get n).isOpen

/-- How many of them are not ready to be simplified. -/
def waitingCount (c : Coloring) : Nat :=
  c.nodes.countP fun n => (c.state.get n).isOpen && c.state.get n ≠ .simplify

/-- What is left to do: nodes before moves. -/
def work (c : Coloring) : Nat :=
  (c.moves.size + 1) * c.openCount + c.waitingCount + c.worklistMoves.size

theorem size_worklistMoves_le (h : Lists c) : c.worklistMoves.size ≤ c.moves.size := by
  have hsub : c.worklistMoves.toList ⊆ List.range c.moves.size := by
    intro m hm
    exact List.mem_range.2 ((h.worklistMoves m).1 hm).1
  simpa [SortedSet.size] using (SortedSet.nodup c.worklistMoves).length_le_of_subset hsub

theorem SameGraph.openCount (hcd : SameGraph c d) : d.openCount = c.openCount := by
  simp only [Coloring.openCount, hcd.nodes, hcd.isOpen]

theorem SameGraph.waitingCount_le (hcd : SameGraph c d) : d.waitingCount ≤ c.waitingCount := by
  simp only [waitingCount, hcd.nodes, hcd.isOpen]
  refine List.countP_mono_left fun n _ hn => ?_
  simp only [Bool.and_eq_true, decide_eq_true_eq] at hn ⊢
  exact ⟨hn.1, fun e => hn.2 (hcd.simplify n e)⟩

/-- A node that leaves the graph. -/
theorem openCount_setState {n : Nat} {s : NodeState} (hlt : n < c.size)
    (hn : (c.state.get n).isOpen = true) (hs : s.isOpen = false) :
    c.openCount = (c.setState n s).openCount + 1 := by
  simp only [openCount, nodes, size_setState]
  refine countP_range_succ_of_update hlt ?_ hn ?_
  · simp [state_setState, hs]
  · intro i hi
    simp [state_setState, hi]

theorem waitingCount_setState_le {n : Nat} {s : NodeState}
    (hs : s.isOpen = false ∨ s = .simplify) : (c.setState n s).waitingCount ≤ c.waitingCount := by
  simp only [waitingCount, nodes, size_setState]
  refine List.countP_mono_left fun i _ hi => ?_
  rw [state_setState] at hi
  split at hi
  · rcases hs with hs | rfl
    · simp [hs] at hi
    · simp at hi
  · exact hi

/-- A node that is sent to be simplified. -/
theorem waitingCount_setState_simplify {n : Nat} (hlt : n < c.size)
    (hn : c.state.get n = .freeze ∨ c.state.get n = .spill) :
    c.waitingCount = (c.setState n .simplify).waitingCount + 1 := by
  simp only [waitingCount, nodes, size_setState]
  refine countP_range_succ_of_update hlt ?_ ?_ ?_
  · simp [state_setState]
  · rcases hn with hn | hn <;> rw [hn] <;> rfl
  · intro i hi
    simp [state_setState, hi]

/-! ## Moves of the worklist -/

theorem worklistMoves_addWorkList (c : Coloring) (u : Nat) :
    (c.addWorkList u).worklistMoves = c.worklistMoves := by
  unfold addWorkList
  split
  · simp
  · rfl

/-- A move that is decided leaves the worklist. -/
theorem size_worklistMoves_lt {m : Nat} {s : MoveState} (hm : m ∈ c.worklistMoves)
    (hstate : c.moveState.get m = .worklist) (hs : s ≠ .worklist) :
    (c.setMoveState m s).worklistMoves.size < c.worklistMoves.size := by
  have herase : (c.setMoveState m s).worklistMoves = c.worklistMoves.erase m := by
    unfold setMoveState leaveMoves enterMoves
    rw [hstate]
    cases s <;> first | rfl | exact absurd rfl hs
  have hnot : m ∉ (c.worklistMoves.erase m).toList := fun h => (SortedSet.mem_erase.1 h).2 rfl
  have hcons : (m :: (c.worklistMoves.erase m).toList).Nodup :=
    List.nodup_cons.2 ⟨hnot, SortedSet.nodup _⟩
  rw [herase]
  refine hcons.length_le_of_subset ?_
  intro i hi
  rcases List.mem_cons.1 hi with rfl | hi
  · exact hm
  · exact (SortedSet.mem_erase.1 hi).1

theorem size_worklistMoves_frozen_le (c : Coloring) (m : Nat) :
    (c.setMoveState m .frozen).worklistMoves.size ≤ c.worklistMoves.size := by
  show (c.leaveMoves m).worklistMoves.size ≤ c.worklistMoves.size
  unfold leaveMoves
  split
  · exact List.length_filter_le _ _
  · exact Nat.le_refl _
  · exact Nat.le_refl _

theorem size_worklistMoves_freezeMoves_le (c : Coloring) (n : Nat) :
    (c.freezeMoves n).worklistMoves.size ≤ c.worklistMoves.size := by
  have hfold : ∀ (ms : List Nat) (c : Coloring),
      (ms.foldl (freezeMove n) c).worklistMoves.size ≤ c.worklistMoves.size := by
    intro ms
    induction ms with
    | nil => exact fun c => Nat.le_refl _
    | cons m ms ih =>
        intro c
        refine Nat.le_trans (ih _) ?_
        cases hm : c.moves[m]? with
        | none =>
            unfold freezeMove
            simp only [hm]
            exact Nat.le_refl _
        | some e =>
            rw [freezeMove_eq hm, worklistMoves_addWorkList]
            exact size_worklistMoves_frozen_le c m
  exact hfold _ c

/-! ## Progress -/

/-- A merge takes one node out of the graph. -/
theorem openCount_absorb {u v : Nat} (hlt : v < c.size) (hv : (c.state.get v).isOpen = true) :
    c.openCount = (c.absorb u v).openCount + 1
      ∧ (c.absorb u v).waitingCount ≤ c.waitingCount := by
  have hstate := (absorb_frame c u v).2.2.1
  have hopen := openCount_setState (s := .coalesced) hlt hv rfl
  have hwaiting := waitingCount_setState_le (c := c) (n := v) (s := .coalesced) (.inl rfl)
  simp only [openCount, waitingCount, nodes, size_setState, size_absorb, hstate] at hopen hwaiting ⊢
  exact ⟨hopen, hwaiting⟩

theorem Transition.moves_eq (h : Transition c d) : d.moves = c.moves := by
  cases h with
  | stay h => exact h.moves
  | remove n _ h => rw [h.moves, (setState_frame c n _).2.2.2.2.2.2.1]
  | merge u v _ h => rw [h.moves, (absorb_frame c u v).2.2.2.2.2.2.2.2]

/-- Less is left to do when a node leaves the graph. -/
theorem work_lt_of_openCount (hlists : Lists d) (hmoves : d.moves = c.moves)
    (hopen : c.openCount = d.openCount + 1) (hwaiting : d.waitingCount ≤ c.waitingCount) :
    d.work < c.work := by
  have hmax := size_worklistMoves_le hlists
  rw [hmoves] at hmax
  simp only [work, hmoves, hopen, Nat.mul_add, Nat.mul_one]
  omega

theorem Coherent.work_lt_coalesce {m : Nat} (h : Coherent c) (hm : m ∈ c.worklistMoves) :
    (c.coalesce m).work < c.work := by
  have hcoherent := h.coalesce hm
  have hstate := ((h.lists.worklistMoves m).1 hm).2
  obtain ⟨e, he⟩ := h.exists_move hm
  obtain ⟨u, v, huv⟩ : ∃ u v, c.mergeEnds e = (u, v) := ⟨_, _, rfl⟩
  -- without a merge the graph stays, and the move leaves the worklist
  have hstay : ∀ {d : Coloring}, SameGraph c d →
      d.worklistMoves.size < c.worklistMoves.size → d.work < c.work := by
    intro d hcd hlt
    have hwaiting := hcd.waitingCount_le
    simp only [work, hcd.openCount, hcd.moves]
    omega
  have hset := fun s => (SameNodes.setMoveState c m s).toSameGraph
  have hlt := fun s hs => size_worklistMoves_lt (s := s) hm hstate hs
  have hmoves := (h.transition_coalesce hm).moves_eq
  have hdecision := h.decision he (h.isLive_of_worklist hm) huv
  generalize c.coalesce m = d at hdecision hcoherent hmoves ⊢
  cases hdecision with
  | same =>
      refine hstay ((hset _).trans (.addWorkList _ u)) ?_
      rw [worklistMoves_addWorkList]
      exact hlt _ nofun
  | clash =>
      refine hstay (((hset _).trans (.addWorkList _ u)).trans (.addWorkList _ v)) ?_
      rw [worklistMoves_addWorkList, worklistMoves_addWorkList]
      exact hlt _ nofun
  | merge hmerge =>
      have hsame := (h.sameGraph_merge he huv hmerge.leaves).trans (.addWorkList _ u)
      have ⟨hopen, hwaiting⟩ := openCount_absorb (u := u) (h.lt_size_of_isListed hmerge.leaves)
        (NodeState.isOpen_of_isListed hmerge.leaves)
      refine work_lt_of_openCount hcoherent.lists hmoves ?_ ?_
      · rw [hsame.openCount]
        exact hopen
      · exact Nat.le_trans hsame.waitingCount_le hwaiting
  | wait => exact hstay (hset _) (hlt _ nofun)

/-- Giving up the moves of a node is progress, as the node waits no more. -/
theorem Coherent.work_lt_giveUp {n : Nat} (h : Coherent c)
    (hn : c.state.get n = .freeze ∨ c.state.get n = .spill) :
    ((c.setState n .simplify).freezeMoves n).work < c.work := by
  have hlt : n < c.size := h.lists.lt_size n (by rcases hn with hn | hn <;> rw [hn] <;> exact nofun)
  have hsame := SameGraph.giveUp hn
  have hwaiting := waitingCount_setState_simplify hlt hn
  have hle := (SameGraph.freezeMoves (c.setState n .simplify) n).waitingCount_le
  have hmoves := size_worklistMoves_freezeMoves_le (c.setState n .simplify) n
  rw [(setState_frame c n .simplify).2.2.2.2.2.2.2.2.2.2.1] at hmoves
  simp only [work, hsame.openCount, hsame.moves]
  omega

/-- Each step makes progress. -/
theorem Coherent.work_lt (h : Coherent c) (hstep : c.step? = some d) : d.work < c.work := by
  have hcoherent := h.step hstep
  have htransition := h.transition hstep
  cases step_of_step? hstep with
  | @simplify n hn =>
      have hstate := (h.lists.simplify n).1 (SortedSet.mem_of_min? hn)
      have hlt := h.lists.lt_size n (by rw [hstate]; exact nofun)
      have hsame := sameGraph_simplify c n
      refine work_lt_of_openCount hcoherent.lists htransition.moves_eq ?_ ?_
      · rw [hsame.openCount]
        exact openCount_setState hlt (by rw [hstate]; rfl) rfl
      · exact Nat.le_trans hsame.waitingCount_le (waitingCount_setState_le (.inl rfl))
  | coalesce _ hm => exact h.work_lt_coalesce (SortedSet.mem_of_min? hm)
  | freeze _ _ hn => exact h.work_lt_giveUp (.inl ((h.lists.freeze _).1 (SortedSet.mem_of_min? hn)))
  | selectSpill _ _ _ hns => exact h.work_lt_giveUp (.inr (h.state_bestSpill hns))

/-- What is left to do fits the limit of a run. -/
theorem work_le_stepLimit (h : Lists c) : c.work ≤ c.stepLimit := by
  have hopen : c.openCount ≤ c.size := by
    simpa [openCount, nodes] using List.countP_le_length (l := c.nodes)
      (p := fun n => (c.state.get n).isOpen)
  have hwaiting : c.waitingCount ≤ c.size := by
    simpa [waitingCount, nodes] using List.countP_le_length (l := c.nodes)
      (p := fun n => (c.state.get n).isOpen && c.state.get n ≠ .simplify)
  have hmoves := size_worklistMoves_le h
  have hmul := Nat.mul_le_mul_left (c.moves.size + 1) hopen
  calc
    c.work ≤ (c.moves.size + 1) * c.size + c.size + c.moves.size := by
          unfold work
          omega
    _ = c.size * (c.moves.size + 2) + c.moves.size := by
          rw [Nat.mul_comm, Nat.mul_add c.size c.moves.size 2, Nat.mul_add]
          omega
    _ ≤ c.stepLimit := by
          rw [stepLimit, Nat.add_mul]
          omega

end Coloring

end TreeCompiler
