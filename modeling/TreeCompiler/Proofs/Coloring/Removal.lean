import TreeCompiler.Proofs.Coloring.Changes

/-!
# Coloring removal — transitions that merge nothing

A node of the freeze or spill worklist gives up its moves (`Coherent.giveUp`), and a node without
moves leaves the graph (`Coherent.simplify`).  What holds of a node that leaves is stated for both
ways to leave, so that a merge can use it too.
-/

namespace TreeCompiler

namespace Coloring

variable {c d : Coloring} {pending : List Nat} {high loose : Nat → Prop}

/-! ## Giving up moves -/

/-- A node of the freeze or spill worklist becomes one without moves. -/
theorem Coherent.giveUp {n : Nat} (h : Coherent c)
    (hn : c.state.get n = .freeze ∨ c.state.get n = .spill) :
    Coherent ((c.setState n .simplify).freezeMoves n) := by
  have hlisted : (c.state.get n).isListed = true := by
    rcases hn with hn | hn <;> rw [hn] <;> rfl
  refine Invariant.freezeMoves (n := n) ?_ ?_
  · refine h.setState hlisted rfl (fun _ => rfl) nofun nofun ?_ (fun _ _ => id) ?_
    · intro _ hne
      exact absurd rfl hne
    · intro _ _ hf
      exact hf.elim
  · rw [state_setState, if_pos rfl]

theorem SameGraph.giveUp {n : Nat} (hn : c.state.get n = .freeze ∨ c.state.get n = .spill) :
    SameGraph c ((c.setState n .simplify).freezeMoves n) := by
  have hopen : (c.state.get n).isOpen = true := by
    rcases hn with hn | hn <;> rw [hn] <;> rfl
  exact (SameGraph.setState hopen rfl fun _ => rfl).trans (.freezeMoves _ n)

/-! ## Leaving the graph -/

theorem SameGraph.decrementDegree (c : Coloring) (t : Nat) : SameGraph c (c.decrementDegree t) := by
  by_cases ht : c.isPrecolored t = true
  · rw [decrementDegree_of_isPrecolored ht]
    exact .refl c
  · exact (decremented (by simpa using ht)).toSameGraph

theorem SameGraph.foldl_decrementDegree (ts : List Nat) (c : Coloring) :
    SameGraph c (ts.foldl Coloring.decrementDegree c) := by
  induction ts generalizing c with
  | nil => exact .refl c
  | cons t ts ih => exact (SameGraph.decrementDegree c t).trans (ih _)

/-- A node that leaves the graph leaves its neighbors pending. -/
theorem Degrees.remove {n : Nat} {s : NodeState} (hedges : Edges c) (h : Degrees c [])
    (hn : (c.state.get n).isOpen = true) (hs : s = .selectStack ∨ s = .coalesced) :
    Degrees (c.setState n s) (c.adjacent n) := by
  intro i hi
  rw [state_setState] at hi
  split at hi
  · rcases hs with rfl | rfl <;> cases hi
  · rename_i hin
    have hremoved : ∀ w, (c.setState n s).isRemoved w = if w = n then true else c.isRemoved w := by
      intro w
      simp only [isRemoved, state_setState]
      split
      · rcases hs with rfl | rfl <;> rfl
      · rfl
    have hcomm : i ∈ c.adjacent n ↔ n ∈ c.adjacent i := by
      rw [mem_adjacent, mem_adjacent, isRemoved_of_isOpen hi, isRemoved_of_isOpen hn,
        hedges.mem_neighbors_comm (isPrecolored_of_isOpen hn) (isPrecolored_of_isOpen hi)]
    -- the neighbors that are left are the old ones without `n`
    have hadjacent : (c.setState n s).adjacent i = (c.adjacent i).erase n := by
      rw [(hedges.nodup_adjacent i).erase_eq_filter]
      simp only [adjacent, (setState_frame c n s).2.2.2.1, List.filter_filter, hremoved]
      refine List.filter_congr fun w _ => ?_
      by_cases hw : w = n <;> simp [hw]
    rw [(setState_frame c n s).2.2.1, h i hi, hadjacent, if_neg List.not_mem_nil]
    by_cases hni : n ∈ c.adjacent i
    · rw [if_pos (hcomm.2 hni), List.length_erase_of_mem hni]
      have := List.length_pos_of_mem hni
      omega
    · rw [if_neg fun hmem => hni (hcomm.1 hmem), List.erase_of_not_mem hni]

theorem Edges.remove {n : Nat} {s : NodeState} (h : Edges c) (hn : (c.state.get n).isOpen = true)
    (hs : s = .selectStack ∨ s = .coalesced) : Edges (c.setState n s) := by
  have hpre : ∀ i, (c.setState n s).isPrecolored i = c.isPrecolored i := by
    intro i
    simp only [isPrecolored, state_setState]
    by_cases hi : i = n
    · have hnpre := isPrecolored_of_isOpen hn
      simp only [isPrecolored] at hnpre
      rcases hs with rfl | rfl <;> simp [hi, hnpre]
    · simp [hi]
  refine ⟨?_, ?_, ?_, ?_, ?_⟩
  · simpa using @h.symm
  · simpa using h.irrefl
  · simpa using @h.lt_size
  · simpa [hpre] using @h.mem_neighbors
  · simpa using h.nodup

theorem Sorted.remove {n : Nat} {s : NodeState} (h : Sorted c high loose)
    (hs : s = .selectStack ∨ s = .coalesced)
    (hidle : s = .selectStack → c.isMoveRelated n = false) :
    Sorted (c.setState n s) high loose := by
  refine ⟨?_, ?_, ?_, ?_⟩ <;> intro i hi <;> rw [state_setState] at hi
  · split at hi
    · rcases hs with rfl | rfl <;> cases hi
    · simpa using h.spill i hi
  · split at hi
    · rcases hs with rfl | rfl <;> cases hi
    · simpa using h.freeze_degree i hi
  · rw [isMoveRelated_setState]
    split at hi
    · rcases hs with rfl | rfl <;> cases hi
    · exact h.freeze_moves i hi
  · rw [isMoveRelated_setState]
    split at hi
    · rename_i hin
      rcases hs with rfl | rfl
      · intro _
        exact hin ▸ hidle rfl
      · rcases hi with hi | hi <;> cases hi
    · exact h.no_moves i hi

theorem Working.remove {n : Nat} {s : NodeState} (h : Working c)
    (hs : s = .selectStack ∨ s = .coalesced) : Working (c.setState n s) := by
  refine ⟨?_, ?_⟩
  · intro i hi
    rw [state_setState]
    split
    · rcases hs with rfl | rfl <;> exact nofun
    · exact h.sorted i (by simpa using hi)
  · intro i
    rw [state_setState]
    split
    · rcases hs with rfl | rfl <;> exact ⟨nofun, nofun⟩
    · exact h.uncolored i

/-- A node without moves leaves the graph. -/
theorem Coherent.push {n : Nat} (h : Coherent c) (hn : c.state.get n = .simplify) :
    Invariant (c.setState n .selectStack) (c.adjacent n) (fun _ => False) (fun _ => False) := by
  have hopen : (c.state.get n).isOpen = true := by rw [hn]; rfl
  have hcoal : c.state.get n ≠ .coalesced := by rw [hn]; exact nofun
  have hlt : n < c.size := h.lists.lt_size n (by rw [hn]; exact nofun)
  have hrep := fun i => representative_setState hcoal (s := .selectStack) nofun i
  have hmoves : MoveLists (c.setState n .selectStack) := by
    refine { lt_size := ?lt_size, owner := ?owner, listed := ?listed }
    case lt_size => simpa using @h.moves.lt_size
    case owner =>
      intro i m x y hm hi hxy
      rw [hrep, hrep]
      refine h.moves.owner (by simpa using hm) ?_ (by simpa using hxy)
      rw [state_setState] at hi
      split at hi
      · rename_i hin
        exact hin ▸ hcoal
      · exact hi
    case listed =>
      intro m x y hxy
      rw [hrep, hrep]
      simpa using h.moves.listed (by simpa using hxy)
  exact ⟨h.lists.setState_of_isOpen hlt hopen, h.edges.remove hopen (.inl rfl),
    h.degrees.remove h.edges hopen (.inl rfl),
    h.sorted.remove (.inl rfl) fun _ => h.sorted.no_moves n (.inl hn) id, hmoves,
    aliases_setState hcoal nofun h.aliases, h.working.remove (.inl rfl)⟩

/-- A node is no neighbor of itself, so leaving the graph changes none of its neighbors. -/
theorem Coherent.adjacent_push {n : Nat} (h : Coherent c) (hn : c.state.get n = .simplify) :
    (c.setState n .selectStack).adjacent n = c.adjacent n := by
  have hself : n ∉ c.neighbors.get n := by
    rw [h.edges.mem_neighbors (isPrecolored_of_isOpen (by rw [hn]; rfl))]
    exact h.edges.irrefl n
  simp only [adjacent, setState_frame]
  refine List.filter_congr fun w hw => ?_
  have hwn : w ≠ n := fun e => hself (e ▸ hw)
  simp [isRemoved, state_setState, hwn]

theorem Coherent.simplify_eq {n : Nat} (h : Coherent c) (hn : c.state.get n = .simplify) :
    c.simplify n = (c.adjacent n).foldl Coloring.decrementDegree (c.setState n .selectStack) := by
  rw [← h.adjacent_push hn]
  rfl

theorem Coherent.simplify {n : Nat} (h : Coherent c) (hn : c.state.get n = .simplify) :
    Coherent (c.simplify n) := by
  rw [h.simplify_eq hn]
  exact h.push hn |>.foldl_decrementDegree (h.edges.nodup_adjacent n)

theorem sameGraph_simplify (c : Coloring) (n : Nat) :
    SameGraph (c.setState n .selectStack) (c.simplify n) :=
  .foldl_decrementDegree _ _

end Coloring

end TreeCompiler
