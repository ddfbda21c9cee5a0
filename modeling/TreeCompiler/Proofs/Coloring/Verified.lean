import TreeCompiler.Proofs.Counting
import TreeCompiler.Proofs.Coloring.Start

/-!
# Coloring verified — when the check of a state succeeds

`Verified c` says in terms of nodes, moves and edges what the check of a state looks for: the lists
hold exactly the nodes and moves of their state, and the degree of each node in a worklist is the
number of its neighbors in the graph and fits the worklist.  The check succeeds on such a state
(`Verified.verify`), and both a start and a coherent state are of this kind.
-/

namespace TreeCompiler

namespace Coloring

variable {c : Coloring} {n : Nat}

/-- How many of the nodes that share an edge with a node are still in the graph. -/
def graphDegree (c : Coloring) (n : Nat) : Nat :=
  c.nodes.countP fun w => c.hasEdge n w && c.isInGraph w

structure Verified (c : Coloring) : Prop extends Lists c where
  edges : Edges c
  degree : ∀ n, (c.state.get n).isListed = true → c.degree.get n = c.graphDegree n
  spill_degree : ∀ n, c.state.get n = .spill → c.k ≤ c.degree.get n
  freeze_degree : ∀ n, c.state.get n = .freeze → c.degree.get n < c.k
  freeze_moves : ∀ n, c.state.get n = .freeze → c.isMoveRelated n = true

/-! ## The parts of the check -/

theorem listAgrees_of_iff {s : NodeState} {l : List Nat} (hl : l.Nodup)
    (h : ∀ n, n ∈ l ↔ c.state.get n = s) (hlt : ∀ n, c.state.get n = s → n < c.size) :
    c.listAgrees s l = true := by
  have hlength : l.length = c.nodes.countP (fun n => c.state.get n = s) := by
    refine length_eq_countP_range hl fun n => ?_
    rw [h n, decide_eq_true_eq]
    exact ⟨fun e => ⟨hlt n e, e⟩, fun e => e.2⟩
  have hall : l.all (fun n => c.state.get n = s) = true :=
    List.all_eq_true.2 fun n hn => decide_eq_true ((h n).1 hn)
  simp [listAgrees, hlength, hall]

theorem movesAgree_of_iff {s : MoveState} {l : List Nat} (hl : l.Nodup)
    (h : ∀ m, m ∈ l ↔ m < c.moves.size ∧ c.moveState.get m = s) : c.movesAgree s l = true := by
  have hlength : l.length = (List.range c.moves.size).countP (fun m => c.moveState.get m = s) := by
    refine length_eq_countP_range hl fun m => ?_
    rw [h m, decide_eq_true_eq]
  have hall : l.all (fun m => c.moveState.get m = s) = true :=
    List.all_eq_true.2 fun m hm => decide_eq_true ((h m).1 hm).2
  simp [movesAgree, hlength, hall]

/-- The neighbor list of a node counts what the edges count. -/
theorem Edges.countP_neighbors (h : Edges c) (hn : c.isPrecolored n = false) :
    (c.neighbors.get n).countP c.isInGraph = c.graphDegree n := by
  rw [List.countP_eq_length_filter]
  refine length_eq_countP_range ((h.nodup n).filter _) fun w => ?_
  rw [List.mem_filter, h.mem_neighbors hn, Bool.and_eq_true, hasEdge, SortedSet.contains_iff]
  constructor
  · rintro ⟨hw, hin⟩
    exact ⟨h.lt_size hw, hw, hin⟩
  · rintro ⟨_, hw, hin⟩
    exact ⟨hw, hin⟩

theorem Verified.verifyNode (h : Verified c) (n : Nat) : c.verifyNode n = .ok () := by
  unfold Coloring.verifyNode
  dsimp only
  split
  · -- the node is on a worklist, and each of the three checks finds what holds there
    rename_i hs
    have hlisted : (c.state.get n).isListed = true := by
      simp only [List.mem_cons, List.not_mem_nil, or_false] at hs
      rcases hs with hs | hs | hs <;> rw [hs] <;> rfl
    have hpre := isPrecolored_of_isOpen (NodeState.isOpen_of_isListed hlisted)
    have hdegree : (c.neighbors.get n).countP c.isInGraph = c.degree.get n := by
      rw [h.edges.countP_neighbors hpre, h.degree n hlisted]
    have hspill : (!(c.state.get n = .spill && c.degree.get n < c.k)) = true := by
      by_cases hf : c.state.get n = .spill
      · have hk := h.spill_degree n hf
        simp [hk]
      · simp [hf]
    have hfreeze : (!(c.state.get n = .freeze && (c.k ≤ c.degree.get n || !c.isMoveRelated n)))
        = true := by
      by_cases hf : c.state.get n = .freeze
      · have hk := h.freeze_degree n hf
        have hm := h.freeze_moves n hf
        simp [hk, hm]
      · simp [hf]
    rw [hdegree, hspill, hfreeze]
    simp [ensure, bind, Except.bind]
  · rfl

theorem Verified.verifyNodes (h : Verified c) (ns : List Nat) : c.verifyNodes ns = .ok () := by
  induction ns with
  | nil => rfl
  | cons n ns ih =>
      simp only [Coloring.verifyNodes, h.verifyNode n]
      exact ih

/-- The check succeeds. -/
theorem Verified.verify (h : Verified c) : c.verify = .ok () := by
  have hlt : ∀ {s}, s ≠ .initial → ∀ n, c.state.get n = s → n < c.size :=
    fun hs n e => h.lt_size n (e ▸ hs)
  have h₁ := listAgrees_of_iff (SortedSet.nodup _) h.simplify (hlt nofun)
  have h₂ := listAgrees_of_iff (SortedSet.nodup _) h.freeze (hlt nofun)
  have h₃ := listAgrees_of_iff (SortedSet.nodup _) h.spill (hlt nofun)
  have h₄ := listAgrees_of_iff h.nodup h.select (hlt nofun)
  have h₅ := movesAgree_of_iff (SortedSet.nodup _) h.worklistMoves
  have h₆ := movesAgree_of_iff (SortedSet.nodup _) h.activeMoves
  unfold Coloring.verify
  rw [h₁, h₂, h₃, h₄, h₅, h₆, h.verifyNodes]
  rfl

theorem Verified.check (h : Verified c) : c.check = .ok () := by
  unfold Coloring.check
  split
  · exact h.verify
  · rfl

/-! ## States that can be verified -/

/-- Only the lists count where no node is in a worklist. -/
theorem verified_of_not_listed (hlists : Lists c) (hedges : Edges c)
    (h : ∀ n, (c.state.get n).isListed = false) : Verified c := by
  have hnot : ∀ {n s}, s.isListed = true → c.state.get n ≠ s := by
    intro n s hs e
    rw [← e, h n] at hs
    cases hs
  refine ⟨hlists, hedges, ?_, ?_, ?_, ?_⟩
  · intro n hn
    rw [h n] at hn
    cases hn
  · intro n hn
    exact absurd hn (hnot rfl)
  · intro n hn
    exact absurd hn (hnot rfl)
  · intro n hn
    exact absurd hn (hnot rfl)

theorem Start.verified (h : Start c) : Verified c := by
  refine verified_of_not_listed h.lists h.edges fun n => ?_
  rcases h.fresh n with e | e <;> rw [e] <;> rfl

/-- In the graph is what was not taken out of it. -/
theorem Working.isInGraph (h : Working c) (hlt : n < c.size) :
    c.isInGraph n = !c.isRemoved n := by
  have h₁ := h.sorted n hlt
  have h₂ := h.uncolored n
  cases hs : c.state.get n <;> simp_all [Coloring.isInGraph, isRemoved]

theorem Coherent.verified (h : Coherent c) : Verified c where
  toLists := h.lists
  edges := h.edges
  degree := by
    intro n hn
    have hopen := NodeState.isOpen_of_isListed hn
    rw [h.degrees n hopen, if_neg List.not_mem_nil]
    refine length_eq_countP_range (h.edges.nodup_adjacent n) fun w => ?_
    rw [mem_adjacent, h.edges.mem_neighbors (isPrecolored_of_isOpen hopen), Bool.and_eq_true,
      hasEdge, SortedSet.contains_iff]
    constructor
    · rintro ⟨hw, hrem⟩
      have hlt := h.edges.lt_size hw
      refine ⟨hlt, hw, ?_⟩
      rw [h.working.isInGraph hlt, hrem]
      rfl
    · rintro ⟨hlt, hw, hin⟩
      rw [h.working.isInGraph hlt] at hin
      exact ⟨hw, by simpa using hin⟩
  spill_degree := h.sorted.spill
  freeze_degree := fun n hn => h.sorted.freeze_degree n hn id
  freeze_moves := fun n hn => h.sorted.freeze_moves n hn id

end Coloring

end TreeCompiler
