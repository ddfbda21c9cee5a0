import TreeCompiler.Proofs.Coloring.Alias
import TreeCompiler.Proofs.Coloring.Worklists

/-!
# Coloring invariant — what holds between two transitions

The invariant has parts of its own for the lists, the edges, the degrees, the sorting of nodes into
worklists and the moves.  A transition is made of small changes, and some of them break a part for a
while, so the invariant is stated with its exceptions (`Invariant c pending high loose`):

- the nodes of `pending` have not been told yet that a neighbor left the graph;
- the degree of a `high` node may not fit its worklist;
- the moves of a `loose` node may not fit its list.

Between two transitions there are none (`Coherent`).
-/

namespace TreeCompiler

namespace Coloring

variable {c d : Coloring}

/-! ## Parts -/

/-- The edges go both ways, and the neighbors of a node that is no register are the other ends. -/
structure Edges (c : Coloring) : Prop where
  symm : ∀ {a b}, b ∈ c.edges.get a → a ∈ c.edges.get b
  irrefl : ∀ a, a ∉ c.edges.get a
  lt_size : ∀ {a b}, b ∈ c.edges.get a → b < c.size
  mem_neighbors : ∀ {a b}, c.isPrecolored a = false →
    (b ∈ c.neighbors.get a ↔ b ∈ c.edges.get a)
  nodup : ∀ a, (c.neighbors.get a).Nodup

/-- The degree of a node counts its neighbors in the graph, and one more if it is pending. -/
def Degrees (c : Coloring) (pending : List Nat) : Prop :=
  ∀ n, (c.state.get n).isOpen = true →
    c.degree.get n = (c.adjacent n).length + if n ∈ pending then 1 else 0

/-- Nodes are in the worklists that their degrees and moves ask for. -/
structure Sorted (c : Coloring) (high loose : Nat → Prop) : Prop where
  spill : ∀ n, c.state.get n = .spill → c.k ≤ c.degree.get n
  freeze_degree : ∀ n, c.state.get n = .freeze → ¬ high n → c.degree.get n < c.k
  freeze_moves : ∀ n, c.state.get n = .freeze → ¬ loose n → c.isMoveRelated n = true
  no_moves : ∀ n, c.state.get n = .simplify ∨ c.state.get n = .selectStack → ¬ loose n →
    c.isMoveRelated n = false

/-- A node lists the moves whose ends it stands for. -/
structure MoveLists (c : Coloring) : Prop where
  lt_size : ∀ {n m}, m ∈ c.moveList.get n → n < c.size ∧ m < c.moves.size
  owner : ∀ {n m x y}, m ∈ c.moveList.get n → c.state.get n ≠ .coalesced →
    c.moves[m]? = some (x, y) → n = c.representative x ∨ n = c.representative y
  listed : ∀ {m x y}, c.moves[m]? = some (x, y) →
    m ∈ c.moveList.get (c.representative x) ∧ m ∈ c.moveList.get (c.representative y)

/-- All nodes were sorted, and none has a new color yet. -/
structure Working (c : Coloring) : Prop where
  sorted : ∀ n, n < c.size → c.state.get n ≠ .initial
  uncolored : ∀ n, c.state.get n ≠ .colored ∧ c.state.get n ≠ .spilled

structure Invariant (c : Coloring) (pending : List Nat) (high loose : Nat → Prop) : Prop where
  lists : Lists c
  edges : Edges c
  degrees : Degrees c pending
  sorted : Sorted c high loose
  moves : MoveLists c
  aliases : Aliases c
  working : Working c

/-- The invariant without exceptions. -/
abbrev Coherent (c : Coloring) : Prop := Invariant c [] (fun _ => False) (fun _ => False)

/-! ## Reading the parts -/

theorem isPrecolored_iff {n : Nat} : c.isPrecolored n = true ↔ c.state.get n = .precolored := by
  simp [isPrecolored]

theorem isPrecolored_of_isOpen {n : Nat} (h : (c.state.get n).isOpen = true) :
    c.isPrecolored n = false := by
  cases hs : c.state.get n <;> simp_all [isPrecolored, NodeState.isOpen, NodeState.isListed]

theorem isRemoved_of_isOpen {n : Nat} (h : (c.state.get n).isOpen = true) :
    c.isRemoved n = false := by
  cases hs : c.state.get n <;> simp_all [isRemoved, NodeState.isOpen, NodeState.isListed]

theorem mem_adjacent {n w : Nat} :
    w ∈ c.adjacent n ↔ w ∈ c.neighbors.get n ∧ c.isRemoved w = false := by
  simp [adjacent]

theorem isMoveRelated_iff {n : Nat} :
    c.isMoveRelated n = true ↔ ∃ m ∈ c.moveList.get n, c.isLive m = true := by
  simp [isMoveRelated]

theorem isMoveRelated_congr {n : Nat} (hlist : d.moveList.get n = c.moveList.get n)
    (hlive : ∀ m ∈ c.moveList.get n, d.isLive m = c.isLive m) :
    d.isMoveRelated n = c.isMoveRelated n := by
  rw [Bool.eq_iff_iff, isMoveRelated_iff, isMoveRelated_iff, hlist]
  constructor
  · rintro ⟨m, hm, hl⟩
    exact ⟨m, hm, hlive m hm ▸ hl⟩
  · rintro ⟨m, hm, hl⟩
    exact ⟨m, hm, (hlive m hm).trans hl⟩

theorem isMoveRelated_setState (c : Coloring) (n i : Nat) (s : NodeState) :
    (c.setState n s).isMoveRelated i = c.isMoveRelated i := by
  refine isMoveRelated_congr (by simp) fun m _ => ?_
  simp [isLive]

/-- A node whose state changes has to be sorted; exceptions may be added for other nodes. -/
theorem Sorted.setState {u : Nat} {s : NodeState} {high loose high' loose' : Nat → Prop}
    (h : Sorted c high loose) (hlisted : s.isListed = true)
    (hspill : s = .spill → c.k ≤ c.degree.get u)
    (hfreeze : s = .freeze → c.degree.get u < c.k ∧ c.isMoveRelated u = true)
    (hidle : s = .simplify → ¬ loose' u → c.isMoveRelated u = false)
    (hhigh : ∀ n, n ≠ u → high n → high' n) (hloose : ∀ n, n ≠ u → loose n → loose' n) :
    Sorted (c.setState u s) high' loose' where
  spill n hn := by
    rw [state_setState] at hn
    simp only [setState_frame]
    split at hn
    · rename_i hnu
      exact hnu ▸ hspill hn
    · exact h.spill n hn
  freeze_degree n hn hne := by
    rw [state_setState] at hn
    simp only [setState_frame]
    split at hn
    · rename_i hnu
      exact hnu ▸ (hfreeze hn).1
    · rename_i hnu
      exact h.freeze_degree n hn fun hh => hne (hhigh n hnu hh)
  freeze_moves n hn hne := by
    rw [state_setState] at hn
    rw [isMoveRelated_setState]
    split at hn
    · rename_i hnu
      exact hnu ▸ (hfreeze hn).2
    · rename_i hnu
      exact h.freeze_moves n hn fun hl => hne (hloose n hnu hl)
  no_moves n hn hne := by
    rw [state_setState] at hn
    rw [isMoveRelated_setState]
    split at hn
    · rename_i hnu
      subst hnu
      rcases hn with hn | hn
      · exact hidle hn hne
      · -- the stack is no worklist
        rw [hn] at hlisted
        cases hlisted
    · rename_i hnu
      exact h.no_moves n hn fun hl => hne (hloose n hnu hl)

theorem Edges.nodup_adjacent (h : Edges c) (n : Nat) : (c.adjacent n).Nodup :=
  (h.nodup n).filter _

/-- Being neighbors goes both ways between nodes that are no registers. -/
theorem Edges.mem_neighbors_comm (h : Edges c) {a b : Nat} (ha : c.isPrecolored a = false)
    (hb : c.isPrecolored b = false) : b ∈ c.neighbors.get a ↔ a ∈ c.neighbors.get b := by
  rw [h.mem_neighbors ha, h.mem_neighbors hb]
  exact ⟨h.symm, h.symm⟩

/-- A node in the graph that is no register is in a worklist. -/
theorem Working.isListed (h : Working c) {n : Nat} (hlt : n < c.size)
    (hpre : c.isPrecolored n = false) (hrem : c.isRemoved n = false) :
    (c.state.get n).isListed = true := by
  have h₁ := h.sorted n hlt
  have h₂ := h.uncolored n
  cases hs : c.state.get n <;> simp_all [isPrecolored, isRemoved, NodeState.isListed]

/-! ## Parts that belong to the graph -/

theorem SameGraph.edges_part (hcd : SameGraph c d) (h : Edges c) : Edges d where
  symm := by
    intro a b hb
    rw [hcd.edges] at hb ⊢
    exact h.symm hb
  irrefl := by
    intro a
    rw [hcd.edges]
    exact h.irrefl a
  lt_size := by
    intro a b hb
    rw [hcd.edges] at hb
    rw [hcd.size]
    exact h.lt_size hb
  mem_neighbors := by
    intro a b ha
    rw [hcd.isPrecolored] at ha
    rw [hcd.neighbors, hcd.edges]
    exact h.mem_neighbors ha
  nodup := by
    intro a
    rw [hcd.neighbors]
    exact h.nodup a

theorem SameGraph.moves_part (hcd : SameGraph c d) (h : MoveLists c) : MoveLists d where
  lt_size := by
    intro n m hm
    rw [hcd.moveList] at hm
    rw [hcd.size, hcd.moves]
    exact h.lt_size hm
  owner := by
    intro n m x y hm hn hxy
    rw [hcd.moveList] at hm
    rw [hcd.moves] at hxy
    rw [hcd.representative, hcd.representative]
    refine h.owner hm ?_ hxy
    intro hc
    exact hn ((hcd.state_iff rfl).2 hc)
  listed := by
    intro m x y hxy
    rw [hcd.moves] at hxy
    rw [hcd.representative, hcd.representative, hcd.moveList]
    exact h.listed hxy

theorem SameGraph.working_part (hcd : SameGraph c d) (h : Working c) : Working d where
  sorted := by
    intro n hn
    rw [hcd.size] at hn
    rcases hcd.state n with hs | ⟨_, hs⟩
    · rw [hs]
      exact h.sorted n hn
    · intro e
      rw [e] at hs
      cases hs
  uncolored := by
    intro n
    rw [ne_eq, ne_eq, hcd.state_iff (s := .colored) rfl, hcd.state_iff (s := .spilled) rfl]
    exact h.uncolored n

/-- Within the same graph only lists, degrees and sorting have to be looked at. -/
theorem Invariant.of_sameGraph {pending pending' : List Nat} {high high' loose loose' : Nat → Prop}
    (h : Invariant c pending high loose) (hcd : SameGraph c d) (hlists : Lists d)
    (hdegrees : Degrees d pending') (hsorted : Sorted d high' loose') :
    Invariant d pending' high' loose' :=
  ⟨hlists, hcd.edges_part h.edges, hdegrees, hsorted, hcd.moves_part h.moves,
    hcd.aliases h.aliases, hcd.working_part h.working⟩

theorem SameGraph.degrees_part {pending : List Nat} (hcd : SameGraph c d)
    (hdegree : d.degree = c.degree) (h : Degrees c pending) : Degrees d pending := by
  intro n hn
  rw [hcd.isOpen] at hn
  rw [hdegree, hcd.adjacent]
  exact h n hn

/-- Where only buckets of moves differ, it is enough that each node has moves left as before. -/
theorem Invariant.of_sameNodes {pending : List Nat} {high loose : Nat → Prop}
    (h : Invariant c pending high loose) (hcd : SameNodes c d) (hlists : Lists d)
    (hrelated : ∀ n, d.isMoveRelated n = c.isMoveRelated n) : Invariant d pending high loose := by
  refine h.of_sameGraph hcd.toSameGraph hlists (hcd.degrees_part hcd.degree h.degrees)
    ⟨?_, ?_, ?_, ?_⟩
  all_goals
    simp only [hcd.states, hcd.degree, hcd.k, hrelated]
  · exact h.sorted.spill
  · exact h.sorted.freeze_degree
  · exact h.sorted.freeze_moves
  · exact h.sorted.no_moves

end Coloring

end TreeCompiler
