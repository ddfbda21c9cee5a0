import TreeCompiler.Coloring.Run

/-!
# Coloring frame — what the functions on the coloring state leave alone

Each function changes a few fields of the state.  This module says which ones stay, so that no later
proof has to open a function to see it.

* `setState_frame`, `setMoveState_frame` : the fields that stay, as rewrite rules;
* `SameGraph c d` : `d` has the graph of `c`, the same nodes taken out of it and the same merges,
and differs at most in degrees, in buckets of moves and in the worklist that a node is in;
* `SameNodes c d` : `d` differs from `c` in buckets of moves only.
-/

namespace TreeCompiler

/-! ## Kinds of node states -/

namespace NodeState

/-- In one of the three node worklists. -/
def isListed : NodeState → Bool
  | .simplify | .freeze | .spill => true
  | _ => false

/-- In the graph, and no register. -/
def isOpen : NodeState → Bool
  | .initial => true
  | s => s.isListed

theorem isOpen_of_isListed {s : NodeState} (h : s.isListed = true) : s.isOpen = true := by
  cases s <;> simp_all [isListed, isOpen]

end NodeState

namespace Coloring

variable {c d e : Coloring}

/-! ## Changing one state or bucket -/

@[simp] theorem setState_frame (c : Coloring) (n : Nat) (s : NodeState) :
    (c.setState n s).k = c.k ∧ (c.setState n s).temps = c.temps
      ∧ (c.setState n s).degree = c.degree ∧ (c.setState n s).neighbors = c.neighbors
      ∧ (c.setState n s).edges = c.edges ∧ (c.setState n s).moveList = c.moveList
      ∧ (c.setState n s).moves = c.moves ∧ (c.setState n s).moveState = c.moveState
      ∧ (c.setState n s).mergedInto = c.mergedInto ∧ (c.setState n s).color = c.color
      ∧ (c.setState n s).worklistMoves = c.worklistMoves
      ∧ (c.setState n s).activeMoves = c.activeMoves ∧ (c.setState n s).avoid = c.avoid
      ∧ (c.setState n s).checkInvariants = c.checkInvariants := by
  unfold setState leaveList enterList
  split <;> split <;> simp

@[simp] theorem setMoveState_frame (c : Coloring) (m : Nat) (s : MoveState) :
    (c.setMoveState m s).k = c.k ∧ (c.setMoveState m s).temps = c.temps
      ∧ (c.setMoveState m s).state = c.state
      ∧ (c.setMoveState m s).degree = c.degree ∧ (c.setMoveState m s).neighbors = c.neighbors
      ∧ (c.setMoveState m s).edges = c.edges ∧ (c.setMoveState m s).moveList = c.moveList
      ∧ (c.setMoveState m s).moves = c.moves
      ∧ (c.setMoveState m s).mergedInto = c.mergedInto ∧ (c.setMoveState m s).color = c.color
      ∧ (c.setMoveState m s).simplifyWorklist = c.simplifyWorklist
      ∧ (c.setMoveState m s).freezeWorklist = c.freezeWorklist
      ∧ (c.setMoveState m s).spillWorklist = c.spillWorklist
      ∧ (c.setMoveState m s).selectStack = c.selectStack ∧ (c.setMoveState m s).avoid = c.avoid
      ∧ (c.setMoveState m s).checkInvariants = c.checkInvariants := by
  unfold setMoveState leaveMoves enterMoves
  split <;> split <;> simp

@[simp] theorem size_setState (c : Coloring) (n : Nat) (s : NodeState) :
    (c.setState n s).size = c.size := by
  simp [size]

/-- A node that is not on the select stack and does not go there leaves it alone. -/
theorem selectStack_setState {n : Nat} {s : NodeState} (hc : c.state.get n ≠ .selectStack)
    (hs : s ≠ .selectStack) : (c.setState n s).selectStack = c.selectStack := by
  unfold setState leaveList enterList
  split <;> split <;> simp_all

/-- A node put on the select stack is on top of it. -/
theorem selectStack_push {n : Nat} (hc : c.state.get n ≠ .selectStack) :
    (c.setState n .selectStack).selectStack = n :: c.selectStack := by
  unfold setState leaveList enterList
  cases h : c.state.get n <;> simp_all

/-- Only merges matter for the node that stands for a node. -/
theorem representativeWithin_congr
    (hstate : ∀ n, d.state.get n = .coalesced ↔ c.state.get n = .coalesced)
    (hinto : d.mergedInto = c.mergedInto) (steps n : Nat) :
    d.representativeWithin steps n = c.representativeWithin steps n := by
  induction steps generalizing n with
  | zero => rfl
  | succ steps ih => simp only [representativeWithin, hstate, hinto, ih]

/-! ## Changes that keep the graph -/

/-- The same graph and the same merges; nodes may have moved between worklists, but none that was
ready to be simplified. -/
structure SameGraph (c d : Coloring) : Prop where
  k : d.k = c.k
  temps : d.temps = c.temps
  neighbors : d.neighbors = c.neighbors
  edges : d.edges = c.edges
  moveList : d.moveList = c.moveList
  moves : d.moves = c.moves
  mergedInto : d.mergedInto = c.mergedInto
  color : d.color = c.color
  selectStack : d.selectStack = c.selectStack
  avoid : d.avoid = c.avoid
  checkInvariants : d.checkInvariants = c.checkInvariants
  state : ∀ n, d.state.get n = c.state.get n ∨
    ((c.state.get n).isOpen = true ∧ (d.state.get n).isListed = true)
  simplify : ∀ n, c.state.get n = .simplify → d.state.get n = .simplify

namespace SameGraph

theorem refl (c : Coloring) : SameGraph c c :=
  ⟨rfl, rfl, rfl, rfl, rfl, rfl, rfl, rfl, rfl, rfl, rfl, fun _ => .inl rfl, fun _ h => h⟩

theorem trans (h : SameGraph c d) (h' : SameGraph d e) : SameGraph c e where
  k := h'.k.trans h.k
  temps := h'.temps.trans h.temps
  neighbors := h'.neighbors.trans h.neighbors
  edges := h'.edges.trans h.edges
  moveList := h'.moveList.trans h.moveList
  moves := h'.moves.trans h.moves
  mergedInto := h'.mergedInto.trans h.mergedInto
  color := h'.color.trans h.color
  selectStack := h'.selectStack.trans h.selectStack
  avoid := h'.avoid.trans h.avoid
  checkInvariants := h'.checkInvariants.trans h.checkInvariants
  state := by
    intro n
    rcases h.state n with h₁ | ⟨h₁, h₂⟩
    · rw [← h₁]
      exact h'.state n
    · rcases h'.state n with h₃ | ⟨_, h₃⟩
      · exact .inr ⟨h₁, h₃ ▸ h₂⟩
      · exact .inr ⟨h₁, h₃⟩
  simplify := fun n hn => h'.simplify n (h.simplify n hn)

theorem size (h : SameGraph c d) : d.size = c.size := by
  simp [Coloring.size, h.temps]

theorem nodes (h : SameGraph c d) : d.nodes = c.nodes := by
  simp [Coloring.nodes, h.size]

theorem isOpen (h : SameGraph c d) (n : Nat) :
    (d.state.get n).isOpen = (c.state.get n).isOpen := by
  rcases h.state n with hn | ⟨hc, hd⟩
  · rw [hn]
  · rw [hc, NodeState.isOpen_of_isListed hd]

/-- States that are not open stay as they are. -/
theorem state_iff (h : SameGraph c d) {n : Nat} {s : NodeState} (hs : s.isOpen = false) :
    d.state.get n = s ↔ c.state.get n = s := by
  rcases h.state n with hn | ⟨hc, hd⟩
  · rw [hn]
  · have hd' := NodeState.isOpen_of_isListed hd
    constructor
    · intro hs'
      rw [hs', hs] at hd'
      cases hd'
    · intro hs'
      rw [hs', hs] at hc
      cases hc

theorem isPrecolored (h : SameGraph c d) (n : Nat) : d.isPrecolored n = c.isPrecolored n := by
  simp only [Coloring.isPrecolored, h.state_iff (s := .precolored) rfl]

theorem isRemoved (h : SameGraph c d) (n : Nat) : d.isRemoved n = c.isRemoved n := by
  simp only [Coloring.isRemoved, h.state_iff (s := .selectStack) rfl,
    h.state_iff (s := .coalesced) rfl]

theorem adjacent (h : SameGraph c d) (n : Nat) : d.adjacent n = c.adjacent n := by
  simp only [Coloring.adjacent, h.neighbors, h.isRemoved]

theorem hasEdge (h : SameGraph c d) (a b : Nat) : d.hasEdge a b = c.hasEdge a b := by
  simp only [Coloring.hasEdge, h.edges]

theorem representativeWithin (h : SameGraph c d) (steps n : Nat) :
    d.representativeWithin steps n = c.representativeWithin steps n :=
  representativeWithin_congr (fun _ => h.state_iff rfl) h.mergedInto steps n

theorem representative (h : SameGraph c d) (n : Nat) : d.representative n = c.representative n := by
  simp only [Coloring.representative, h.size, h.representativeWithin]

/-- A node moves from the graph to a worklist. -/
theorem setState {n : Nat} {s : NodeState} (hopen : (c.state.get n).isOpen = true)
    (hlisted : s.isListed = true) (hsimplify : c.state.get n = .simplify → s = .simplify) :
    SameGraph c (c.setState n s) where
  k := by simp
  temps := by simp
  neighbors := by simp
  edges := by simp
  moveList := by simp
  moves := by simp
  mergedInto := by simp
  color := by simp
  selectStack := by
    refine selectStack_setState ?_ ?_
    · intro hn
      rw [hn] at hopen
      cases hopen
    · rintro rfl
      cases hlisted
  avoid := by simp
  checkInvariants := by simp
  state := by
    intro i
    rw [state_setState]
    split
    · rename_i hi
      exact .inr ⟨hi ▸ hopen, hlisted⟩
    · exact .inl rfl
  simplify := by
    intro i hi
    rw [state_setState]
    split
    · rename_i hin
      exact hsimplify (hin ▸ hi)
    · exact hi

/-- Degrees do not belong to the graph. -/
theorem setDegree (c : Coloring) (degree : Table Nat) : SameGraph c { c with degree } :=
  ⟨rfl, rfl, rfl, rfl, rfl, rfl, rfl, rfl, rfl, rfl, rfl, fun _ => .inl rfl, fun _ h => h⟩

end SameGraph

/-! ## Changes of move buckets -/

/-- Only buckets of moves differ. -/
structure SameNodes (c d : Coloring) : Prop extends SameGraph c d where
  degree : d.degree = c.degree
  states : d.state = c.state

namespace SameNodes

theorem refl (c : Coloring) : SameNodes c c := ⟨.refl c, rfl, rfl⟩

theorem trans (h : SameNodes c d) (h' : SameNodes d e) : SameNodes c e :=
  ⟨h.toSameGraph.trans h'.toSameGraph, h'.degree.trans h.degree, h'.states.trans h.states⟩

theorem setMoveState (c : Coloring) (m : Nat) (s : MoveState) :
    SameNodes c (c.setMoveState m s) := by
  refine ⟨⟨?_, ?_, ?_, ?_, ?_, ?_, ?_, ?_, ?_, ?_, ?_, ?_, ?_⟩, ?_, ?_⟩ <;> simp

end SameNodes

/-! ## Moves that are considered again -/

/-- `d` is `c` with some waiting moves in the worklist again. -/
structure Enabled (c d : Coloring) : Prop extends SameNodes c d where
  moveState : ∀ m, d.moveState.get m = c.moveState.get m ∨
    (c.moveState.get m = .active ∧ d.moveState.get m = .worklist)

namespace Enabled

theorem refl (c : Coloring) : Enabled c c := ⟨.refl c, fun _ => .inl rfl⟩

theorem trans (h : Enabled c d) (h' : Enabled d e) : Enabled c e := by
  refine ⟨h.toSameNodes.trans h'.toSameNodes, ?_⟩
  intro m
  rcases h.moveState m with h₁ | ⟨h₁, h₂⟩
  · rw [← h₁]
    exact h'.moveState m
  · rcases h'.moveState m with h₃ | ⟨h₃, _⟩
    · exact .inr ⟨h₁, h₃.trans h₂⟩
    · rw [h₂] at h₃
      cases h₃

theorem isLive (h : Enabled c d) (m : Nat) : d.isLive m = c.isLive m := by
  rcases h.moveState m with hm | ⟨hc, hd⟩
  · simp [Coloring.isLive, hm]
  · simp [Coloring.isLive, hc, hd]

theorem foldl {α : Type} {f : Coloring → α → Coloring} (hf : ∀ c a, Enabled c (f c a)) (l : List α)
    (c : Coloring) : Enabled c (l.foldl f c) := by
  induction l generalizing c with
  | nil => exact refl c
  | cons a l ih => exact (hf c a).trans (ih _)

end Enabled

/-- Consider a waiting move again. -/
def wake (c : Coloring) (m : Nat) : Coloring :=
  if c.moveState.get m = .active then c.setMoveState m .worklist else c

theorem enableNodeMoves_eq (c : Coloring) (n : Nat) :
    c.enableNodeMoves n = (c.nodeMoves n).foldl wake c := rfl

theorem enabled_wake (c : Coloring) (m : Nat) : Enabled c (c.wake m) := by
  unfold wake
  split
  · rename_i hm
    refine ⟨.setMoveState c m .worklist, ?_⟩
    intro i
    rw [moveState_setMoveState]
    split
    · rename_i hi
      exact .inr ⟨hi ▸ hm, rfl⟩
    · exact .inl rfl
  · exact .refl c

theorem enabled_enableMoves (c : Coloring) (ns : List Nat) : Enabled c (c.enableMoves ns) := by
  refine Enabled.foldl (fun c n => ?_) ns c
  rw [enableNodeMoves_eq]
  exact Enabled.foldl enabled_wake _ c

end Coloring

end TreeCompiler
