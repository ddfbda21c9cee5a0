import TreeCompiler.AllocOptions
import TreeCompiler.Interference

/-!
# Coloring state — iterated register coalescing, its data

Each node of the interference graph is in one state and each move in one bucket; worklists list the
nodes and moves of some of them.  `Coloring.setState` and `Coloring.setMoveState` are the only
functions that change a state or a bucket, and they keep the worklists in step.

Machine registers count as having infinitely many neighbors, so their degrees and neighbor lists
are not kept.
-/

namespace TreeCompiler

inductive NodeState
  /-- A machine register. -/
  | precolored
  /-- Not sorted into a worklist yet. -/
  | initial
  /-- Has few neighbors and no copies left: can be taken out of the graph. -/
  | simplify
  /-- Has few neighbors and copies that may still be merged. -/
  | freeze
  /-- Has many neighbors. -/
  | spill
  /-- Got no color. -/
  | spilled
  /-- Merged into another node. -/
  | coalesced
  | colored
  /-- Taken out of the graph, waiting for a color. -/
  | selectStack
  deriving DecidableEq, Inhabited

inductive MoveState
  /-- To be considered for merging. -/
  | worklist
  /-- Not ready to be merged yet. -/
  | active
  | coalesced
  /-- Its ends interfere. -/
  | constrained
  /-- Given up. -/
  | frozen
  deriving DecidableEq, Inhabited

structure Coloring where
  /-- The number of colors. -/
  k : Nat
  /-- The temps of the nodes. -/
  temps : Array Temp
  state : Table NodeState
  /-- The number of neighbors still in the graph, for nodes that are no registers. -/
  degree : Table Nat
  /-- All neighbors that were ever added, for nodes that are no registers. -/
  neighbors : Table (List Nat)
  /-- The other ends of the edges of each node. -/
  edges : Table (SortedSet Nat)
  /-- The moves that a node takes part in. -/
  moveList : Table (List Nat)
  /-- Source and destination of each move. -/
  moves : Array (Nat × Nat)
  moveState : Table MoveState
  /-- The node that a merged node was merged into. -/
  mergedInto : Table Nat
  color : Table (Option Nat)
  simplifyWorklist : SortedSet Nat
  freezeWorklist : SortedSet Nat
  spillWorklist : SortedSet Nat
  /-- The nodes taken out of the graph, the last one first. -/
  selectStack : List Nat
  worklistMoves : SortedSet Nat
  activeMoves : SortedSet Nat
  /-- Whether a node should be spilled only if no other can be. -/
  avoid : Table Bool
  checkInvariants : Bool

namespace Coloring

def size (c : Coloring) : Nat := c.temps.size

def nodes (c : Coloring) : List Nat := List.range c.size

def temp (c : Coloring) (n : Nat) : Temp := c.temps.getD n ⟨0⟩

/-! ## States and worklists -/

/-- Take a node off the list of its state. -/
def leaveList (c : Coloring) (n : Nat) : Coloring :=
  match c.state.get n with
  | .simplify => { c with simplifyWorklist := c.simplifyWorklist.erase n }
  | .freeze => { c with freezeWorklist := c.freezeWorklist.erase n }
  | .spill => { c with spillWorklist := c.spillWorklist.erase n }
  | .selectStack => { c with selectStack := c.selectStack.tail }
  | _ => c

/-- Put a node on the list of a state. -/
def enterList (c : Coloring) (n : Nat) : NodeState → Coloring
  | .simplify => { c with simplifyWorklist := c.simplifyWorklist.insert n }
  | .freeze => { c with freezeWorklist := c.freezeWorklist.insert n }
  | .spill => { c with spillWorklist := c.spillWorklist.insert n }
  | .selectStack => { c with selectStack := n :: c.selectStack }
  | _ => c

/-- Change the state of a node. -/
def setState (c : Coloring) (n : Nat) (s : NodeState) : Coloring :=
  -- the list to leave goes by the old state, so the state itself changes last
  let c := (c.leaveList n).enterList n s
  { c with state := c.state.set n s }

def leaveMoves (c : Coloring) (m : Nat) : Coloring :=
  match c.moveState.get m with
  | .worklist => { c with worklistMoves := c.worklistMoves.erase m }
  | .active => { c with activeMoves := c.activeMoves.erase m }
  | _ => c

def enterMoves (c : Coloring) (m : Nat) : MoveState → Coloring
  | .worklist => { c with worklistMoves := c.worklistMoves.insert m }
  | .active => { c with activeMoves := c.activeMoves.insert m }
  | _ => c

/-- Put a move into another bucket. -/
def setMoveState (c : Coloring) (m : Nat) (s : MoveState) : Coloring :=
  let c := (c.leaveMoves m).enterMoves m s
  { c with moveState := c.moveState.set m s }

theorem state_setState (c : Coloring) (n i : Nat) (s : NodeState) :
    (c.setState n s).state.get i = if i = n then s else c.state.get i := by
  have h₁ : (c.leaveList n).state = c.state := by unfold leaveList; split <;> rfl
  have h₂ : ∀ d : Coloring, (d.enterList n s).state = d.state := by
    intro d
    unfold enterList
    split <;> rfl
  simp [setState, Table.get_set, h₁, h₂]

theorem moveState_setMoveState (c : Coloring) (m i : Nat) (s : MoveState) :
    (c.setMoveState m s).moveState.get i = if i = m then s else c.moveState.get i := by
  have h₁ : (c.leaveMoves m).moveState = c.moveState := by unfold leaveMoves; split <;> rfl
  have h₂ : ∀ d : Coloring, (d.enterMoves m s).moveState = d.moveState := by
    intro d
    unfold enterMoves
    split <;> rfl
  simp [setMoveState, Table.get_set, h₁, h₂]

/-! ## The graph -/

def isPrecolored (c : Coloring) (n : Nat) : Bool := c.state.get n = .precolored

def hasEdge (c : Coloring) (a b : Nat) : Bool := (c.edges.get a).contains b

/-- Whether a node may be hard to color: it has as many neighbors as there are colors, or it is a
register. -/
def isSignificant (c : Coloring) (n : Nat) : Bool := c.isPrecolored n || c.k ≤ c.degree.get n

/-- Note `b` as a neighbor of `a`, unless `a` is a register. -/
def addNeighbor (c : Coloring) (a b : Nat) : Coloring :=
  if c.isPrecolored a then c
  else
    { c with
      neighbors := c.neighbors.modify a (b :: ·)
      degree := c.degree.modify a (· + 1) }

/-- Add an edge that is not there yet. -/
def addEdge (c : Coloring) (a b : Nat) : Coloring :=
  if a = b || c.hasEdge a b then c
  else
    let edges := (c.edges.modify a (·.insert b)).modify b (·.insert a)
    let c := { c with edges }
    (c.addNeighbor a b).addNeighbor b a

/-- Whether a node was taken out of the graph. -/
def isRemoved (c : Coloring) (n : Nat) : Bool :=
  c.state.get n = .selectStack || c.state.get n = .coalesced

/-- The neighbors still in the graph. -/
def adjacent (c : Coloring) (n : Nat) : List Nat :=
  (c.neighbors.get n).filter fun w => !c.isRemoved w

/-! ## Moves and merged nodes -/

/-- Whether a move may still be merged. -/
def isLive (c : Coloring) (m : Nat) : Bool :=
  c.moveState.get m = .active || c.moveState.get m = .worklist

/-- The moves of a node that may still be merged. -/
def nodeMoves (c : Coloring) (n : Nat) : List Nat := (c.moveList.get n).filter c.isLive

def isMoveRelated (c : Coloring) (n : Nat) : Bool := (c.moveList.get n).any c.isLive

/-- Follow merged nodes for a number of steps. -/
def representativeWithin (c : Coloring) : Nat → Nat → Nat
  | 0, n => n
  | steps + 1, n =>
      if c.state.get n = .coalesced then c.representativeWithin steps (c.mergedInto.get n) else n

/-- The node that stands for a node: the end of the chain of merges. -/
def representative (c : Coloring) (n : Nat) : Nat := c.representativeWithin c.size n

/-! ## The start -/

def addMove (c : Coloring) (src dst : Nat) : Coloring :=
  let m := c.moves.size
  let lists := c.moveList.modify src (· ++ [m])
  { c with
    moves := c.moves.push (src, dst)
    moveState := c.moveState.set m .worklist
    worklistMoves := c.worklistMoves.insert m
    -- a copy of a temp to itself is listed once
    moveList := if dst = src then lists else lists.modify dst (· ++ [m]) }

/-- The nodes of an interference graph, without edges and moves. -/
def ofNodes (g : Interference) (m : Machine) (options : AllocOptions) (avoid : TempSet) :
    Coloring :=
  let temps := g.temps
  { k := m.colors
    temps := g.graph.nodes
    state := .ofList .initial (temps.map fun t => if m.isRegister t then .precolored else .initial)
    degree := .constant 0
    neighbors := .constant []
    edges := .constant .empty
    moveList := .constant []
    moves := #[]
    moveState := .constant .worklist
    -- at the start each node stands for itself
    mergedInto := .ofList 0 (List.range temps.length)
    color := .ofList none (temps.map fun t => if m.isRegister t then m.colorOf? t else none)
    simplifyWorklist := .empty
    freezeWorklist := .empty
    spillWorklist := .empty
    selectStack := []
    worklistMoves := .empty
    activeMoves := .empty
    avoid := .ofList false (temps.map fun t => avoid.contains t)
    checkInvariants := options.checkInvariants }

/-- The state before anything was sorted or merged.  Moves count only if they may be merged. -/
def ofGraph (g : Interference) (m : Machine) (options : AllocOptions) (avoid : TempSet) :
    Coloring :=
  let c := g.edges.foldl (fun c e => c.addEdge e.1 e.2) (ofNodes g m options avoid)
  if options.coalescing then g.moves.foldl (fun c e => c.addMove e.1 e.2) c else c

end Coloring

end TreeCompiler
