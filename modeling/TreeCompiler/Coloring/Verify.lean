import TreeCompiler.Coloring.State

/-!
# Coloring invariants — a check of the coloring state

The worklists agree with the states of nodes and moves, and the degree of each node in a worklist
counts its neighbors in the graph.
-/

namespace TreeCompiler

/-- What a coloring state can be found guilty of. -/
inductive InvariantError
  | nodeList (name : String)
  | selectStack
  | moveList (name : String)
  | wrongDegree (t : Temp) (degree neighbors : Nat)
  | lowSpillCandidate (t : Temp)
  | badFreeze (t : Temp)
  /-- More steps were taken than nodes and moves allow. -/
  | unsettled
  deriving DecidableEq

def InvariantError.message : InvariantError → String
  | .nodeList name => name ++ " worklist disagrees with node states"
  | .selectStack => "Select stack disagrees with node states"
  | .moveList name => name ++ " moves disagree with move states"
  | .wrongDegree t degree neighbors =>
      s!"Degree of {t.display} is {degree} but it has {neighbors} neighbors"
  | .lowSpillCandidate t => t.display ++ " is a spill candidate with low degree"
  | .badFreeze t => t.display ++ " is frozen but not low-degree and move-related"
  | .unsettled => "Coloring did not settle"

namespace Coloring

/-- A condition that has to hold, or else an error. -/
def ensure (b : Bool) (e : InvariantError) : Except InvariantError Unit :=
  if b then .ok () else .error e

/-- A list holds the nodes of a state. -/
def listAgrees (c : Coloring) (s : NodeState) (l : List Nat) : Bool :=
  l.length = c.nodes.countP (fun n => c.state.get n = s) && l.all fun n => c.state.get n = s

/-- A list holds the moves of a bucket. -/
def movesAgree (c : Coloring) (s : MoveState) (l : List Nat) : Bool :=
  l.length = (List.range c.moves.size).countP (fun m => c.moveState.get m = s)
    && l.all fun m => c.moveState.get m = s

def isInGraph (c : Coloring) (n : Nat) : Bool :=
  c.state.get n ∈ [NodeState.precolored, .simplify, .freeze, .spill]

/-- The degree of a node in a worklist is right and fits the worklist. -/
def verifyNode (c : Coloring) (n : Nat) : Except InvariantError Unit := do
  let s := c.state.get n
  if s ∈ [NodeState.simplify, .freeze, .spill] then
    let d := c.degree.get n
    -- registers stay in the graph for good
    let around := (c.neighbors.get n).countP c.isInGraph
    ensure (around = d) (.wrongDegree (c.temp n) d around)
    ensure (!(s = .spill && d < c.k)) (.lowSpillCandidate (c.temp n))
    ensure (!(s = .freeze && (c.k ≤ d || !c.isMoveRelated n))) (.badFreeze (c.temp n))

/-- Check each node of a list. -/
def verifyNodes (c : Coloring) : List Nat → Except InvariantError Unit
  | [] => .ok ()
  | n :: ns => do
      c.verifyNode n
      c.verifyNodes ns

def verify (c : Coloring) : Except InvariantError Unit := do
  ensure (c.listAgrees .simplify c.simplifyWorklist.toList) (.nodeList "Simplify")
  ensure (c.listAgrees .freeze c.freezeWorklist.toList) (.nodeList "Freeze")
  ensure (c.listAgrees .spill c.spillWorklist.toList) (.nodeList "Spill")
  ensure (c.listAgrees .selectStack c.selectStack) .selectStack
  ensure (c.movesAgree .worklist c.worklistMoves.toList) (.moveList "Worklist")
  ensure (c.movesAgree .active c.activeMoves.toList) (.moveList "Active")
  c.verifyNodes c.nodes

/-- The check, if it was asked for. -/
def check (c : Coloring) : Except InvariantError Unit :=
  if c.checkInvariants then c.verify else .ok ()

end Coloring

end TreeCompiler
