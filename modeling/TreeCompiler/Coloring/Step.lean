import TreeCompiler.Coloring.State

/-!
# Coloring steps — iterated register coalescing, its transitions

One step takes the first worklist that is not empty, in this order: simplify a node, consider a
move, freeze a node, choose a node that may have to be spilled.  `Coloring.step?` has no answer when
all worklists are empty.
-/

namespace TreeCompiler

namespace Coloring

/-! ## Degrees and moves -/

/-- Consider the waiting moves of a node again. -/
def enableNodeMoves (c : Coloring) (n : Nat) : Coloring :=
  (c.nodeMoves n).foldl
    (fun c m => if c.moveState.get m = .active then c.setMoveState m .worklist else c) c

def enableMoves (c : Coloring) (ns : List Nat) : Coloring := ns.foldl enableNodeMoves c

/-- A neighbor of `n` left the graph.  If that leaves `n` with few neighbors, the moves around it
are considered again. -/
def decrementDegree (c : Coloring) (n : Nat) : Coloring :=
  if c.isPrecolored n then c
  else
    let d := c.degree.get n
    let c := { c with degree := c.degree.set n (d - 1) }
    -- only the step from `k` to `k - 1` makes a node easy to color
    if d = c.k then
      let c := c.enableMoves (c.adjacent n ++ [n])
      if c.state.get n = .spill then
        c.setState n (if c.isMoveRelated n then .freeze else .simplify)
      else c
    else c

/-- Give up the moves of a node, which may leave the other ends without moves. -/
def freezeMove (n : Nat) (c : Coloring) (m : Nat) : Coloring :=
  match c.moves[m]? with
  | none => c
  | some (x, y) =>
      -- the end of the move that does not stand for `n`
      let v :=
        if c.representative y = c.representative n then c.representative x
        else c.representative y
      let c := c.setMoveState m .frozen
      if c.state.get v = .freeze && !c.isMoveRelated v && c.degree.get v < c.k then
        c.setState v .simplify
      else c

def freezeMoves (c : Coloring) (n : Nat) : Coloring := (c.nodeMoves n).foldl (freezeMove n) c

/-! ## Merging -/

/-- A node that has no more moves and few neighbors can be simplified. -/
def addWorkList (c : Coloring) (n : Nat) : Coloring :=
  if !c.isPrecolored n && c.state.get n = .freeze && !c.isMoveRelated n && c.degree.get n < c.k then
    c.setState n .simplify
  else c

/-- Whether a neighbor `t` of a node does not matter when the node is merged into register `r`. -/
def isHarmless (c : Coloring) (r t : Nat) : Bool :=
  c.isPrecolored t || c.degree.get t < c.k || c.hasEdge t r

/-- Whether merging `v` into `u` keeps the graph colorable: into a register if each neighbor of `v`
is harmless, else if the merged node has fewer significant neighbors than there are colors. -/
def canCoalesce (c : Coloring) (u v : Nat) : Bool :=
  if c.isPrecolored u then
    (c.adjacent v).all (c.isHarmless u)
  else
    -- a common neighbor counts once
    let around := SortedSet.ofList (c.adjacent u ++ c.adjacent v)
    (around.filter c.isSignificant).size < c.k

/-- Give the moves of `v` to `u` as well. -/
def joinMoves (c : Coloring) (u v : Nat) : Coloring :=
  let missing := (c.moveList.get v).foldl (fun l m => if m ∈ l then l else l ++ [m])
  { c with moveList := c.moveList.modify u missing }

/-- Merge `v` into `u`. -/
def combine (c : Coloring) (u v : Nat) : Coloring :=
  let c := c.setState v .coalesced
  let c := { c with mergedInto := c.mergedInto.set v u }
  let c := (c.joinMoves u v).enableMoves [v]
  -- each neighbor loses `v` and gains `u`, unless it had `u` already
  let c := (c.adjacent v).foldl (fun c t => (c.addEdge t u).decrementDegree t) c
  if c.k ≤ c.degree.get u && c.state.get u = .freeze then c.setState u .spill else c

/-- Decide on a move: merge its ends, find that they interfere, or let it wait. -/
def coalesce (c : Coloring) (m : Nat) : Coloring :=
  match c.moves[m]? with
  | none => c
  | some (src, dst) =>
      let x := c.representative src
      let y := c.representative dst
      -- a register is never merged into something else, so it comes first
      let (u, v) := if c.isPrecolored y then (y, x) else (x, y)
      if u = v then
        (c.setMoveState m .coalesced).addWorkList u
      else if c.isPrecolored v || c.hasEdge u v then
        ((c.setMoveState m .constrained).addWorkList u).addWorkList v
      else if c.canCoalesce u v then
        ((c.setMoveState m .coalesced).combine u v).addWorkList u
      else
        c.setMoveState m .active

/-! ## Steps -/

/-- Sort the nodes into worklists. -/
def makeWorklist (c : Coloring) : Coloring :=
  let sort (c : Coloring) (n : Nat) : Coloring :=
    if c.state.get n = .initial then
      if c.k ≤ c.degree.get n then c.setState n .spill
      else if c.isMoveRelated n then c.setState n .freeze
      else c.setState n .simplify
    else c
  c.nodes.foldl sort c

/-- Take a node out of the graph. -/
def simplify (c : Coloring) (n : Nat) : Coloring :=
  -- the node counts as removed before its neighbors are told
  let c := c.setState n .selectStack
  (c.adjacent n).foldl decrementDegree c

/-- Give up merging a node. -/
def freeze (c : Coloring) (n : Nat) : Coloring := (c.setState n .simplify).freezeMoves n

/-- Whether `a` is a better node to spill than `b`: one not to be avoided, then one with more
neighbors, then the lower temp. -/
def spillsBefore (c : Coloring) (a b : Nat) : Bool :=
  if c.avoid.get a != c.avoid.get b then !c.avoid.get a
  else if c.degree.get a ≠ c.degree.get b then c.degree.get b < c.degree.get a
  else (c.temp a).id < (c.temp b).id

/-- The best node of a list to spill. -/
def bestSpill (c : Coloring) (n : Nat) (ns : List Nat) : Nat :=
  ns.foldl (fun best x => if c.spillsBefore x best then x else best) n

/-- Take a node with many neighbors as one that can be simplified, in the hope that it gets a color
all the same. -/
def selectSpill (c : Coloring) (n : Nat) : Coloring := (c.setState n .simplify).freezeMoves n

/-- The next step, if there is anything left to do. -/
def step? (c : Coloring) : Option Coloring :=
  match c.simplifyWorklist.min?, c.worklistMoves.min?, c.freezeWorklist.min?,
    c.spillWorklist.toList with
  | some n, _, _, _ => some (c.simplify n)
  | none, some m, _, _ => some (c.coalesce m)
  | none, none, some n, _ => some (c.freeze n)
  | none, none, none, n :: ns => some (c.selectSpill (c.bestSpill n ns))
  | none, none, none, [] => none

end Coloring

end TreeCompiler
