import TreeCompiler.Coloring.Step
import TreeCompiler.Coloring.Verify
import TreeCompiler.MinHeap

/-!
# Coloring runs — from an interference graph to colors and spills

Steps are taken until all worklists are empty; then the nodes taken out of the graph get colors in
the opposite order.  A node gets the least color that no colored neighbor has, and is spilled if all
colors are taken.
-/

namespace TreeCompiler

/-- The outcome of an attempt to color a graph. -/
structure ColorResult where
  /-- The colors of the temps that got one, registers included. -/
  colors : TempMap Nat
  /-- The temps that have to be spilled. -/
  spilled : TempSet
  coalescedMoves : Nat

namespace Coloring

/-! ## Colors -/

/-- The colors of the neighbors of a node that have one. -/
def usedColors (c : Coloring) (n : Nat) : MinHeap :=
  let use (h : MinHeap) (w : Nat) : MinHeap :=
    -- a merged neighbor has the color of the node that stands for it
    let a := c.representative w
    if c.state.get a = .colored || c.state.get a = .precolored then
      match c.color.get a with
      | some color => h.push color
      | none => h
    else h
  (c.neighbors.get n).foldl use .empty

/-- Give a node a color, or spill it. -/
def assignColor (c : Coloring) (n : Nat) : Coloring :=
  let color := (c.usedColors n).smallestAbsent.1
  if color < c.k then
    let c := { c with color := c.color.set n (some color) }
    c.setState n .colored
  else
    c.setState n .spilled

/-- Merged nodes have the color of what they were merged into. -/
def inheritColor (c : Coloring) (n : Nat) : Coloring :=
  if c.state.get n = .coalesced then
    { c with color := c.color.set n (c.color.get (c.representative n)) }
  else c

/-- Assign colors to the nodes taken out of the graph, then to the merged ones. -/
def assignColors (c : Coloring) : Coloring :=
  -- the last node taken out is the first of the stack, so it is colored first
  let c := c.selectStack.foldl assignColor c
  c.nodes.foldl inheritColor c

/-! ## Results -/

def result (c : Coloring) : ColorResult :=
  let addColor (colors : TempMap Nat) (n : Nat) : TempMap Nat :=
    match c.state.get n, c.color.get n with
    | .spilled, _ => colors
    | _, some color => colors.insert (c.temp n) color
    | _, none => colors
  let spilled := c.nodes.filter fun n => c.state.get n = .spilled
  { colors := c.nodes.foldl addColor .empty
    spilled := .ofList (spilled.map c.temp)
    coalescedMoves :=
      (List.range c.moves.size).countP fun m => c.moveState.get m = .coalesced }

/-- Take steps until there is none, with a limit on their number. -/
def settle : Nat → Coloring → Except InvariantError Coloring
  | limit, c =>
      match c.step?, limit with
      | none, _ => .ok c
      | some _, 0 => .error .unsettled
      | some c', more + 1 => do
          c'.check
          settle more c'

/-- How many steps a state allows: each node leaves the graph once, and between two such steps each
move is considered at most once. -/
def stepLimit (c : Coloring) : Nat := (c.size + 1) * (c.moves.size + 2)

def run (c : Coloring) : Except InvariantError ColorResult := do
  -- the state is checked before the first step, after each one and at the end
  let start := c.makeWorklist
  start.check
  let done ← settle start.stepLimit start
  let colored := done.assignColors
  colored.check
  return colored.result

end Coloring

end TreeCompiler
