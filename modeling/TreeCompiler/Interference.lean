import TreeCompiler.Liveness
import TreeCompiler.Machine.Basic

/-!
# Interference — which temps need different registers

There is a node for every machine register and for every temp of the code.  Allocatable registers
interfere with each other.  A temp that is defined interferes with whatever is live out of its
instruction, except that the two ends of a copy hold the same value there.  The reserved registers
interfere with nothing.
-/

namespace TreeCompiler

structure Interference where
  graph : Digraph Temp
  /-- Nodes by temp. -/
  index : TempMap Nat
  /-- Source and destination of the copies between temps, each pair once. -/
  moves : Array (Nat × Nat)

namespace Interference

def empty : Interference := ⟨.empty, .empty, #[]⟩

def size (g : Interference) : Nat := g.graph.size

def isEmpty (g : Interference) : Bool := g.graph.isEmpty

def nodeOf? (g : Interference) (t : Temp) : Option Nat := g.index.get? t

def temp (g : Interference) (n : Nat) : Temp := (g.graph.node? n).getD ⟨0⟩

/-- The temps of the nodes in order. -/
def temps (g : Interference) : List Temp := g.graph.nodes.toList

/-- The node of a temp, made if it is missing. -/
def addTemp (g : Interference) (t : Temp) : Nat × Interference :=
  match g.nodeOf? t with
  | some n => (n, g)
  | none =>
      let (n, graph) := g.graph.addNode t
      (n, { g with graph, index := g.index.insert t n })

/-- Make two temps interfere, unless they are the same. -/
def addEdge (g : Interference) (a b : Temp) : Interference :=
  if a = b then g
  else
    let (x, g₁) := g.addTemp a
    let (y, g₂) := g₁.addTemp b
    { g₂ with graph := g₂.graph.addUndirected x y }

/-- Note a copy. -/
def addMove (g : Interference) (src dst : Temp) : Interference :=
  let (x, g₁) := g.addTemp src
  let (y, g₂) := g₁.addTemp dst
  -- the pair is ordered: a copy the other way is one more
  if g₂.moves.contains (x, y) then g₂ else { g₂ with moves := g₂.moves.push (x, y) }

def interferes (g : Interference) (a b : Temp) : Bool :=
  match g.nodeOf? a, g.nodeOf? b with
  | some x, some y => g.graph.hasEdge x y
  | _, _ => false

def adjacent (g : Interference) (n : Nat) : List Nat := (g.graph.succsOf n).toList

/-- Each edge once, the lower node first. -/
def edges (g : Interference) : List (Nat × Nat) :=
  g.graph.ids.flatMap fun a => ((g.adjacent a).filter (a < ·)).map fun b => (a, b)

/-! ## Construction -/

def addTemps (g : Interference) (ts : List Temp) : Interference :=
  ts.foldl (fun g t => (g.addTemp t).2) g

/-- Make the temps of a list interfere with each other. -/
def addClique (g : Interference) : List Temp → Interference
  | [] => g
  | t :: ts => (ts.foldl (fun g u => g.addEdge t u) g).addClique ts

/-- The graph of the machine registers alone. -/
def registers (m : Machine) : Interference :=
  (empty.addTemps m.registers).addClique m.allocatable

/-- The temps that a temp defined at a node interferes with. -/
def conflicts (m : Machine) (node : FlowNode) (out : TempSet) (d : Temp) : List Temp :=
  -- behind a copy both ends hold the same value, so they may share a register
  let source? := node.movePair?.map (·.1)
  out.toList.filter fun o => o ≠ d && !m.isReserved o && source? ≠ some o

/-- Add the edges and the copy of a node. -/
def addNode (m : Machine) (g : Interference) (node : FlowNode) (out : TempSet) : Interference :=
  let defs := node.defs.filter fun d => !m.isReserved d
  let g₁ := defs.foldl (fun g d => (conflicts m node out d).foldl (·.addEdge d) g) g
  match node.movePair? with
  | some (src, dst) => if m.isReserved src || m.isReserved dst then g₁ else g₁.addMove src dst
  | none => g₁

/-- The graph of the code with the given live sets. -/
def build (m : Machine) (flow : FlowGraph) (live : Liveness) : Interference :=
  let nodes := flow.nodes.toList
  let start := (registers m).addTemps (nodes.flatMap fun node => node.defs ++ node.uses)
  nodes.foldl (fun g node => g.addNode m node (live.liveOut.get node.index)) start

/-- One line for each node that is no register. -/
def dump (m : Machine) (g : Interference) (names : NameMap) : String :=
  let name (n : Nat) : String := names.lookup (g.temp n)
  let line (n : Nat) : String :=
    if m.isRegister (g.temp n) then ""
    else name n ++ ": " ++ " ".intercalate ((g.adjacent n).map name) ++ "\n"
  String.join (g.graph.ids.map line)

end Interference

end TreeCompiler
