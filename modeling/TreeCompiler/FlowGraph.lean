import TreeCompiler.Digraph
import TreeCompiler.Instr.Basic

/-!
# FlowGraph — where control may go between instructions

Node `i` is instruction `i`.  Its successors are the next instruction, if control may fall through
to it, and the instructions that carry the labels it may jump to.
-/

namespace TreeCompiler

/-- Why a list of instructions has no flow graph. -/
inductive FlowError
  | definedTwice (label : Label)
  | unknownTarget (instr : Nat) (label : Label)
  deriving DecidableEq

def FlowError.message : FlowError → String
  | .definedTwice label => s!"Label {label} is defined twice"
  | .unknownTarget instr label => s!"Instruction {instr} jumps to unknown label {label}"

/-- What the analyses need to know of an instruction. -/
structure FlowNode where
  index : Nat
  defs : List Temp
  uses : List Temp
  /-- Source and destination of a copy. -/
  movePair? : Option (Temp × Temp)

abbrev FlowGraph := Digraph FlowNode

namespace FlowGraph

/-- Instruction numbers by label. -/
abbrev LabelMap := List (Label × Nat)

/-- Note the labels of instructions, the first of which has number `i`. -/
def collectLabels (i : Nat) (known : LabelMap) : List Instr → Except FlowError LabelMap
  | [] => .ok known
  | instr :: rest =>
      match instr.label? with
      | none => collectLabels (i + 1) known rest
      | some l =>
          if (known.lookup l).isSome then .error (.definedTwice l)
          else collectLabels (i + 1) ((l, i) :: known) rest

/-- The edges of the jumps of instruction `i` to labels. -/
def jumpEdges (labels : LabelMap) (i : Nat) : List Label → Except FlowError (List (Nat × Nat))
  | [] => .ok []
  | l :: rest =>
      match labels.lookup l with
      | none => .error (.unknownTarget i l)
      | some j => do return (i, j) :: (← jumpEdges labels i rest)

/-- The edges of all jumps of instructions, the first of which has number `i`. -/
def allJumpEdges (labels : LabelMap) (i : Nat) :
    List Instr → Except FlowError (List (Nat × Nat))
  | [] => .ok []
  | instr :: rest => do
      let edges ← jumpEdges labels i instr.targets
      return edges ++ (← allJumpEdges labels (i + 1) rest)

/-- The edges from instructions to the next one, the first of which has number `i`. -/
def fallEdges (i : Nat) : List Instr → List (Nat × Nat)
  | instr :: next :: rest =>
      if instr.fallsThrough then (i, i + 1) :: fallEdges (i + 1) (next :: rest)
      else fallEdges (i + 1) (next :: rest)
  | _ => []

/-- Nodes for instructions, the first of which has number `i`. -/
def addNodes (g : FlowGraph) (i : Nat) : List Instr → FlowGraph
  | [] => g
  | instr :: rest =>
      let node : FlowNode := ⟨i, instr.defs, instr.uses, instr.movePair?⟩
      addNodes (g.addNode node).2 (i + 1) rest

/-- The flow graph of a list of instructions. -/
def build (instrs : List Instr) : Except FlowError FlowGraph := do
  -- labels first: a jump may lead forwards, and a repeated label is the graver fault
  let labels ← collectLabels 0 [] instrs
  let jumps ← allJumpEdges labels 0 instrs
  let nodes := addNodes Digraph.empty 0 instrs
  return (fallEdges 0 instrs ++ jumps).foldl (fun g e => g.addEdge e.1 e.2) nodes

end FlowGraph

end TreeCompiler
