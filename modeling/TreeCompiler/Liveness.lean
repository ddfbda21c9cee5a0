import TreeCompiler.FlowGraph
import TreeCompiler.Table

/-!
# Liveness — which temps are needed later

A temp is live into an instruction if it is used there, or live out of it and not defined there;
it is live out of an instruction if it is live into a successor.  Starting from empty sets,
instructions are visited from the last to the first until a whole pass changes nothing.
-/

namespace TreeCompiler

abbrev TempSet := SortedSet Temp

/-- Why live sets cannot be given. -/
inductive LivenessError
  /-- A set lost a member from one pass to the next. -/
  | shrank (instr : Nat)
  /-- More passes were needed than the sets have room to grow. -/
  | unsettled
  deriving DecidableEq

def LivenessError.message : LivenessError → String
  | .shrank instr => s!"Live sets of instruction {instr} shrank between passes"
  | .unsettled => "Live sets did not settle"

/-- Live sets by instruction. -/
structure LiveSets where
  liveIn : Table TempSet
  liveOut : Table TempSet

structure Liveness extends LiveSets where
  /-- The number of instructions. -/
  size : Nat
  /-- The number of passes that were made. -/
  passes : Nat

namespace LiveSets

def empty : LiveSets := ⟨.constant .empty, .constant .empty⟩

/-- The union of what is live into the successors. -/
def outOf (live : LiveSets) (flow : FlowGraph) (i : Nat) : TempSet :=
  (flow.succsOf i).toList.foldl (fun s j => s.union (live.liveIn.get j)) .empty

/-- What is live into a node, given what is live out of it. -/
def inOf (node : FlowNode) (out : TempSet) : TempSet :=
  (SortedSet.ofList node.uses).union (out.filter fun t => t ∉ node.defs)

theorem mem_inOf {node : FlowNode} {out : TempSet} {t : Temp} :
    t ∈ inOf node out ↔ t ∈ node.uses ∨ (t ∈ out ∧ t ∉ node.defs) := by
  simp [inOf, SortedSet.mem_union, SortedSet.mem_ofList, SortedSet.mem_filter]

/-- Compute the sets of instruction `i` anew; the flag tells whether they changed. -/
def visit (flow : FlowGraph) (i : Nat) (s : LiveSets × Bool) :
    Except LivenessError (LiveSets × Bool) :=
  match flow.node? i with
  | none => .ok s
  | some node =>
      let (live, changed) := s
      let out := live.outOf flow i
      let inn := inOf node out
      let oldIn := live.liveIn.get i
      let oldOut := live.liveOut.get i
      -- sets only grow, so equal sizes mean equal sets
      if !oldIn.isSubset inn || !oldOut.isSubset out then .error (.shrank i)
      else if inn.size != oldIn.size || out.size != oldOut.size then
        .ok (⟨live.liveIn.set i inn, live.liveOut.set i out⟩, true)
      else .ok (live, changed)

/-- Visit the first instructions from the last of them to the first. -/
def pass (flow : FlowGraph) : Nat → LiveSets × Bool → Except LivenessError (LiveSets × Bool)
  | 0, s => .ok s
  | i + 1, s => do pass flow i (← visit flow i s)

/-- Make passes until one changes nothing, with a limit on the passes that change something; the
answer counts the passes after the first `done`. -/
def settle (flow : FlowGraph) (limit done : Nat) (live : LiveSets) :
    Except LivenessError (LiveSets × Nat) := do
  let (live', changed) ← pass flow flow.size (live, false)
  if changed then
    match limit with
    | 0 => throw .unsettled
    | more + 1 => settle flow more (done + 1) live'
  else return (live', done + 1)

end LiveSets

namespace Liveness

/-- How many operands the instructions have together. -/
def mentions (flow : FlowGraph) : Nat :=
  flow.nodes.foldl (fun n node => n + node.defs.length + node.uses.length) 0

/-- The live sets of all instructions.  Each of the two sets of an instruction can grow at most as
often as there are temps, which limits the passes. -/
def analyze (flow : FlowGraph) : Except LivenessError Liveness := do
  let (live, passes) ← LiveSets.settle flow (2 * flow.size * mentions flow) 0 .empty
  return { live with size := flow.size, passes }

/-- One line an instruction. -/
def dump (l : Liveness) (names : NameMap) : String :=
  let sets (s : TempSet) : String := "\x7b" ++ " ".intercalate (s.toList.map names.lookup) ++ "\x7d"
  let line (i : Nat) : String :=
    toString i ++ ": in " ++ sets (l.liveIn.get i) ++ " out " ++ sets (l.liveOut.get i) ++ "\n"
  String.join ((List.range l.size).map line)

end Liveness

end TreeCompiler
