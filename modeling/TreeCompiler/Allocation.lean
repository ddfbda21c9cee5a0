import TreeCompiler.Coloring.Run
import TreeCompiler.Spill

/-!
# Allocation — registers for all temps of a procedure

Each round colors the interference graph of the code.  If temps have to be spilled, they are moved
to the frame and the next round starts; temps made by spilling are spilled last.  A procedure with
`n` temps has to settle within `n + 1` rounds.
-/

namespace TreeCompiler

/-- A procedure whose temps have registers. -/
structure Allocation where
  instrs : List Instr
  /-- The register of each temp. -/
  coloring : NameMap
  /-- The temps spilled over all rounds. -/
  spilled : List Temp
  rounds : Nat
  frame : Frame

inductive AllocationError
  | flow (e : FlowError)
  | liveness (e : LivenessError)
  | coloring (e : InvariantError)
  | spill (e : SelectionError)
  | unsettled (name : Label) (bound : Nat)
  | lostTemp (t : Temp)
  deriving DecidableEq

def AllocationError.message : AllocationError → String
  | .flow e => e.message
  | .liveness e => e.message
  | .coloring e => e.message
  | .spill e => e.message
  | .unsettled name bound => s!"Allocation of {name} did not settle within {bound} rounds"
  | .lostTemp t => "Temp " ++ t.display ++ " was neither colored nor spilled"

namespace Allocation

/-! ## One round -/

/-- The interference graph of some code, and its coloring. -/
def colorCode (m : Machine) (options : AllocOptions) (avoid : TempSet) (instrs : List Instr) :
    Except AllocationError (Interference × ColorResult) := do
  let flow ← (FlowGraph.build instrs).mapError .flow
  let live ← (Liveness.analyze flow).mapError .liveness
  let graph := Interference.build m flow live
  let result ← (Coloring.ofGraph graph m options avoid).run.mapError .coloring
  return (graph, result)

/-- The register of a temp: that of its color, or the temp itself if it is a register. -/
def registerOf (m : Machine) (result : ColorResult) (t : Temp) : Except AllocationError Temp :=
  match result.colors.get? t with
  | some color => .ok (m.registerOfColor color)
  | none => if m.isRegister t then .ok t else .error (.lostTemp t)

/-- The register names of temps. -/
def registerNames (m : Machine) (result : ColorResult) :
    List Temp → NameMap → Except AllocationError NameMap
  | [], names => .ok names
  | t :: ts, names => do
      let r ← registerOf m result t
      match m.asmName? r with
      | some name => registerNames m result ts (names.insert t name)
      | none => registerNames m result ts names

/-! ## All rounds -/

/-- What a round leaves to the next one. -/
structure Progress where
  instrs : List Instr
  frame : Frame
  namer : Namer
  /-- The temps made by spilling. -/
  introduced : TempSet := .empty
  spilled : List Temp := []

/-- Make at most `left` more rounds, of which `done` were made. -/
def allocateWithin (m : Machine) (options : AllocOptions) (done : Nat) :
    Nat → Progress → Except AllocationError Allocation × Namer
  | 0, p => (.error (.unsettled p.frame.name done), p.namer)
  | left + 1, p =>
      match colorCode m options p.introduced p.instrs with
      | .error e => (.error e, p.namer)
      | .ok (graph, result) =>
          -- names are given only in the round that spills nothing
          if result.spilled.isEmpty then
            let finish (coloring : NameMap) : Allocation :=
              let instrs := if options.eliminateRedundantMoves then
                removeRedundantMoves coloring p.instrs else p.instrs
              ⟨instrs, coloring, p.spilled, done + 1, p.frame⟩
            ((registerNames m result graph.temps .empty).map finish, p.namer)
          else
            let spilled := result.spilled.toList
            match p.frame.spill m p.instrs spilled p.namer with
            | (.error e, _, n) => (.error (.spill e), n)
            | (.ok r, frame, n) =>
                allocateWithin m options (done + 1) left
                  { instrs := r.instrs, frame, namer := n
                    introduced := p.introduced.union (.ofList r.fresh)
                    spilled := p.spilled ++ spilled }

/-- The temps of some code that are no registers. -/
def unallocated (m : Machine) (instrs : List Instr) : TempSet :=
  .ofList ((instrs.flatMap fun i => i.defs ++ i.uses).filter fun t => !m.isRegister t)

end Allocation

/-- Find registers for the temps of some code.  The namer is returned also on failure. -/
def Frame.allocate (frame : Frame) (m : Machine) (options : AllocOptions) (instrs : List Instr)
    (n : Namer) : Except AllocationError Allocation × Namer :=
  Allocation.allocateWithin m options 0 ((Allocation.unallocated m instrs).size + 1)
    { instrs, frame, namer := n }

end TreeCompiler
