import TreeCompiler.Allocation

/-!
# Compile — from procedures to allocated code

The procedures of a file are compiled one after the other with one namer, so that no temp is used
twice.  A procedure that fails does not stop the next ones.
-/

namespace TreeCompiler

inductive CompileError
  | selection (e : SelectionError)
  | allocation (e : AllocationError)
  deriving DecidableEq

def CompileError.message : CompileError → String
  | .selection e => e.message
  | .allocation e => e.message

/-- What became of one procedure. -/
structure Attempt where
  name : Label
  /-- The selected instructions, unless selection failed. -/
  selected? : Option (List Instr)
  outcome : Except CompileError Allocation

namespace Procedure

/-- The frame of a procedure before selection. -/
def frame (p : Procedure) (m : Machine) : Frame := .new p.name p.localsSize m

/-- Select the instructions of a procedure that keeps the callee-saved registers. -/
def select (p : Procedure) (m : Machine) (n : Namer) :
    Except SelectionError Selection.Selected × Namer :=
  let (body, n') := saveCalleeSaves m p.body n
  (p.frame m).select m body n'

/-- Compile one procedure.  The namer is returned also on failure. -/
def compile (p : Procedure) (m : Machine) (options : AllocOptions) (n : Namer) : Attempt × Namer :=
  match p.select m n with
  | (.error e, n') => (⟨p.name, none, .error (.selection e)⟩, n')
  | (.ok s, n') =>
      let (result, n'') := s.frame.allocate m options s.instrs n'
      (⟨p.name, some s.instrs, result.mapError .allocation⟩, n'')

/-- Compile procedures in order. -/
def compileAll (m : Machine) (options : AllocOptions) :
    List Procedure → Namer → List Attempt × Namer
  | [], n => ([], n)
  | p :: ps, n =>
      let (a, n') := p.compile m options n
      let (as, n'') := compileAll m options ps n'
      (a :: as, n'')

/-- The namer of a file, whose temps lie behind those of the file. -/
def namerFor (ps : List Procedure) : Namer := ({} : Namer).resumeAfter (maxTempAll ps)

/-- Compile a file. -/
def compileFile (ps : List Procedure) (m : Machine) (options : AllocOptions) :
    List Attempt × Namer :=
  compileAll m options ps (namerFor ps)

end Procedure

namespace Attempt

/-- The allocations of a file, if all procedures have one. -/
def allocations? (as : List Attempt) : Option (List Allocation) :=
  as.mapM fun a => a.outcome.toOption

/-- The instructions selected for the procedures of a file. -/
def selections (as : List Attempt) : List (Label × List Instr) :=
  as.filterMap fun a => a.selected?.map fun instrs => (a.name, instrs)

end Attempt

end TreeCompiler
