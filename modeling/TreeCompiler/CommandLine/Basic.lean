import TreeCompiler.CommandLine.Host
import TreeCompiler.CommandLine.Options
import TreeCompiler.Compile
import TreeCompiler.Machine.X86
import TreeCompiler.Output.Basic
import TreeCompiler.Settings
import TreeCompiler.Tree.Parser

/-!
# Command line — one run of the compiler

A run reads the machine description, the allocator options and the file to compile, in this order,
and stops at the first that cannot be read.  Every procedure is compiled even if an earlier one
fails, but output is written only if none does.
-/

namespace TreeCompiler

/-- Why a run ends before anything is compiled. -/
inductive StartError
  | options (e : OptionsError)
  | unreadableMachine (path : String) (e : FileError)
  /-- A machine description that is no TOML document or lacks something. -/
  | malformedMachine
  | machine (e : SpecError)
  | unreadableOptions (path : String) (e : FileError)
  | malformedOptions
  | unreadableInput (path : String) (e : FileError)
  | parse (e : ParseError)

def StartError.message : StartError → String
  | .options e => e.message
  | .unreadableMachine path e => "Cannot read target " ++ path ++ ": " ++ e.message
  | .malformedMachine => "Invalid target description: malformed or incomplete document"
  | .machine e => e.message
  | .unreadableOptions path e => "Cannot read allocator options " ++ path ++ ": " ++ e.message
  | .malformedOptions => "Bad allocator options: malformed document or unknown option"
  | .unreadableInput path e => "Couldn't read " ++ path ++ ": " ++ e.message
  | .parse e => e.message

namespace CommandLine

variable {m : Type → Type} [Monad m]

/-! ## Reading -/

/-- The machine of a description. -/
def machineOfText (text : String) : Except StartError Machine :=
  match MachineSpec.ofToml? text with
  | none => .error .malformedMachine
  | some spec => (Machine.ofSpec spec).mapError .machine

def loadMachine (host : Host m) : Option String → ExceptT StartError m Machine
  | none => return Machine.x86_64
  | some path => do
      match ← host.readFile path with
      | .error e => throw (.unreadableMachine path e)
      | .ok text => .mk (pure (machineOfText text))

def loadOptions (host : Host m) : Option String → ExceptT StartError m AllocOptions
  | none => return {}
  | some path => do
      match ← host.readFile path with
      | .error e => throw (.unreadableOptions path e)
      | .ok text =>
          match AllocOptions.ofToml? text with
          | none => throw .malformedOptions
          | some options => return options

/-- What a run works on. -/
structure Input where
  machine : Machine
  allocOptions : AllocOptions
  procedures : List Procedure
  /-- How long reading the procedures took. -/
  elapsed : String

def loadProcedures (host : Host m) (machine : Machine) (path : String) :
    ExceptT StartError m (List Procedure × String) := do
  match ← host.readFile path with
  | .error e => throw (.unreadableInput path e)
  | .ok text =>
      let (result, elapsed) ← host.timed fun _ => Procedure.parseText machine text
      match result with
      | .error e => throw (.parse e)
      | .ok procedures => return (procedures, elapsed)

def load (host : Host m) (o : Options) : ExceptT StartError m Input := do
  let machine ← loadMachine host o.machineFile
  let allocOptions ← loadOptions host o.allocFile
  match o.inputFile with
  | none => throw (.options .noInput)
  | some path => do
      let (procedures, elapsed) ← loadProcedures host machine path
      return { machine, allocOptions, procedures, elapsed }

/-! ## Dumps -/

def lines (ls : List String) : String := String.join (ls.map (· ++ "\n"))

/-- The names of the registers. -/
def registerNames (machine : Machine) : NameMap :=
  .ofList (machine.registers.filterMap fun r => (machine.asmName? r).map fun name => (r, name))

/-- The selected instructions of a procedure. -/
def instrsDump (name : Label) (instrs : List Instr) : String :=
  lines (("Function: " ++ name) :: instrs.map (·.display))

/-- The live sets and the interference graph of the selected instructions, if they have any. -/
def livenessDump (machine : Machine) (name : Label) (instrs : List Instr) : String :=
  let dump : Option String := do
    let flow ← (FlowGraph.build instrs).toOption
    let live ← (Liveness.analyze flow).toOption
    let names := registerNames machine
    return s!"Liveness of {name} ({live.passes} passes):\n" ++ live.dump names
      ++ s!"Interference of {name}:\n" ++ (Interference.build machine flow live).dump machine names
  dump.getD ""

/-- What the options want to see of a procedure. -/
def attemptDump (o : Options) (machine : Machine) (a : Attempt) : String :=
  match a.selected? with
  | none => ""
  | some instrs =>
      (if o.dumpInstrs then instrsDump a.name instrs else "")
        ++ (if o.dumpLiveness then livenessDump machine a.name instrs else "")

def treeDump (o : Options) (ps : List Procedure) : String :=
  if o.dumpTree then lines (ps.map (·.print)) else ""

/-! ## Writing -/

/-- The line that tells why a procedure failed. -/
def failureLine? (a : Attempt) : Option String :=
  match a.outcome with
  | .ok _ => none
  | .error e => some (a.name ++ ": " ++ e.message)

/-- The output of a kind. -/
def outputText (kind : OutputKind) (attempts : List Attempt) (allocations : List Allocation) :
    String :=
  match kind with
  | .selected => Output.selected (Attempt.selections attempts)
  | .assembly => Output.assembly allocations
  | .report => Output.report allocations

/-- Exit codes of a run. -/
def success : Nat := 0

def failure : Nat := 1

/-- Write the output where the options want it. -/
def writeOutput (host : Host m) (o : Options) (text : String) : m Nat := do
  match o.outputFile with
  | none =>
      host.print text
      return success
  | some path =>
      match ← host.writeFile path text with
      | .ok () => return success
      | .error e =>
          host.report (lines [e.message])
          return failure

/-- Compile what was read. -/
def compile (host : Host m) (o : Options) (input : Input) : m Nat := do
  -- dumps go out even where compiling fails
  host.print (treeDump o input.procedures)
  let ((attempts, _), elapsed) ← host.timed fun _ =>
    Procedure.compileFile input.procedures input.machine input.allocOptions
  host.print (String.join (attempts.map (attemptDump o input.machine)))
  match Attempt.allocations? attempts with
  | none =>
      host.report (lines (attempts.filterMap failureLine?))
      return failure
  | some allocations => do
      if o.verbose then
        host.print (lines
          [s!"Parse time: {input.elapsed} us", s!"Codegen and allocation: {elapsed} us"])
      writeOutput host o (outputText o.output attempts allocations)

/-- Run the compiler; the answer is the exit code. -/
def run (host : Host m) (args : List String) : m Nat := do
  match Options.ofArgs args with
  | .error e =>
      host.report (lines [e.message])
      return failure
  | .ok o =>
      match ← (load host o).run with
      | .error e =>
          host.report (lines [e.message])
          return failure
      | .ok input => compile host o input

/-- A run on files in memory: the exit code, and what it leaves behind. -/
def runOn (elapsed : String) (files : Files) (args : List String) : Nat × Session :=
  (run (Session.host elapsed) args).run { files }

end CommandLine

end TreeCompiler
