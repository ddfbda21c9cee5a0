/-!
# Command line options
-/

namespace TreeCompiler

/-- What is written out. -/
inductive OutputKind
  /-- The selected instructions, before allocation. -/
  | selected
  | assembly
  /-- A report on the allocation. -/
  | report
  deriving DecidableEq

def OutputKind.ofName? : String → Option OutputKind
  | "abs" => some .selected
  | "asm" => some .assembly
  | "x86-64" => some .assembly
  | "json" => some .report
  | _ => none

structure Options where
  /-- Print how long the phases took. -/
  verbose : Bool := false
  /-- Print the procedures as they were read. -/
  dumpTree : Bool := false
  /-- Print the selected instructions. -/
  dumpInstrs : Bool := false
  /-- Print live sets and the interference graph. -/
  dumpLiveness : Bool := false
  output : OutputKind := .assembly
  /-- The file of a machine description; without one, the built-in machine is used. -/
  machineFile : Option String := none
  /-- The file of allocator options. -/
  allocFile : Option String := none
  /-- Where the output goes, if not to the standard output. -/
  outputFile : Option String := none
  /-- The file to compile. -/
  inputFile : Option String := none
  deriving DecidableEq

inductive OptionsError
  | missingValue (flag : String)
  | unknownOutput (name : String)
  | unknownOption (flag : String)
  | noInput
  deriving DecidableEq

def OptionsError.message : OptionsError → String
  | .missingValue flag => "Expected a value after " ++ flag
  | .unknownOutput name => "Unknown emit type : " ++ name
  | .unknownOption flag => "Unknown option " ++ flag
  | .noInput => "Expected file input"

namespace Options

/-- The flags that stand alone. -/
def switch? (o : Options) : String → Option Options
  | "-v" => some { o with verbose := true }
  | "--verbose" => some { o with verbose := true }
  | "--dump-tree" => some { o with dumpTree := true }
  | "--dump-assem" => some { o with dumpInstrs := true }
  | "--dump-liveness" => some { o with dumpLiveness := true }
  | _ => none

/-- The name in messages of a flag that takes a value. -/
def valueFlag? : String → Option String
  | "-e" => some "--emit"
  | "--emit" => some "--emit"
  | "--target" => some "--target"
  | "--config" => some "--config"
  | "-o" => some "-o"
  | _ => none

/-- Set the value of a flag. -/
def setValue (o : Options) (flag value : String) : Except OptionsError Options :=
  if flag = "--emit" then
    match OutputKind.ofName? value with
    | some kind => .ok { o with output := kind }
    | none => .error (.unknownOutput value)
  else if flag = "--target" then .ok { o with machineFile := some value }
  else if flag = "--config" then .ok { o with allocFile := some value }
  else .ok { o with outputFile := some value }

/-- A word that is no known flag: an unknown one, or the file to compile. -/
def setInput (o : Options) (word : String) : Except OptionsError Options :=
  if word.startsWith "-" then .error (.unknownOption word)
  else .ok { o with inputFile := some word }

/-- Read the words of a command line; of repeated settings the last one holds. -/
def read (o : Options) : List String → Except OptionsError Options
  | [] => if o.inputFile.isNone then .error .noInput else .ok o
  | word :: rest =>
      match o.switch? word with
      | some o' => o'.read rest
      | none =>
          match valueFlag? word with
          | none => do (← o.setInput word).read rest
          | some flag =>
              match rest with
              | [] => .error (.missingValue flag)
              | value :: rest' => do (← o.setValue flag value).read rest'

/-- The options of a command line, the name of the program apart. -/
def ofArgs (args : List String) : Except OptionsError Options := ({} : Options).read args

end Options

end TreeCompiler
