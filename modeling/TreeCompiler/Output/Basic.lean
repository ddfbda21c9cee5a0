import TreeCompiler.Allocation
import TreeCompiler.Instr.Template
import TreeCompiler.Output.Json

/-!
# Output — the written forms of a compiled file

- `Output.assembly` : assembly text, each body between an entry and an exit;
- `Output.selected` : the selected instructions with temps by number;
- `Output.report` : a report on the allocation as JSON.
-/

namespace TreeCompiler

namespace Output

/-! ## Assembly -/

/-- The line of an instruction; one without text has none, unless it is a label. -/
def assemblyLine (coloring : NameMap) (i : Instr) : String :=
  let text := i.fill coloring
  match i with
  | .label _ _ => text ++ "\n"
  | _ => if text.isEmpty then "" else "\t" ++ text ++ "\n"

/-- The symbol of the frame size is set, and the stack pointer moves by the frame size on entry and
back on exit. -/
def assemblyOf (a : Allocation) : String :=
  let size := toString a.frame.size
  ".globl " ++ a.frame.name ++ "\n"
    ++ ".set " ++ a.frame.sizeSymbol ++ ", " ++ size ++ "\n"
    ++ a.frame.name ++ ":\n"
    ++ "\tsubq $" ++ size ++ ", %rsp\n"
    ++ String.join (a.instrs.map (assemblyLine a.coloring))
    ++ "\taddq $" ++ size ++ ", %rsp\n"
    ++ "\tretq\n\n"

def assembly (as : List Allocation) : String := String.join (as.map assemblyOf)

/-! ## Selected instructions -/

/-- A number, filled with blanks from the left up to a width. -/
def padLeft (width n : Nat) : String :=
  let digits := toString n
  String.ofList (List.replicate (width - digits.length) ' ') ++ digits

/-- Numbered instructions, one a line. -/
def numberedLines (i : Nat) : List Instr → String
  | [] => ""
  | instr :: rest =>
      padLeft 4 i ++ "  " ++ instr.fill .empty ++ "\n" ++ numberedLines (i + 1) rest

def selectedOf (name : Label) (instrs : List Instr) : String :=
  name ++ ":\n" ++ numberedLines 0 instrs ++ "\n"

def selected (procs : List (Label × List Instr)) : String :=
  String.join (procs.map fun p => selectedOf p.1 p.2)

/-! ## Report -/

/-- The registers of the virtual temps, sorted by the spelling of the temps. -/
def coloringFields (coloring : NameMap) : List (String × Json) :=
  let virtual := coloring.entries.filter fun e => e.1.isVirtual
  let named := virtual.map fun e => (e.1.display, Json.string e.2)
  named.mergeSort fun a b => a.1 ≤ b.1

def reportOf (a : Allocation) : Json :=
  .object [
    ("name", .string a.frame.name),
    ("frame_size", .number a.frame.size),
    ("outgoing_size", .number a.frame.outgoingSize),
    ("rounds", .number a.rounds),
    ("spilled", .array (a.spilled.map fun t => .string t.display)),
    ("coloring", .object (coloringFields a.coloring)),
    ("instrs", .array (((a.instrs.map (·.fill a.coloring)).filter (!·.isEmpty)).map .string))]

def report (as : List Allocation) : String := (Json.array (as.map reportOf)).render

end Output

end TreeCompiler
