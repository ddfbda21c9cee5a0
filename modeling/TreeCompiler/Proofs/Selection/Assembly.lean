import TreeCompiler.Selection.Operation
import TreeCompiler.Machine.X86

/-!
# Assembly — the lines that operations are written as

The text of an operation as data: a mnemonic, and operands in the order of AT&T syntax, sources
first and destination last.  A register is named by its place among the uses or the definitions of
the instruction.  `Operation.text_instr` says that for the built-in machine the text of each
operation is its line as it is printed here.
-/

namespace TreeCompiler

/-- The built-in machine with a symbol for the frame size. -/
abbrev Target.x86_64 (symbol : String) : Target := ⟨Machine.x86_64, symbol⟩

namespace Assembly

/-- A register of an instruction. -/
inductive Slot
  | use (n : Nat)
  | definition (n : Nat)
  deriving DecidableEq

def Slot.print : Slot → String
  | .use n => s!"`s{n}"
  | .definition n => s!"`d{n}"

inductive Operand
  | slot (s : Slot)
  | immediate (c : Int)
  /-- The word at an offset, and perhaps a symbol, from a register. -/
  | memory (symbol : Option String) (offset : Int) (base : Slot)
  deriving DecidableEq

def Operand.print : Operand → String
  | .slot s => s.print
  | .immediate c => "$" ++ toString c
  | .memory (some symbol) offset base =>
      symbol ++ (if offset = 0 then "" else signed offset) ++ s!"({base.print})"
  | .memory none offset base => (if offset = 0 then "" else toString offset) ++ s!"({base.print})"

@[simp] theorem Operand.print_slot (s : Slot) : (Operand.slot s).print = s.print := rfl

@[simp] theorem Operand.print_immediate (c : Int) :
    (Operand.immediate c).print = "$" ++ toString c := rfl

inductive Line
  | label (l : Label)
  | move (source destination : Operand)
  /-- The address of a place in memory. -/
  | loadAddress (place : Operand) (destination : Slot)
  /-- The address of a label. -/
  | loadLabel (l : Label) (destination : Slot)
  | arith (op : ArithOp) (source : Operand) (destination : Slot)
  | multiply (source : Slot)
  | signExtend
  | divide (source : Slot)
  | shift (op : ShiftOp) (count : Int) (destination : Slot)
  /-- Shifts by the count in `%cl`. -/
  | shiftByCount (op : ShiftOp) (destination : Slot)
  /-- Compares its last operand with its first one. -/
  | compare (right : Operand) (left : Slot)
  | branch (op : RelOp)
  | jump
  | jumpTo (address : Slot)
  | call (l : Label)
  | callTo (address : Slot)
  | nothing
  deriving DecidableEq

def Line.print : Line → String
  | .label l => l ++ ":"
  | .move s d => s!"movq {s.print}, {d.print}"
  | .loadAddress a d => s!"leaq {a.print}, {d.print}"
  | .loadLabel l d => s!"leaq {l}(%rip), {d.print}"
  | .arith op s d => s!"{op.mnemonic} {s.print}, {d.print}"
  | .multiply s => s!"imulq {s.print}"
  | .signExtend => "cqto"
  | .divide s => s!"idivq {s.print}"
  | .shift op c d => s!"{op.mnemonic} ${c}, {d.print}"
  | .shiftByCount op d => s!"{op.mnemonic} %cl, {d.print}"
  | .compare r l => s!"cmpq {r.print}, {l.print}"
  | .branch op => s!"{op.jumpMnemonic} `j0"
  | .jump => "jmp `j0"
  | .jumpTo a => s!"jmp *{a.print}"
  | .call l => s!"callq {l}"
  | .callTo a => s!"callq *{a.print}"
  | .nothing => ""

end Assembly

open Assembly

/-- A place in memory as an operand whose base register is the use of the given number. -/
def Address.operand (symbol : String) (n : Nat) : Address → Assembly.Operand
  | .frame offset => .memory (some symbol) offset (.use n)
  | .base _ offset => .memory none offset (.use n)

theorem Address.print_operand (symbol : String) (n : Nat) (a : Address) :
    (a.operand symbol n).print = a.text (.x86_64 symbol) n := by
  cases a <;> rfl

/-- The line that an operation is written as. -/
def Operation.line (symbol : String) : Operation → Line
  | .label l => .label l
  | .copy _ _ => .move (.slot (.use 0)) (.slot (.definition 0))
  | .constant _ c => .move (.immediate c) (.slot (.definition 0))
  | .labelAddress _ l => .loadLabel l (.definition 0)
  | .frameAddress _ offset => .loadAddress ((Address.frame offset).operand symbol 0) (.definition 0)
  | .load _ a => .move (a.operand symbol 0) (.slot (.definition 0))
  | .store _ a => .move (.slot (.use 0)) (a.operand symbol 1)
  | .storeConstant c a => .move (.immediate c) (a.operand symbol 0)
  | .arith op _ (.imm c) => .arith op (.immediate c) (.definition 0)
  | .arith op _ (.temp _) => .arith op (.slot (.use 0)) (.definition 0)
  | .multiply _ => .multiply (.use 0)
  | .signExtend => .signExtend
  | .divide _ => .divide (.use 0)
  | .shiftConstant op _ c => .shift op c (.definition 0)
  | .shift op _ => .shiftByCount op (.definition 0)
  | .compare _ (.imm c) => .compare (.immediate c) (.use 0)
  | .compare _ (.temp _) => .compare (.slot (.use 1)) (.use 0)
  | .branch op _ _ => .branch op
  | .jump _ => .jump
  | .jumpTo _ _ => .jumpTo (.use 0)
  | .call (.direct l) _ => .call l
  | .call (.indirect _) _ => .callTo (.use 0)
  | .exit => .nothing

/-- The text of an operation is its line. -/
theorem Operation.text_instr (symbol : String) (op : Operation) :
    (op.instr (.x86_64 symbol)).text = (op.line symbol).print := by
  apply String.toList_injective
  unfold instr
  split <;> simp [line, Line.print, Slot.print, Address.print_operand,
    Instr.ofLabel, Instr.copy, Instr.plain, Instr.branch, Instr.jump, Instr.text, moveText,
    Machine.x86_64, String.toList_append, toString, Nat.toDigits_of_lt_base, Nat.digitChar]

end TreeCompiler
