import TreeCompiler.Frame
import TreeCompiler.Instr.Basic

/-!
# Operation — the machine operations that trees are tiled with

An `Operation` is an x86-64 instruction with its operands as data.  `Operation.instr` writes it as
an instruction: a template in AT&T syntax, and the temps that it uses and defines.

The frame pointer is virtual, so a place in the frame is addressed from the stack pointer through
the symbol of the frame size.
-/

namespace TreeCompiler

/-! ## Operands -/

/-- Immediates are 32 bits, extended by their sign. -/
def isImm32 (c : Int) : Bool := -0x80000000 ≤ c && c ≤ 0x7fffffff

theorem wrap64_of_isImm32 {c : Int} (h : isImm32 c = true) : wrap64 c = c := by
  rw [isImm32, Bool.and_eq_true, decide_eq_true_eq, decide_eq_true_eq] at h
  exact wrap64_eq_self (by omega) (by omega)

/-- A memory operand. -/
inductive Address
  /-- An offset from the frame pointer. -/
  | frame (offset : Int)
  | base (t : Temp) (offset : Int)
  deriving DecidableEq

/-- A right operand. -/
inductive Operand
  | imm (c : Int)
  | temp (t : Temp)
  deriving DecidableEq

inductive ArithOp
  | add | sub | and | or | xor
  deriving DecidableEq

def ArithOp.mnemonic : ArithOp → String
  | .add => "addq"
  | .sub => "subq"
  | .and => "andq"
  | .or => "orq"
  | .xor => "xorq"

inductive ShiftOp
  | left | right | rightArith
  deriving DecidableEq

def ShiftOp.mnemonic : ShiftOp → String
  | .left => "salq"
  | .right => "shrq"
  | .rightArith => "sarq"

/-- The jump that is taken when the comparison of its operands holds. -/
def RelOp.jumpMnemonic : RelOp → String
  | .eq => "je"
  | .ne => "jne"
  | .lt => "jl"
  | .gt => "jg"
  | .le => "jle"
  | .ge => "jge"
  | .ult => "jb"
  | .ule => "jbe"
  | .ugt => "ja"
  | .uge => "jae"

inductive Callee
  | direct (label : Label)
  | indirect (t : Temp)
  deriving DecidableEq

/-! ## Operations -/

inductive Operation
  | label (l : Label)
  | copy (dst src : Temp)
  | constant (dst : Temp) (c : Int)
  | labelAddress (dst : Temp) (l : Label)
  | frameAddress (dst : Temp) (offset : Int)
  | load (dst : Temp) (a : Address)
  | store (src : Temp) (a : Address)
  | storeConstant (c : Int) (a : Address)
  /-- Combines the destination with the right operand. -/
  | arith (op : ArithOp) (dst : Temp) (right : Operand)
  /-- Multiplies the low register of the pair by the operand; the product fills the pair. -/
  | multiply (right : Temp)
  /-- Extends the low register of the pair into the high one. -/
  | signExtend
  /-- Divides the pair by the operand; quotient and remainder fill the pair. -/
  | divide (right : Temp)
  | shiftConstant (op : ShiftOp) (dst : Temp) (count : Int)
  /-- Shifts by the contents of the shift count register. -/
  | shift (op : ShiftOp) (dst : Temp)
  | compare (left : Temp) (right : Operand)
  | branch (op : RelOp) (ifTrue ifFalse : Label)
  /-- Jumps to the first of the labels. -/
  | jump (labels : List Label)
  | jumpTo (address : Temp) (labels : List Label)
  /-- Calls with the first arguments in these registers. -/
  | call (callee : Callee) (arguments : List Temp)
  /-- Keeps alive at the end what must outlive the procedure. -/
  | exit
  deriving DecidableEq

/-- What operations are written for. -/
structure Target where
  machine : Machine
  /-- The symbol of the frame size. -/
  sizeSymbol : String

/-- An integer with its sign, also if it is not negative. -/
def signed (n : Int) : String := if 0 ≤ n then "+" ++ toString n else toString n

namespace Address

/-- A memory operand whose base register is the use of the given number. -/
def text (target : Target) (slot : Nat) : Address → String
  | .frame offset =>
      target.sizeSymbol ++ (if offset = 0 then "" else signed offset) ++ s!"(`s{slot})"
  | .base _ offset => (if offset = 0 then "" else toString offset) ++ s!"(`s{slot})"

/-- The temp that has to be that use. -/
def register (target : Target) : Address → Temp
  | .frame _ => target.machine.stackPointer
  | .base t _ => t

end Address

/-- What a call may change: the caller-saves and the return value. -/
def Machine.callDefs (m : Machine) : List Temp :=
  if m.roles.returnValue ∈ m.roles.callerSaves then m.roles.callerSaves
  else m.roles.callerSaves ++ [m.roles.returnValue]

namespace Operation

def moveText : String := "movq `s0, `d0"

/-- An operation as an instruction. -/
def instr (target : Target) : Operation → Instr
  | .label l => .ofLabel l
  | .copy dst src => .copy moveText dst src
  | .constant dst c => .plain s!"movq ${c}, `d0" [dst] []
  | .labelAddress dst l => .plain s!"leaq {l}(%rip), `d0" [dst] []
  | .frameAddress dst offset =>
      let a := Address.frame offset
      .plain s!"leaq {a.text target 0}, `d0" [dst] [a.register target]
  | .load dst a => .plain s!"movq {a.text target 0}, `d0" [dst] [a.register target]
  | .store src a => .plain s!"movq `s0, {a.text target 1}" [] [src, a.register target]
  | .storeConstant c a => .plain s!"movq ${c}, {a.text target 0}" [] [a.register target]
  | .arith op dst (.imm c) => .plain s!"{op.mnemonic} ${c}, `d0" [dst] [dst]
  | .arith op dst (.temp t) => .plain s!"{op.mnemonic} `s0, `d0" [dst] [t, dst]
  | .multiply right =>
      let (low, high) := target.machine.roles.mulDiv
      .plain "imulq `s0" [low, high] [right, low]
  | .signExtend =>
      let (low, high) := target.machine.roles.mulDiv
      .plain "cqto" [high] [low]
  | .divide right =>
      let (low, high) := target.machine.roles.mulDiv
      .plain "idivq `s0" [low, high] [right, low, high]
  | .shiftConstant op dst c => .plain s!"{op.mnemonic} ${c}, `d0" [dst] [dst]
  | .shift op dst =>
      .plain s!"{op.mnemonic} {target.machine.shiftOperand}, `d0" [dst]
        [target.machine.roles.shiftCount, dst]
  | .compare left (.imm c) => .plain s!"cmpq ${c}, `s0" [] [left]
  | .compare left (.temp right) => .plain "cmpq `s1, `s0" [] [left, right]
  | .branch op ifTrue ifFalse => .branch s!"{op.jumpMnemonic} `j0" [ifTrue, ifFalse]
  | .jump labels => .jump "jmp `j0" [] labels
  | .jumpTo address labels => .jump "jmp *`s0" [address] labels
  | .call (.direct l) arguments => .plain s!"callq {l}" target.machine.callDefs arguments
  | .call (.indirect t) arguments =>
      .plain "callq *`s0" target.machine.callDefs (t :: arguments)
  | .exit => .plain "" [] target.machine.returnSink

end Operation

end TreeCompiler
