import TreeCompiler.Selection.Emit

/-!
# Tile — selecting operations for trees

A tree is covered from the root with the largest tiles that fit.  An expression leaves its value in
a temp, a statement only has its effect.  Operands are evaluated from left to right.

A tile is written as a combinator over the actions that evaluate its operands, so that the mutual
recursion over trees (`Exp.select`, `Stm.select`) follows their structure.
-/

namespace TreeCompiler

namespace Selection

/-! ## Operands -/

/-- A constant that fits an immediate operand. -/
def immediate? (e : Exp) : Option Int := e.constant?.filter isImm32

def isFramePointer (target : Target) : Exp → Bool
  | .temp t => t = target.machine.framePointer
  | _ => false

/-- Move a value out of a machine register, so that it survives later moves to fixed registers. -/
def intoVirtual (target : Target) (value : SelectM Temp) : SelectM Temp := do
  let t ← value
  if target.machine.isRegister t then
    let dst ← fresh
    emit (.copy dst t)
    return dst
  else
    return t

/-- The right operand `e`: an immediate if it fits, else the temp of its value. -/
def operand (e : Exp) (value : SelectM Temp) : SelectM Operand :=
  match immediate? e with
  | some c => return .imm c
  | none => .temp <$> value

/-! ## Addresses -/

/-- The address `e + offset`, where the frame pointer is a base of its own. -/
def baseAddress (target : Target) (e : Exp) (value : SelectM Temp) (offset : Int) :
    SelectM Address :=
  if isFramePointer target e then return .frame offset
  else do return .base (← value) offset

/-- The address `l + r` with a constant folded in, or else the value of the sum. -/
def sumAddress (target : Target) (l r : Exp) (left right sum : SelectM Temp) : SelectM Address :=
  match immediate? r, immediate? l with
  | some c, _ => baseAddress target l left c
  | none, some c => baseAddress target r right c
  | none, none => do return .base (← sum) 0

/-- The address `l - r` with a constant folded in, or else the value of the difference. -/
def differenceAddress (target : Target) (l r : Exp) (left difference : SelectM Temp) :
    SelectM Address :=
  match r.constant?.map (- ·) with
  | some c => if isImm32 c then baseAddress target l left c else do return .base (← difference) 0
  | none => do return .base (← difference) 0

/-! ## Values -/

/-- A temp is its own value, but the frame pointer has to be computed. -/
def tempValue (target : Target) (t : Temp) : SelectM Temp :=
  if t = target.machine.framePointer then do
    let dst ← fresh
    emit (.frameAddress dst 0)
    return dst
  else
    return t

def labelValue (l : Label) : SelectM Temp := do
  let dst ← fresh
  emit (.labelAddress dst l)
  return dst

def constantValue (c : Int) : SelectM Temp := do
  let dst ← fresh
  emit (.constant dst c)
  return dst

/-- Load a word into a temp. -/
def loadInto (dst : Temp) (address : SelectM Address) : SelectM Unit := do
  let a ← address
  emit (.load dst a)

def loadValue (address : SelectM Address) : SelectM Temp := do
  let dst ← fresh
  loadInto dst address
  return dst

/-- Copy the left operand and combine the copy with the right one. -/
def arith (op : ArithOp) (left : SelectM Temp) (right : SelectM Operand) : SelectM Temp := do
  let l ← left
  let r ← right
  let dst ← fresh
  emit (.copy dst l)
  emit (.arith op dst r)
  return dst

/-- Multiply in the registers that multiplication is tied to. -/
def multiply (target : Target) (left right : SelectM Temp) : SelectM Temp := do
  let low := target.machine.roles.mulDiv.1
  let l ← left
  -- the copy to `low` must not overwrite the right operand
  let r ← intoVirtual target right
  emit (.copy low l)
  emit (.multiply r)
  let dst ← fresh
  emit (.copy dst low)
  return dst

/-- Divide in the registers that division is tied to. -/
def divide (target : Target) (left right : SelectM Temp) : SelectM Temp := do
  let low := target.machine.roles.mulDiv.1
  let l ← left
  let r ← intoVirtual target right
  emit (.copy low l)
  emit .signExtend
  emit (.divide r)
  let dst ← fresh
  emit (.copy dst low)
  return dst

/-- Shift a copy of the left operand; a constant count is taken modulo 64, any other one goes
through the shift count register. -/
def shift (target : Target) (op : ShiftOp) (r : Exp) (left right : SelectM Temp) :
    SelectM Temp := do
  let l ← left
  match r.constant? with
  | some c =>
      let dst ← fresh
      emit (.copy dst l)
      emit (.shiftConstant op dst (c % 64))
      return dst
  | none =>
      let count ← intoVirtual target right
      let dst ← fresh
      emit (.copy dst l)
      emit (.copy target.machine.roles.shiftCount count)
      emit (.shift op dst)
      return dst

/-- The address of a place in the frame, or a sum. -/
def sum (target : Target) (l r : Exp) (left right : SelectM Temp) : SelectM Temp :=
  match isFramePointer target l, immediate? r with
  | true, some c => do
      let dst ← fresh
      emit (.frameAddress dst c)
      return dst
  | _, _ => arith .add left (operand r right)

/-- The value of `l op r`, given the actions that evaluate `l` and `r`. -/
def binop (target : Target) (op : BinOp) (l r : Exp) (left right : SelectM Temp) :
    SelectM Temp :=
  match op with
  | .plus => sum target l r left right
  | .minus => arith .sub left (operand r right)
  | .and => arith .and left (operand r right)
  | .or => arith .or left (operand r right)
  | .xor => arith .xor left (operand r right)
  | .mul => multiply target left right
  | .div => divide target left right
  | .lshift => shift target .left r left right
  | .rshift => shift target .right r left right
  | .arshift => shift target .rightArith r left right

/-! ## Calls -/

/-- What is called: a label directly, anything else through a temp. -/
def callee (target : Target) (f : Exp) (value : SelectM Temp) : SelectM Callee :=
  match f with
  | .name l => return .direct l
  | _ => .indirect <$> intoVirtual target value

/-- The address of an argument in memory: words are counted upwards from the stack pointer. -/
def argumentAddress (target : Target) (slot : Nat) : Address :=
  .base target.machine.stackPointer (wrap64 (slot * target.machine.wordSize))

/-- Store arguments upwards from the stack pointer, beginning with the word `slot`. -/
def storeArguments (target : Target) (slot : Nat) : List Temp → SelectM Unit
  | [] => return ()
  | v :: rest => do
      emit (.store v (argumentAddress target slot))
      storeArguments target (slot + 1) rest

/-- Move arguments to the registers that carry them. -/
def moveArguments : List (Temp × Temp) → SelectM Unit
  | [] => return ()
  | (v, r) :: rest => do
      emit (.copy r v)
      moveArguments rest

/-- Evaluate callee and arguments, pass the arguments and call; the result is left in the return
value register. -/
def call (target : Target) (function : SelectM Callee) (arguments : SelectM (List Temp)) :
    SelectM Unit := do
  let f ← function
  let values ← arguments
  -- everything is evaluated before the first argument register is written
  let registers := target.machine.roles.arguments
  storeArguments target 0 (values.drop registers.length)
  reserveOutgoing (values.length - registers.length)
  let passed := values.zip registers
  moveArguments passed
  emit (.call f (passed.map (·.2)))

/-- The result of a call in a temp of its own. -/
def callValue (target : Target) (call : SelectM Unit) : SelectM Temp := do
  call
  let dst ← fresh
  emit (.copy dst target.machine.roles.returnValue)
  return dst

/-! ## Statements -/

/-- A label in the expression is jumped to directly, any other address through a temp. -/
def jump (e : Exp) (labels : List Label) (value : SelectM Temp) : SelectM Unit :=
  match e with
  | .name l => emit (.jump (if labels = [] then [l] else labels))
  | _ => do
      let t ← value
      emit (.jumpTo t labels)

/-- Compare and branch.  A constant on the left changes places with another operand on the right,
where it can be an immediate. -/
def cjump (op : RelOp) (l r : Exp) (left right : SelectM Temp) (ifTrue ifFalse : Label) :
    SelectM Unit := do
  match l.constant?, r.constant? with
  | some _, none =>
      let a ← right
      let b ← operand l left
      emit (.compare a b)
      emit (.branch op.commute ifTrue ifFalse)
  | _, _ =>
      let a ← left
      let b ← operand r right
      emit (.compare a b)
      emit (.branch op ifTrue ifFalse)

/-- Store a source in memory. -/
def moveToMemory (source : Exp) (address : SelectM Address) (value : SelectM Temp) :
    SelectM Unit := do
  let a ← address
  match immediate? source with
  | some c => emit (.storeConstant c a)
  | none =>
      let v ← value
      emit (.store v a)

/-- Move a source to a temp; `load?` is the address of a source in memory. -/
def moveToTemp (t : Temp) (source : Exp) (load? : Option (SelectM Address))
    (value : SelectM Temp) : SelectM Unit :=
  match source.constant?, load? with
  | some c, _ => emit (.constant t c)
  | none, some address => loadInto t address
  | none, none => do
      let v ← value
      emit (.copy t v)

end Selection

open Selection

/-! ## Trees -/

mutual

/-- Select operations that leave the value of an expression in a temp. -/
def Exp.select (target : Target) : Exp → SelectM Temp
  | .binop op l r => binop target op l r (l.select target) (r.select target)
  | .mem a => loadValue (a.selectAddress target (a.select target))
  | .temp t => tempValue target t
  | .eseq s e => do
      s.select target
      e.select target
  | .name l => labelValue l
  | .const c => constantValue c
  | .call f args =>
      callValue target (call target (callee target f (f.select target)) (Exp.selectAll target args))

/-- Values of arguments, each moved out of the machine registers. -/
def Exp.selectAll (target : Target) : List Exp → SelectM (List Temp)
  | [] => return []
  | e :: es => do
      let t ← intoVirtual target (e.select target)
      let ts ← Exp.selectAll target es
      return t :: ts

/-- Select operations for an address, where `value` evaluates all of it. -/
def Exp.selectAddress (target : Target) : Exp → SelectM Temp → SelectM Address
  | .binop .plus l r, value => sumAddress target l r (l.select target) (r.select target) value
  | .binop .minus l r, value => differenceAddress target l r (l.select target) value
  | e, value => baseAddress target e value 0

/-- The address of an expression that reads memory. -/
def Exp.selectSource? (target : Target) : Exp → Option (SelectM Address)
  | .mem a => some (a.selectAddress target (a.select target))
  | _ => none

/-- Select operations that move a source to the place that an expression denotes. -/
def Exp.selectDestination (target : Target) :
    Exp → Exp → Option (SelectM Address) → SelectM Temp → SelectM Unit
  | .mem a, source, _, value =>
      moveToMemory source (a.selectAddress target (a.select target)) value
  | .temp t, source, load?, value => moveToTemp t source load? value
  | .eseq s d, source, load?, value => do
      s.select target
      d.selectDestination target source load? value
  | d, _, _, _ => throw (.badDestination d)

/-- Select operations with the effect of a statement. -/
def Stm.select (target : Target) : Stm → SelectM Unit
  | .seq a b => do
      a.select target
      b.select target
  | .label l => emit (.label l)
  | .jump e labels => jump e labels (e.select target)
  | .cjump op l r t f => cjump op l r (l.select target) (r.select target) t f
  | .move d s => d.selectDestination target s (s.selectSource? target) (s.select target)
  | .exp (.call f args) =>
      call target (callee target f (f.select target)) (Exp.selectAll target args)
  | .exp e => discard (e.select target)

end

/-- Select operations for statements in order. -/
def Stm.selectAll (target : Target) : List Stm → SelectM Unit
  | [] => return ()
  | s :: rest => do
      s.select target
      Stm.selectAll target rest

/-! ## Procedures -/

namespace Selection

/-- Instructions, and the frame that they need. -/
structure Selected where
  instrs : List Instr
  frame : Frame

end Selection

/-- Select the instructions of a procedure body.  The last instruction keeps alive what must outlive
the procedure, and the frame gets room for the widest call.  The namer is returned also on failure.
-/
def Frame.select (frame : Frame) (m : Machine) (body : List Stm) (n : Namer) :
    Except SelectionError Selected × Namer :=
  let target : Target := ⟨m, frame.sizeSymbol⟩
  let select : SelectM Unit := do
    Stm.selectAll target body
    emit .exit
  let (result, s) := select.run.run { namer := n }
  let instrs := s.operations.toList.map (·.instr target)
  (result.map fun _ => ⟨instrs, frame.reserveOutgoing s.memoryArguments⟩, s.namer)

end TreeCompiler
