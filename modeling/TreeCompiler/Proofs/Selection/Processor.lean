import Mathlib.Logic.Function.Basic
import TreeCompiler.Proofs.Selection.Assembly
import TreeCompiler.Proofs.Selection.Comparison

/-!
# Processor — what lines of assembly do

The meaning of the lines that operations are written as.  The registers of an instruction are its
uses and definitions; multiplication, division, shifts by a count and calls also work on registers
of their own, whatever the instruction lists.  A call is answered from outside (`Reply`): nothing is
known of the word it returns, of what it makes of memory and of what it leaves in the registers that
it may change.  What is read and called is kept in order (`Interaction`).

`Operation.exec` is the effect of an operation, and there is one equation for each operation that
expressions are covered with.
-/

namespace TreeCompiler

open Assembly

/-! ## Registers -/

namespace X86

def rax : Temp := ⟨0⟩
def rcx : Temp := ⟨2⟩
def rdx : Temp := ⟨3⟩
def rsi : Temp := ⟨4⟩
def rdi : Temp := ⟨5⟩
def r8 : Temp := ⟨6⟩
def r9 : Temp := ⟨7⟩
def r10 : Temp := ⟨8⟩
def r11 : Temp := ⟨9⟩
def rsp : Temp := ⟨15⟩

example : [rax, rcx, rdx, rsi, rdi, r8, r9, r10, r11, rsp].map Machine.x86_64.name? =
    ["rax", "rcx", "rdx", "rsi", "rdi", "r8", "r9", "r10", "r11", "rsp"].map some := by decide

/-- Registers that carry the first arguments of a call, in order. -/
def argumentRegisters : List Temp := [rdi, rsi, rdx, rcx, r8, r9]

/-- Registers that a call may change. -/
def scratchRegisters : List Temp := [rax, rcx, rdx, rsi, rdi, r8, r9, r10, r11]

end X86

open X86

/-! ## The world outside -/

/-- What an evaluation does that can be seen from outside. -/
inductive Interaction
  | read (address value : Word)
  | call (callee : Word) (arguments : List Word) (memory : Memory)

/-- What a call comes back with. -/
structure Reply where
  value : Word
  memory : Memory
  /-- What is left in the registers that a call may change. -/
  scratch : Temp → Word

structure World where
  memory : Memory
  /-- Replies to the calls to come. -/
  replies : Nat → Reply
  history : List Interaction

namespace World

/-- Note that the word at an address is read. -/
def read (w : World) (a : Word) : World :=
  { w with history := w.history ++ [.read a (w.memory.load a)] }

def store (w : World) (a v : Word) : World := { w with memory := w.memory.store a v }

def call (w : World) (callee : Word) (arguments : List Word) : World where
  memory := (w.replies 0).memory
  replies := fun n => w.replies (n + 1)
  history := w.history ++ [.call callee arguments w.memory]

end World

/-! ## Arithmetic -/

def ArithOp.apply : ArithOp → Word → Word → Word
  | .add, a, b => a + b
  | .sub, a, b => a - b
  | .and, a, b => a &&& b
  | .or, a, b => a ||| b
  | .xor, a, b => a ^^^ b

/-- A shift, which takes its count modulo 64. -/
def ShiftOp.apply : ShiftOp → Word → Nat → Word
  | .left, a, n => a <<< (n % 64)
  | .right, a, n => a >>> (n % 64)
  | .rightArith, a, n => a.sshiftRight (n % 64)

/-- The signed product in twice the width. -/
def product (a b : Word) : BitVec 128 := a.signExtend 128 * b.signExtend 128

/-- Quotient and remainder of a dividend of twice the width, unless the quotient is no word. -/
def quotient? (high low divisor : Word) : Option (Word × Word) :=
  let dividend : Int := (high ++ low).toInt
  let q := dividend.tdiv divisor.toInt
  if divisor ≠ 0 ∧ -2 ^ 63 ≤ q ∧ q < 2 ^ 63 then
    some (BitVec.ofInt 64 q, BitVec.ofInt 64 (dividend.tmod divisor.toInt))
  else none

/-! ## States -/

structure Processor where
  file : Temp → Word
  /-- The flags, where the last operation that changed them was a comparison. -/
  flags : Option Flags
  world : World

namespace Processor

def set (p : Processor) (t : Temp) (v : Word) : Processor :=
  { p with file := Function.update p.file t v }

/-- Write the result of an operation that changes the flags. -/
def compute (p : Processor) (t : Temp) (v : Word) : Processor :=
  { p with file := Function.update p.file t v, flags := none }

def read (p : Processor) (a : Word) : Processor := { p with world := p.world.read a }

def store (p : Processor) (a v : Word) : Processor := { p with world := p.world.store a v }

/-- Call a procedure, with whatever is in the argument registers. -/
def call (p : Processor) (callee : Word) : Processor where
  file := fun t =>
    if t = rax then (p.world.replies 0).value
    else if t ∈ scratchRegisters then (p.world.replies 0).scratch t
    else p.file t
  flags := none
  world := p.world.call callee (argumentRegisters.map p.file)

variable (p : Processor) (t : Temp) (a v : Word)

@[simp] theorem world_set : (p.set t v).world = p.world := rfl
@[simp] theorem world_compute : (p.compute t v).world = p.world := rfl
@[simp] theorem world_read : (p.read a).world = p.world.read a := rfl
@[simp] theorem file_read : (p.read a).file = p.file := rfl
@[simp] theorem file_store : (p.store a v).file = p.file := rfl
@[simp] theorem file_set_self : (p.set t v).file t = v := Function.update_self ..
@[simp] theorem file_compute_self : (p.compute t v).file t = v := Function.update_self ..

variable {t} {u : Temp}

theorem file_set_of_ne (h : u ≠ t) : (p.set t v).file u = p.file u := Function.update_of_ne h ..

theorem file_compute_of_ne (h : u ≠ t) : (p.compute t v).file u = p.file u :=
  Function.update_of_ne h ..

theorem file_call_of_not_mem (h : u ∉ scratchRegisters) : (p.call v).file u = p.file u := by
  have hrax : u ≠ rax := fun heq => h (heq ▸ List.mem_cons_self)
  simp only [call, if_neg hrax, if_neg h]

end Processor

/-! ## Lines -/

section Lines

variable (symbols : String → Word) (i : Instr) (p : Processor)

namespace Assembly

def Slot.temp? : Slot → Option Temp
  | .use n => i.uses[n]?
  | .definition n => i.defs[n]?

def Slot.value? (s : Slot) : Option Word := (s.temp? i).map p.file

/-- The address of a place in memory. -/
def Operand.address? : Operand → Option Word
  | .memory symbol offset base =>
      (base.value? i p).map fun b => b + (symbol.map symbols).getD 0 + TreeCompiler.immediate offset
  | _ => none

/-- The value of a source, and the state after it was read. -/
def Operand.fetch? : Operand → Option (Word × Processor)
  | .slot s => (s.value? i p).map fun v => (v, p)
  | .immediate c => some (TreeCompiler.immediate c, p)
  | .memory symbol offset base =>
      (address? symbols i p (.memory symbol offset base)).map fun a =>
        (p.world.memory.load a, p.read a)

/-- Put a value where a destination says. -/
def Operand.put? (v : Word) : Operand → Option Processor
  | .slot s => (s.temp? i).map fun t => p.set t v
  | .immediate _ => none
  | .memory symbol offset base =>
      (address? symbols i p (.memory symbol offset base)).map fun a => p.store a v

/-- The effect of a line; none where it faults or does not go on to the next line. -/
def Line.exec : Line → Option Processor
  | .label _ => some p
  -- only a move to a register has room for a word
  | .move (.immediate c) (.slot d) => (d.temp? i).map fun t => p.set t (BitVec.ofInt 64 c)
  | .move s d => do
      let (v, p) ← s.fetch? symbols i p
      d.put? symbols i p v
  | .loadAddress a d => do return p.set (← d.temp? i) (← a.address? symbols i p)
  | .loadLabel l d => do return p.set (← d.temp? i) (symbols l)
  | .arith op s d => do
      let t ← d.temp? i
      let (v, p) ← s.fetch? symbols i p
      return p.compute t (op.apply (p.file t) v)
  | .multiply s => do
      let v ← s.value? i p
      let both := product (p.file rax) v
      return (p.compute rax (both.setWidth 64)).set rdx (both.extractLsb' 64 64)
  | .signExtend => some (p.set rdx ((p.file rax).sshiftRight 63))
  | .divide s => do
      let v ← s.value? i p
      let (q, r) ← quotient? (p.file rdx) (p.file rax) v
      return (p.compute rax q).set rdx r
  | .shift op c d => do
      let t ← d.temp? i
      return p.compute t (op.apply (p.file t) (BitVec.ofInt 8 c).toNat)
  | .shiftByCount op d => do
      let t ← d.temp? i
      return p.compute t (op.apply (p.file t) (p.file rcx).toNat)
  | .compare r l => do
      let (b, p) ← r.fetch? symbols i p
      return { p with flags := some (Flags.ofCompare (← l.value? i p) b) }
  | .call l => some (p.call (symbols l))
  | .callTo s => do return p.call (← s.value? i p)
  | .branch _ => none
  | .jump => none
  | .jumpTo _ => none
  | .nothing => some p

end Assembly

end Lines

/-! ## Operations -/

section Operations

variable (symbols : String → Word) (symbol : String) (p : Processor)

/-- The effect of an operation. -/
def Operation.exec (op : Operation) : Option Processor :=
  (op.line symbol).exec symbols (op.instr (.x86_64 symbol)) p

/-- The effect of operations in order. -/
def Operation.execAll : List Operation → Processor → Option Processor
  | [], p => some p
  | op :: rest, p => (op.exec symbols symbol p).bind (execAll rest)

/-- The address of a place in memory. -/
def Address.value : Address → Word
  | .frame offset => p.file rsp + symbols symbol + immediate offset
  | .base t offset => p.file t + immediate offset

/-- Without a symbol nothing is added for it. -/
theorem Address.value_base (t : Temp) (offset : Int) :
    (Address.base t offset).value symbols symbol p = p.file t + 0#64 + immediate offset := by
  rw [BitVec.add_zero]
  rfl

def Operand.value : Operand → Word
  | .imm c => immediate c
  | .temp t => p.file t

namespace Operation

variable {symbols symbol} {p}

theorem execAll_append {first second : List Operation} {q : Processor}
    (h : execAll symbols symbol first p = some q) :
    execAll symbols symbol (first ++ second) p = execAll symbols symbol second q := by
  induction first generalizing p with
  | nil =>
      cases h
      rfl
  | cons op rest ih =>
      rw [List.cons_append, execAll]
      rw [execAll] at h
      obtain ⟨r, hr, hq⟩ := Option.bind_eq_some_iff.1 h
      rw [hr, Option.bind_some, ih hq]

theorem execAll_cons {op : Operation} {rest : List Operation} {q : Processor}
    (h : op.exec symbols symbol p = some q) :
    execAll symbols symbol (op :: rest) p = execAll symbols symbol rest q := by
  rw [execAll, h, Option.bind_some]

theorem execAll_singleton (op : Operation) :
    execAll symbols symbol [op] p = op.exec symbols symbol p := by
  cases h : op.exec symbols symbol p <;> simp [execAll, h]

variable (dst src t : Temp) (a : Address) (c : Int)

theorem exec_copy : exec symbols symbol p (.copy dst src) = some (p.set dst (p.file src)) := rfl

theorem exec_constant :
    exec symbols symbol p (.constant dst c) = some (p.set dst (BitVec.ofInt 64 c)) := rfl

theorem exec_labelAddress (l : Label) :
    exec symbols symbol p (.labelAddress dst l) = some (p.set dst (symbols l)) := rfl

theorem exec_frameAddress : exec symbols symbol p (.frameAddress dst c) =
    some (p.set dst ((Address.frame c).value symbols symbol p)) := rfl

theorem exec_load : exec symbols symbol p (.load dst a) =
    some ((p.read (a.value symbols symbol p)).set dst
      (p.world.memory.load (a.value symbols symbol p))) := by
  cases a with
  | frame offset => rfl
  | base t offset =>
      rw [Address.value_base]
      rfl

theorem exec_store : exec symbols symbol p (.store src a) =
    some (p.store (a.value symbols symbol p) (p.file src)) := by
  cases a with
  | frame offset => rfl
  | base t offset =>
      rw [Address.value_base]
      rfl

theorem exec_arith (op : ArithOp) (right : Operand) :
    exec symbols symbol p (.arith op dst right) =
      some (p.compute dst (op.apply (p.file dst) (right.value p))) := by
  cases right <;> rfl

theorem exec_multiply : exec symbols symbol p (.multiply t) =
    some ((p.compute rax ((product (p.file rax) (p.file t)).setWidth 64)).set rdx
      ((product (p.file rax) (p.file t)).extractLsb' 64 64)) := rfl

theorem exec_signExtend :
    exec symbols symbol p .signExtend = some (p.set rdx ((p.file rax).sshiftRight 63)) := rfl

theorem exec_divide : exec symbols symbol p (.divide t) =
    (quotient? (p.file rdx) (p.file rax) (p.file t)).map fun e =>
      (p.compute rax e.1).set rdx e.2 := by
  change (quotient? (p.file rdx) (p.file rax) (p.file t)).bind _ = _
  cases quotient? (p.file rdx) (p.file rax) (p.file t) <;> rfl

theorem exec_shiftConstant (op : ShiftOp) : exec symbols symbol p (.shiftConstant op dst c) =
    some (p.compute dst (op.apply (p.file dst) (BitVec.ofInt 8 c).toNat)) := rfl

theorem exec_shift (op : ShiftOp) : exec symbols symbol p (.shift op dst) =
    some (p.compute dst (op.apply (p.file dst) (p.file rcx).toNat)) := rfl

theorem exec_compare (left : Temp) (right : Operand) :
    exec symbols symbol p (.compare left right) =
      some { p with flags := some (Flags.ofCompare (p.file left) (right.value p)) } := by
  cases right <;> rfl

end Operation

end Operations

end TreeCompiler
