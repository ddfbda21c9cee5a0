import TreeCompiler.Tree.Basic
import TreeCompiler.Proofs.Selection.Processor

/-!
# Evaluation — the values of trees

What an expression without statements is worth: operands from left to right, words that wrap around,
shifts that take their count modulo 64.  There is no value where a division faults, and none where
the expression itself reads from the area in which calls pass their arguments.
-/

namespace TreeCompiler

open X86

/-! ## Operators of trees -/

/-- The value of an operator, unless it faults. -/
def BinOp.value? : BinOp → Word → Word → Option Word
  | .plus, a, b => some (a + b)
  | .minus, a, b => some (a - b)
  | .mul, a, b => some (a * b)
  | .div, a, b =>
      if b = 0 ∨ (a = BitVec.intMin 64 ∧ b = BitVec.allOnes 64) then none else some (a.sdiv b)
  | .and, a, b => some (a &&& b)
  | .or, a, b => some (a ||| b)
  | .xor, a, b => some (a ^^^ b)
  | .lshift, a, b => some (a <<< (b.toNat % 64))
  | .rshift, a, b => some (a >>> (b.toNat % 64))
  | .arshift, a, b => some (a.sshiftRight (b.toNat % 64))

/-! ## Operators of the processor -/

/-- The lower half of a product is the product that wraps around. -/
theorem setWidth_product (a b : Word) : (product a b).setWidth 64 = a * b := by
  have hlow : ∀ c : Word, (c.signExtend 128).setWidth 64 = c := fun c => by
    apply BitVec.eq_of_getLsbD_eq
    intro i hi
    simp only [BitVec.getLsbD_setWidth, BitVec.getLsbD_signExtend, hi, show i < 128 by omega,
      decide_true, Bool.true_and, if_true]
  rw [product, BitVec.setWidth_mul _ _ (by decide), hlow, hlow]

/-- A word extended by its sign is the dividend of twice the width with the same value. -/
theorem toInt_extended (a : Word) : (a.sshiftRight 63 ++ a).toInt = a.toInt := by
  have hsign := BitVec.toInt_eq_toNat_cond a
  have hbound := a.isLt
  rw [BitVec.toInt_append, if_neg (by decide), BitVec.toInt_sshiftRight, Int.shiftRight_eq_div_pow]
  split at hsign <;> omega

/-- Where a division has a value, the quotient of the extended dividend is that value. -/
theorem quotient?_of_value {a b v : Word} (h : BinOp.value? .div a b = some v) :
    ∃ r, quotient? (a.sshiftRight 63) a b = some (v, r) := by
  rw [BinOp.value?] at h
  split at h
  · cases h
  · rename_i hdefined
    obtain rfl := Option.some.inj h
    have hne : a ≠ BitVec.intMin 64 ∨ b ≠ -1#64 :=
      not_and_or.1 fun hboth => hdefined (.inr hboth)
    have hdiv := BitVec.toInt_sdiv_of_ne_or_ne a b hne
    have hlt := BitVec.toInt_lt (x := a.sdiv b)
    have hle := BitVec.le_toInt (a.sdiv b)
    refine ⟨BitVec.ofInt 64 (a.toInt.tmod b.toInt), ?_⟩
    unfold quotient?
    dsimp only
    rw [toInt_extended, ← hdiv, if_pos ⟨fun hzero => hdefined (.inl hzero), by omega⟩,
      BitVec.ofInt_toInt]

/-! ## Trees -/

/-- What the leaves of an expression stand for in a procedure whose frame size has the given symbol.
-/
structure Scope (symbol : String) where
  file : Temp → Word
  symbols : String → Word
  /-- The most arguments that may be passed in memory. -/
  words : Nat
  /-- All of them are in reach of a displacement from the stack pointer. -/
  words_le : 8 * words ≤ 2 ^ 31

namespace Scope

variable {symbol : String}

/-- The words from the stack pointer on, in which calls pass arguments. -/
def area (σ : Scope symbol) : Area := ⟨σ.file rsp, σ.words⟩

/-- The frame pointer is above the stack pointer by the size of the frame. -/
def framePointer (σ : Scope symbol) : Word := σ.file rsp + σ.symbols symbol

def temp (σ : Scope symbol) (t : Temp) : Word :=
  if t = Machine.x86_64.framePointer then σ.framePointer else σ.file t

end Scope

/-- Read a word apart from an area. -/
def World.fetch? (w : World) (A : Area) (a : Word) : Option (Word × World) :=
  if A.meets a then none else some (w.memory.load a, w.read a)

mutual

/-- The value of an expression, and the world after its evaluation. -/
def Exp.eval {symbol : String} (σ : Scope symbol) : Exp → World → Option (Word × World)
  | .binop op l r, w =>
      (l.eval σ w).bind fun a => (r.eval σ a.2).bind fun b =>
        (op.value? a.1 b.1).map fun v => (v, b.2)
  | .mem e, w => (e.eval σ w).bind fun a => a.2.fetch? σ.area a.1
  | .temp t, w => some (σ.temp t, w)
  | .eseq _ _, _ => none
  | .name l, w => some (σ.symbols l, w)
  | .const c, w => some (BitVec.ofInt 64 c, w)
  | .call f args, w =>
      (f.eval σ w).bind fun a => (Exp.evalAll σ args a.2).map fun b =>
        ((b.2.replies 0).value, b.2.call a.1 b.1)

/-- The values of expressions in order. -/
def Exp.evalAll {symbol : String} (σ : Scope symbol) : List Exp → World → Option (List Word × World)
  | [], w => some ([], w)
  | e :: es, w =>
      (e.eval σ w).bind fun a => (Exp.evalAll σ es a.2).map fun b => (a.1 :: b.1, b.2)

end

mutual

/-- Whether there are no statements in an expression, and its temps are the frame pointer or
temps below `k` that are no registers. -/
def Exp.plain (k : Nat) : Exp → Bool
  | .binop _ l r => l.plain k && r.plain k
  | .mem e => e.plain k
  | .temp t => t = Machine.x86_64.framePointer || !Machine.x86_64.isRegister t && t.id < k
  | .eseq _ _ => false
  | .name _ => true
  | .const _ => true
  | .call f args => f.plain k && Exp.plainAll k args

def Exp.plainAll (k : Nat) : List Exp → Bool
  | [] => true
  | e :: es => e.plain k && Exp.plainAll k es

end

end TreeCompiler
