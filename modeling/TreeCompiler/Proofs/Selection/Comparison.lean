import TreeCompiler.Proofs.Selection.Memory

/-!
# Comparison — relations between words and the flags of a comparison

A comparison subtracts and keeps four flags of the difference.  Each conditional jump is taken on a
condition of these flags, which holds exactly if the relation that the jump is for holds between the
compared words (`Flags.holds_ofCompare`), for a signed relation also where the difference overflows.
-/

namespace TreeCompiler

/-- Whether a relation holds between two words. -/
def RelOp.holds : RelOp → Word → Word → Bool
  | .eq, a, b => a = b
  | .ne, a, b => a ≠ b
  | .lt, a, b => a.toInt < b.toInt
  | .gt, a, b => b.toInt < a.toInt
  | .le, a, b => a.toInt ≤ b.toInt
  | .ge, a, b => b.toInt ≤ a.toInt
  | .ult, a, b => a.toNat < b.toNat
  | .ule, a, b => a.toNat ≤ b.toNat
  | .ugt, a, b => b.toNat < a.toNat
  | .uge, a, b => b.toNat ≤ a.toNat

/-- The commuted relation between operands that changed places. -/
theorem RelOp.holds_commute (op : RelOp) (a b : Word) : op.commute.holds b a = op.holds a b := by
  cases op
  case eq => exact decide_eq_decide.2 eq_comm
  case ne => exact decide_eq_decide.2 ne_comm
  all_goals rfl

structure Flags where
  zero : Bool
  sign : Bool
  overflow : Bool
  carry : Bool
  deriving DecidableEq

namespace Flags

/-- The flags of the difference of two words. -/
def ofCompare (a b : Word) : Flags where
  zero := a - b = 0
  sign := (a - b).msb
  overflow := a.ssubOverflow b
  carry := a.usubOverflow b

/-- The condition on which the jump of a relation is taken. -/
def holds (f : Flags) : RelOp → Bool
  | .eq => f.zero
  | .ne => !f.zero
  | .lt => f.sign != f.overflow
  | .gt => !f.zero && f.sign == f.overflow
  | .le => f.zero || f.sign != f.overflow
  | .ge => f.sign == f.overflow
  | .ult => f.carry
  | .ule => f.carry || f.zero
  | .ugt => !f.carry && !f.zero
  | .uge => !f.carry

variable {a b : Word}

theorem zero_ofCompare : (ofCompare a b).zero = true ↔ a = b := by
  rw [ofCompare, decide_eq_true_iff]
  exact ⟨fun h => by bv_omega, fun h => by rw [h, BitVec.sub_self]; rfl⟩

theorem carry_ofCompare : (ofCompare a b).carry = true ↔ a.toNat < b.toNat := by
  simp [ofCompare, BitVec.usubOverflow]

/-- The sign of the difference is the wrong one exactly if the difference overflows. -/
theorem sign_ne_overflow_ofCompare :
    ((ofCompare a b).sign != (ofCompare a b).overflow) = true ↔ a.toInt < b.toInt := by
  have ha := BitVec.toInt_lt (x := a)
  have hb := BitVec.toInt_lt (x := b)
  have ha' := BitVec.le_toInt a
  have hb' := BitVec.le_toInt b
  simp only [ofCompare, BitVec.msb_eq_toInt, BitVec.toInt_sub, BitVec.ssubOverflow, Int.bmod_def,
    bne_iff_ne, ne_eq, ← Bool.decide_or, decide_eq_decide]
  omega

theorem sign_eq_overflow_ofCompare :
    ((ofCompare a b).sign == (ofCompare a b).overflow) = true ↔ ¬ a.toInt < b.toInt := by
  rw [← sign_ne_overflow_ofCompare, bne, Bool.not_eq_true', Bool.not_eq_false]

/-- After a comparison the jump of a relation is taken exactly if the relation holds. -/
theorem holds_ofCompare (op : RelOp) (a b : Word) : (ofCompare a b).holds op = op.holds a b := by
  have hint : a = b ↔ a.toInt = b.toInt := BitVec.toInt_inj.symm
  have hnat : a = b ↔ a.toNat = b.toNat := BitVec.toNat_inj.symm
  rw [Bool.eq_iff_iff]
  cases op <;> simp only [holds, RelOp.holds, decide_eq_true_eq, Bool.not_eq_true',
    Bool.and_eq_true, Bool.or_eq_true, ← Bool.not_eq_true, zero_ofCompare, carry_ofCompare,
    sign_ne_overflow_ofCompare, sign_eq_overflow_ofCompare]
  case gt => rw [hint]; omega
  case le => rw [hint]; omega
  case ge => omega
  case ule => rw [hnat]; omega
  case ugt => rw [hnat]; omega
  case uge => omega

end Flags

end TreeCompiler
