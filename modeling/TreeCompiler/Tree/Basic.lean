import TreeCompiler.Temp

/-!
# Tree — the tree code that instructions are selected from

Expressions compute a word, statements have an effect; either may contain the other.  A procedure
is a list of statements and the size of the locals that already have a place in its frame.
-/

namespace TreeCompiler

/-! ## Operators -/

inductive BinOp
  | plus | minus | mul | div | and | or | lshift | rshift | arshift | xor
  deriving DecidableEq

namespace BinOp

def all : List BinOp := [.plus, .minus, .mul, .div, .and, .or, .lshift, .rshift, .arshift, .xor]

def name : BinOp → String
  | .plus => "PLUS"
  | .minus => "MINUS"
  | .mul => "MUL"
  | .div => "DIV"
  | .and => "AND"
  | .or => "OR"
  | .lshift => "LSHIFT"
  | .rshift => "RSHIFT"
  | .arshift => "ARSHIFT"
  | .xor => "XOR"

end BinOp

/-- Comparisons; those with a `u` compare unsigned. -/
inductive RelOp
  | eq | ne | lt | gt | le | ge | ult | ule | ugt | uge
  deriving DecidableEq

namespace RelOp

def all : List RelOp := [.eq, .ne, .lt, .gt, .le, .ge, .ult, .ule, .ugt, .uge]

def name : RelOp → String
  | .eq => "EQ"
  | .ne => "NE"
  | .lt => "LT"
  | .gt => "GT"
  | .le => "LE"
  | .ge => "GE"
  | .ult => "ULT"
  | .ule => "ULE"
  | .ugt => "UGT"
  | .uge => "UGE"

/-- The comparison that holds after the operands changed places. -/
def commute : RelOp → RelOp
  | .eq => .eq
  | .ne => .ne
  | .lt => .gt
  | .gt => .lt
  | .le => .ge
  | .ge => .le
  | .ult => .ugt
  | .ule => .uge
  | .ugt => .ult
  | .uge => .ule

theorem commute_commute (op : RelOp) : op.commute.commute = op := by
  cases op <;> rfl

end RelOp

/-! ## Expressions and statements -/

mutual

inductive Exp
  | binop (op : BinOp) (left right : Exp)
  | mem (address : Exp)
  | temp (t : Temp)
  /-- Carry out the statement, then compute the expression. -/
  | eseq (stm : Stm) (exp : Exp)
  | name (label : Label)
  | const (value : Int)
  | call (callee : Exp) (arguments : List Exp)

inductive Stm
  | seq (first second : Stm)
  | label (label : Label)
  /-- Jump to a computed address; the labels are all the places it may be. -/
  | jump (target : Exp) (labels : List Label)
  | cjump (op : RelOp) (left right : Exp) (ifTrue ifFalse : Label)
  | move (destination source : Exp)
  | exp (exp : Exp)

end

instance : Inhabited Exp := ⟨.const 0⟩

/-- The value of an expression that is a constant. -/
def Exp.constant? : Exp → Option Int
  | .const c => some c
  | _ => none

/-! ## Equality of trees -/

mutual

/-- Equality of expressions as a test. -/
def Exp.same : Exp → Exp → Bool
  | .binop o a b, .binop p c d => o == p && a.same c && b.same d
  | .mem a, .mem b => a.same b
  | .temp t, .temp u => t == u
  | .eseq s a, .eseq r b => s.same r && a.same b
  | .name l, .name k => l == k
  | .const i, .const j => i == j
  | .call f as, .call g bs => f.same g && Exp.sameAll as bs
  | _, _ => false

def Exp.sameAll : List Exp → List Exp → Bool
  | [], [] => true
  | a :: as, b :: bs => a.same b && Exp.sameAll as bs
  | _, _ => false

/-- Equality of statements as a test. -/
def Stm.same : Stm → Stm → Bool
  | .seq a b, .seq c d => a.same c && b.same d
  | .label l, .label k => l == k
  | .jump a ls, .jump b ks => a.same b && ls == ks
  | .cjump o a b t f, .cjump p c d u g => o == p && a.same c && b.same d && t == u && f == g
  | .move a b, .move c d => a.same c && b.same d
  | .exp a, .exp b => a.same b
  | _, _ => false

end

mutual

theorem Exp.same_iff : ∀ {a b : Exp}, a.same b = true ↔ a = b
  | .binop _ a b, e => by
      cases e <;> simp [Exp.same, Exp.same_iff (a := a), Exp.same_iff (a := b), and_assoc]
  | .mem a, e => by cases e <;> simp [Exp.same, Exp.same_iff (a := a)]
  | .temp _, e => by cases e <;> simp [Exp.same]
  | .eseq s a, e => by
      cases e <;> simp [Exp.same, Exp.same_iff (a := a), Stm.same_iff (a := s)]
  | .name _, e => by cases e <;> simp [Exp.same]
  | .const _, e => by cases e <;> simp [Exp.same]
  | .call f as, e => by
      cases e <;> simp [Exp.same, Exp.same_iff (a := f), Exp.sameAll_iff (l := as)]

theorem Exp.sameAll_iff : ∀ {l k : List Exp}, Exp.sameAll l k = true ↔ l = k
  | [], bs => by cases bs <;> simp [Exp.sameAll]
  | a :: as, bs => by
      cases bs <;> simp [Exp.sameAll, Exp.same_iff (a := a), Exp.sameAll_iff (l := as)]

theorem Stm.same_iff : ∀ {a b : Stm}, a.same b = true ↔ a = b
  | .seq a b, e => by
      cases e <;> simp [Stm.same, Stm.same_iff (a := a), Stm.same_iff (a := b)]
  | .label _, e => by cases e <;> simp [Stm.same]
  | .jump a _, e => by cases e <;> simp [Stm.same, Exp.same_iff (a := a)]
  | .cjump _ a b _ _, e => by
      cases e <;> simp [Stm.same, Exp.same_iff (a := a), Exp.same_iff (a := b), and_assoc]
  | .move a b, e => by
      cases e <;> simp [Stm.same, Exp.same_iff (a := a), Exp.same_iff (a := b)]
  | .exp a, e => by cases e <;> simp [Stm.same, Exp.same_iff (a := a)]

end

instance : DecidableEq Exp := fun _ _ => decidable_of_iff _ Exp.same_iff

instance : DecidableEq Stm := fun _ _ => decidable_of_iff _ Stm.same_iff

/-! ## Temps of a tree -/

mutual

/-- The largest temp of an expression. -/
def Exp.maxTemp : Exp → Option Temp
  | .binop _ a b => Temp.max? a.maxTemp b.maxTemp
  | .mem a => a.maxTemp
  | .temp t => some t
  | .eseq s a => Temp.max? s.maxTemp a.maxTemp
  | .name _ => none
  | .const _ => none
  | .call f as => Temp.max? f.maxTemp (Exp.maxTempAll as)

def Exp.maxTempAll : List Exp → Option Temp
  | [] => none
  | a :: as => Temp.max? a.maxTemp (Exp.maxTempAll as)

/-- The largest temp of a statement. -/
def Stm.maxTemp : Stm → Option Temp
  | .seq a b => Temp.max? a.maxTemp b.maxTemp
  | .label _ => none
  | .jump a _ => a.maxTemp
  | .cjump _ a b _ _ => Temp.max? a.maxTemp b.maxTemp
  | .move a b => Temp.max? a.maxTemp b.maxTemp
  | .exp a => a.maxTemp

end

/-! ## Procedures -/

structure Procedure where
  name : Label
  /-- Bytes of the locals that already have a place in the frame. -/
  localsSize : Int
  body : List Stm
  deriving DecidableEq

/-- The largest temp anywhere in the body. -/
def Procedure.maxTemp (p : Procedure) : Option Temp :=
  p.body.foldl (fun m s => Temp.max? m s.maxTemp) none

/-- The largest temp of a file. -/
def Procedure.maxTempAll (ps : List Procedure) : Option Temp :=
  ps.foldl (fun m p => Temp.max? m p.maxTemp) none

end TreeCompiler
