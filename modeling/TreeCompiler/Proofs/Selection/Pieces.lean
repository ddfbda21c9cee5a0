import TreeCompiler.Selection.Tile
import TreeCompiler.Proofs.Selection.Sequences
import TreeCompiler.Proofs.Trees

/-!
# Pieces — every sequence of a tree is selected in one piece

Each tile selects the sequences of its operands: an operand that a tile does not evaluate is a
constant, a label or the frame pointer, and has none.  A call counts as a sequence of its own.  By
induction over the tree, the code for each sequence of a body is a piece of the code for the body
(`covers_body`), and so is the code for each statement of a sequence (`exists_piece`).
-/

namespace TreeCompiler

namespace Selection

/-! ## Conditional jumps -/

/-- What a conditional jump compares, and the relation for which it is taken. -/
structure Comparison where
  left : Temp
  right : Operand
  op : RelOp

/-- Evaluate the operands of a conditional jump. -/
def comparands (op : RelOp) (l r : Exp) (left right : SelectM Temp) : SelectM Comparison := do
  match l.constant?, r.constant? with
  | some _, none =>
      let a ← right
      let b ← operand l left
      return ⟨a, b, op.commute⟩
  | _, _ =>
      let a ← left
      let b ← operand r right
      return ⟨a, b, op⟩

/-- A conditional jump evaluates its operands, compares them and branches. -/
theorem cjump_eq (op : RelOp) (l r : Exp) (left right : SelectM Temp) (ifTrue ifFalse : Label) :
    cjump op l r left right ifTrue ifFalse = (do
      let c ← comparands op l r left right
      emit (.compare c.left c.right)
      emit (.branch c.op ifTrue ifFalse)) := by
  unfold cjump comparands
  cases l.constant? <;> cases r.constant? <;> simp only [bind_assoc, pure_bind]

/-! ## Parts of a tree -/

end Selection

mutual

/-- The sequences inside an expression, and its calls, each as a sequence of its own. -/
def Exp.parts : Exp → List (List Stm)
  | .binop _ l r => l.parts ++ r.parts
  | .mem e => e.parts
  | .temp _ => []
  | .eseq s e => s.sequence :: (s.parts ++ e.parts)
  | .name _ => []
  | .const _ => []
  | .call f args => [.exp (.call f args)] :: (f.parts ++ Exp.partsAll args)

def Exp.partsAll : List Exp → List (List Stm)
  | [] => []
  | e :: es => e.parts ++ Exp.partsAll es

def Stm.parts : Stm → List (List Stm)
  | .seq a b => a.parts ++ b.parts
  | .label _ => []
  | .jump e _ => e.parts
  | .cjump _ l r _ _ => l.parts ++ r.parts
  | .move d s => d.parts ++ s.parts
  | .exp e => e.parts

end

mutual

theorem Exp.nested_subset : ∀ e : Exp, e.nested ⊆ e.parts
  | .binop _ l r => append_subset_append l.nested_subset r.nested_subset
  | .mem e => e.nested_subset
  | .temp _ => List.nil_subset _
  | .eseq s e => List.cons_subset_cons _ (append_subset_append s.nested_subset e.nested_subset)
  | .name _ => List.nil_subset _
  | .const _ => List.nil_subset _
  | .call f args => fun _ hB => List.mem_cons_of_mem _
      (append_subset_append f.nested_subset (Exp.nestedAll_subset args) hB)

theorem Exp.nestedAll_subset : ∀ es : List Exp, Exp.nestedAll es ⊆ Exp.partsAll es
  | [] => List.nil_subset _
  | e :: es => append_subset_append e.nested_subset (Exp.nestedAll_subset es)

theorem Stm.nested_subset : ∀ s : Stm, s.nested ⊆ s.parts
  | .seq a b => append_subset_append a.nested_subset b.nested_subset
  | .label _ => List.nil_subset _
  | .jump e _ => e.nested_subset
  | .cjump _ l r _ _ => append_subset_append l.nested_subset r.nested_subset
  | .move d s => append_subset_append d.nested_subset s.nested_subset
  | .exp e => e.nested_subset

end

namespace Selection

/-! ## Operands without statements -/

variable {target : Target} {α : Type} {Bs Cs : List (List Stm)}

theorem parts_of_immediate? {e : Exp} {c : Int} (h : immediate? e = some c) : e.parts = [] := by
  cases e <;> first | rfl | cases h

theorem parts_of_constant? {e : Exp} {c : Int} (h : e.constant? = some c) : e.parts = [] := by
  cases e <;> first | rfl | cases h

theorem parts_of_isFramePointer {e : Exp} (h : isFramePointer target e = true) :
    e.parts = [] := by
  cases e <;> first | rfl | cases h

/-! ## Values -/

section Values

variable {x left right : SelectM Temp} {e l r : Exp}

theorem covers_into (op : Temp → Operation) :
    Covers target [] (do let dst ← fresh; emit (op dst); return dst) :=
  covers_fresh.nil_bind fun _ => (covers_emit _).nil_bind fun _ => covers_pure _

theorem covers_intoVirtual (hx : Covers target Bs x) : Covers target Bs (intoVirtual target x) := by
  refine hx.bind_nil fun t => ?_
  split
  · exact covers_into _
  · exact covers_pure t

theorem covers_operand (hx : Covers target e.parts x) : Covers target e.parts (operand e x) := by
  unfold operand
  split
  · rename_i c hc
    exact parts_of_immediate? hc ▸ covers_pure _
  · rw [map_eq_pure_bind]
    exact hx.bind_nil fun _ => covers_pure _

theorem covers_baseAddress (hx : Covers target e.parts x) (offset : Int) :
    Covers target e.parts (baseAddress target e x offset) := by
  unfold baseAddress
  split
  · rename_i hfp
    exact parts_of_isFramePointer hfp ▸ covers_pure _
  · exact hx.bind_nil fun _ => covers_pure _

theorem covers_sumAddress {sum : SelectM Temp} (hl : Covers target l.parts left)
    (hr : Covers target r.parts right) (hsum : Covers target (l.parts ++ r.parts) sum) :
    Covers target (l.parts ++ r.parts) (sumAddress target l r left right sum) := by
  unfold sumAddress
  split
  · rename_i c hc
    rw [parts_of_immediate? hc, List.append_nil]
    exact covers_baseAddress hl c
  · rename_i c _ hc
    rw [parts_of_immediate? hc, List.nil_append]
    exact covers_baseAddress hr c
  · exact hsum.bind_nil fun _ => covers_pure _

theorem covers_differenceAddress {difference : SelectM Temp} (hl : Covers target l.parts left)
    (hdifference : Covers target (l.parts ++ r.parts) difference) :
    Covers target (l.parts ++ r.parts) (differenceAddress target l r left difference) := by
  unfold differenceAddress
  split
  · rename_i c hc
    obtain ⟨d, hd, -⟩ := Option.map_eq_some_iff.1 hc
    split
    · rw [parts_of_constant? hd, List.append_nil]
      exact covers_baseAddress hl c
    · exact hdifference.bind_nil fun _ => covers_pure _
  · exact hdifference.bind_nil fun _ => covers_pure _

theorem covers_tempValue (t : Temp) : Covers target [] (tempValue target t) := by
  unfold tempValue
  split
  · exact covers_into _
  · exact covers_pure t

theorem covers_loadInto {address : SelectM Address} (h : Covers target Bs address) (dst : Temp) :
    Covers target Bs (loadInto dst address) := h.bind_nil fun _ => covers_emit _

theorem covers_loadValue {address : SelectM Address} (h : Covers target Bs address) :
    Covers target Bs (loadValue address) :=
  covers_fresh.nil_bind fun _ => (covers_loadInto h _).bind_nil fun _ => covers_pure _

theorem covers_arith {right : SelectM Operand} (op : ArithOp) (hl : Covers target Bs left)
    (hr : Covers target Cs right) : Covers target (Bs ++ Cs) (arith op left right) :=
  hl.bind fun _ => hr.bind_nil fun _ => covers_fresh.nil_bind fun _ =>
    (covers_emit _).nil_bind fun _ => (covers_emit _).nil_bind fun _ => covers_pure _

theorem covers_multiply (hl : Covers target Bs left) (hr : Covers target Cs right) :
    Covers target (Bs ++ Cs) (multiply target left right) :=
  hl.bind fun _ => (covers_intoVirtual hr).bind_nil fun _ => (covers_emit _).nil_bind fun _ =>
    (covers_emit _).nil_bind fun _ => covers_into _

theorem covers_divide (hl : Covers target Bs left) (hr : Covers target Cs right) :
    Covers target (Bs ++ Cs) (divide target left right) :=
  hl.bind fun _ => (covers_intoVirtual hr).bind_nil fun _ => (covers_emit _).nil_bind fun _ =>
    (covers_emit _).nil_bind fun _ => (covers_emit _).nil_bind fun _ => covers_into _

theorem covers_shift (op : ShiftOp) (hl : Covers target Bs left)
    (hr : Covers target r.parts right) :
    Covers target (Bs ++ r.parts) (shift target op r left right) := by
  refine hl.bind fun _ => ?_
  split
  · rename_i c hc
    rw [parts_of_constant? hc]
    exact covers_fresh.nil_bind fun _ => (covers_emit _).nil_bind fun _ =>
      (covers_emit _).nil_bind fun _ => covers_pure _
  · exact (covers_intoVirtual hr).bind_nil fun _ => covers_fresh.nil_bind fun _ =>
      (covers_emit _).nil_bind fun _ => (covers_emit _).nil_bind fun _ =>
        (covers_emit _).nil_bind fun _ => covers_pure _

theorem covers_sum (hl : Covers target l.parts left) (hr : Covers target r.parts right) :
    Covers target (l.parts ++ r.parts) (sum target l r left right) := by
  unfold sum
  split
  · rename_i c hfp hc
    rw [parts_of_isFramePointer hfp, parts_of_immediate? hc]
    exact covers_into _
  · exact covers_arith .add hl (covers_operand hr)

theorem covers_binop (op : BinOp) (hl : Covers target l.parts left)
    (hr : Covers target r.parts right) :
    Covers target (l.parts ++ r.parts) (binop target op l r left right) := by
  cases op with
  | plus => exact covers_sum hl hr
  | minus => exact covers_arith _ hl (covers_operand hr)
  | and => exact covers_arith _ hl (covers_operand hr)
  | or => exact covers_arith _ hl (covers_operand hr)
  | xor => exact covers_arith _ hl (covers_operand hr)
  | mul => exact covers_multiply hl hr
  | div => exact covers_divide hl hr
  | lshift => exact covers_shift _ hl hr
  | rshift => exact covers_shift _ hl hr
  | arshift => exact covers_shift _ hl hr

end Values

/-! ## Calls -/

theorem covers_callee {f : Exp} {x : SelectM Temp} (hx : Covers target f.parts x) :
    Covers target f.parts (callee target f x) := by
  unfold callee
  split
  · exact covers_pure _
  · rw [map_eq_pure_bind]
    exact (covers_intoVirtual hx).bind_nil fun _ => covers_pure _

theorem covers_storeArguments (slot : Nat) (ts : List Temp) :
    Covers target [] (storeArguments target slot ts) := by
  induction ts generalizing slot with
  | nil => exact covers_pure ()
  | cons v rest ih => exact (covers_emit _).nil_bind fun _ => ih (slot + 1)

theorem covers_moveArguments (passed : List (Temp × Temp)) :
    Covers target [] (moveArguments passed) := by
  induction passed with
  | nil => exact covers_pure ()
  | cons e rest ih => exact (covers_emit _).nil_bind fun _ => ih

theorem covers_call {function : SelectM Callee} {arguments : SelectM (List Temp)}
    (hf : Covers target Bs function) (hargs : Covers target Cs arguments) :
    Covers target (Bs ++ Cs) (call target function arguments) :=
  hf.bind fun _ => hargs.bind_nil fun _ => (covers_storeArguments ..).nil_bind fun _ =>
    (covers_reserveOutgoing _).nil_bind fun _ => (covers_moveArguments _).nil_bind fun _ =>
      covers_emit _

theorem covers_callValue {call : SelectM Unit} (h : Covers target Bs call) :
    Covers target Bs (callValue target call) := h.bind_nil fun _ => covers_into _

/-! ## Statements -/

section Statements

variable {left right value : SelectM Temp} {e l r source : Exp}

theorem covers_discard {x : SelectM α} (hx : Covers target Bs x) :
    Covers target Bs (discard x : SelectM Unit) := by
  have hmap : (discard x : SelectM Unit) = x >>= fun _ => pure () := map_eq_pure_bind _ x
  rw [hmap]
  exact hx.bind_nil fun _ => covers_pure ()

theorem covers_jump (labels : List Label) (hx : Covers target e.parts value) :
    Covers target e.parts (jump e labels value) := by
  unfold jump
  split
  · exact covers_emit _
  · exact hx.bind_nil fun _ => covers_emit _

theorem covers_comparands (op : RelOp) (hl : Covers target l.parts left)
    (hr : Covers target r.parts right) :
    Covers target (l.parts ++ r.parts) (comparands op l r left right) := by
  unfold comparands
  split
  · rename_i c hc _
    -- the constant on the left is selected last, and has no sequences
    refine (hr.bind fun _ => (covers_operand hl).bind_nil fun _ => covers_pure _).mono ?_
    rw [parts_of_constant? hc, List.nil_append, List.append_nil]
    exact List.Subset.refl _
  · exact hl.bind fun _ => (covers_operand hr).bind_nil fun _ => covers_pure _

theorem covers_cjump (op : RelOp) (ifTrue ifFalse : Label) (hl : Covers target l.parts left)
    (hr : Covers target r.parts right) :
    Covers target (l.parts ++ r.parts) (cjump op l r left right ifTrue ifFalse) := by
  rw [cjump_eq]
  exact (covers_comparands op hl hr).bind_nil fun _ => (covers_emit _).nil_bind fun _ =>
    covers_emit _

theorem covers_moveToMemory {address : SelectM Address} (ha : Covers target Bs address)
    (hv : Covers target source.parts value) :
    Covers target (Bs ++ source.parts) (moveToMemory source address value) := by
  refine ha.bind fun _ => ?_
  split
  · rename_i c hc
    exact parts_of_immediate? hc ▸ covers_emit _
  · exact hv.bind_nil fun _ => covers_emit _

theorem covers_moveToTemp (t : Temp) {load? : Option (SelectM Address)}
    (hload : ∀ address ∈ load?, Covers target source.parts address)
    (hv : Covers target source.parts value) :
    Covers target source.parts (moveToTemp t source load? value) := by
  unfold moveToTemp
  split
  · rename_i c hc
    exact parts_of_constant? hc ▸ covers_emit _
  · exact covers_loadInto (hload _ rfl) t
  · exact hv.bind_nil fun _ => covers_emit _

end Statements

/-! ## Trees -/

/-- A statement selects itself. -/
theorem covers_self {s : Stm} (h : Covers target Bs (s.select target)) :
    Covers target (s.sequence :: Bs) (s.select target) where
  appends := h.appends
  selects B hB S a S' hrun := by
    rcases List.mem_cons.1 hB with rfl | hB
    · exact ⟨S, S', (selectAll_sequence s).symm ▸ hrun, .refl S, .refl S'⟩
    · exact h.selects B hB S a S' hrun

/-- A call selects itself. -/
theorem covers_callStatement {f : Exp} {args : List Exp}
    (hf : Covers target f.parts (f.select target))
    (hargs : Covers target (Exp.partsAll args) (Exp.selectAll target args)) :
    Covers target (Exp.call f args).parts
      (call target (callee target f (f.select target)) (Exp.selectAll target args)) := by
  have hcall : Stm.select target (.exp (.call f args)) =
      call target (callee target f (f.select target)) (Exp.selectAll target args) := by
    rw [Stm.select]
  have hself := covers_self (s := .exp (.call f args))
    (hcall ▸ covers_call (covers_callee hf) hargs)
  rwa [hcall] at hself

theorem covers_address {e : Exp} {x : SelectM Temp} (hx : Covers target e.parts x)
    (hoperands : ∀ op l r, e = .binop op l r → Covers target l.parts (l.select target) ∧
      Covers target r.parts (r.select target)) :
    Covers target e.parts (e.selectAddress target x) := by
  unfold Exp.selectAddress
  split
  · exact covers_sumAddress (hoperands _ _ _ rfl).1 (hoperands _ _ _ rfl).2 hx
  · exact covers_differenceAddress (hoperands _ _ _ rfl).1 hx
  · exact covers_baseAddress hx 0

mutual

theorem covers_value : (e : Exp) → Covers target e.parts (e.select target)
  | .binop op l r => by
      rw [Exp.select]
      exact covers_binop op (covers_value l) (covers_value r)
  | .mem e => by
      rw [Exp.select]
      exact covers_loadValue (covers_address (covers_value e) (covers_operands e))
  | .temp t => by
      rw [Exp.select]
      exact covers_tempValue t
  | .eseq s e => by
      rw [Exp.select]
      exact (covers_self (covers_statement s)).bind fun _ => covers_value e
  | .name l => by
      rw [Exp.select]
      exact covers_into _
  | .const c => by
      rw [Exp.select]
      exact covers_into _
  | .call f args => by
      rw [Exp.select]
      exact covers_callValue (covers_callStatement (covers_value f) (covers_values args))

theorem covers_values : (es : List Exp) →
    Covers target (Exp.partsAll es) (Exp.selectAll target es)
  | [] => covers_pure []
  | e :: es => by
      rw [Exp.selectAll]
      exact (covers_intoVirtual (covers_value e)).bind fun _ =>
        (covers_values es).bind_nil fun _ => covers_pure _

theorem covers_operands : (e : Exp) → ∀ op l r, e = .binop op l r →
    Covers target l.parts (l.select target) ∧ Covers target r.parts (r.select target)
  | .binop _ l r, _, _, _, rfl => ⟨covers_value l, covers_value r⟩

theorem covers_source : (e : Exp) → ∀ address ∈ e.selectSource? target,
    Covers target e.parts address
  | .mem e, _, rfl => covers_address (covers_value e) (covers_operands e)

theorem covers_destination {source : Exp} {load? : Option (SelectM Address)} {value : SelectM Temp}
    (hload : ∀ address ∈ load?, Covers target source.parts address)
    (hv : Covers target source.parts value) : (d : Exp) →
    Covers target (d.parts ++ source.parts) (d.selectDestination target source load? value)
  | .mem e => by
      rw [Exp.selectDestination]
      exact covers_moveToMemory (covers_address (covers_value e) (covers_operands e)) hv
  | .temp t => by
      rw [Exp.selectDestination]
      exact covers_moveToTemp t hload hv
  | .eseq s d => by
      rw [Exp.selectDestination, Exp.parts, List.cons_append, List.append_assoc]
      exact (covers_self (covers_statement s)).bind fun _ => covers_destination hload hv d
  | .binop .. => covers_throw _
  | .name _ => covers_throw _
  | .const _ => covers_throw _
  | .call .. => covers_throw _

theorem covers_statement : (s : Stm) → Covers target s.parts (s.select target)
  | .seq a b => by
      rw [Stm.select]
      exact (covers_statement a).bind fun _ => covers_statement b
  | .label l => by
      rw [Stm.select]
      exact covers_emit _
  | .jump e labels => by
      rw [Stm.select]
      exact covers_jump labels (covers_value e)
  | .cjump op l r t f => by
      rw [Stm.select]
      exact covers_cjump op t f (covers_value l) (covers_value r)
  | .move d s => by
      rw [Stm.select]
      exact covers_destination (covers_source s) (covers_value s) d
  | .exp (.call f args) => by
      rw [Stm.select]
      exact covers_callStatement (covers_value f) (covers_values args)
  | .exp (.binop op l r) => covers_discard (covers_value (.binop op l r))
  | .exp (.mem e) => covers_discard (covers_value (.mem e))
  | .exp (.temp t) => covers_discard (covers_value (.temp t))
  | .exp (.eseq s e) => covers_discard (covers_value (.eseq s e))
  | .exp (.name l) => covers_discard (covers_value (.name l))
  | .exp (.const c) => covers_discard (covers_value (.const c))

end

/-! ## Bodies -/

/-- The code for each part of a body is a piece of the code for the body. -/
theorem covers_parts (body : List Stm) :
    Covers target (body.flatMap Stm.parts) (Stm.selectAll target body) := by
  induction body with
  | nil => exact covers_pure ()
  | cons s rest ih =>
      rw [Stm.selectAll]
      exact (covers_statement s).bind fun _ => ih

theorem covers_statements (body : List Stm) :
    Covers target (body.flatMap Stm.nested) (Stm.selectAll target body) :=
  (covers_parts body).mono fun _ hB =>
    have ⟨s, hs, hB⟩ := List.mem_flatMap.1 hB
    List.mem_flatMap.2 ⟨s, hs, s.nested_subset hB⟩

/-- The code for each sequence of a body is a piece of the code for the body. -/
theorem covers_body (body : List Stm) :
    Covers target (Stm.sequences body) (Stm.selectAll target body) where
  appends := (covers_statements body).appends
  selects B hB S a S' hrun := by
    rcases List.mem_cons.1 hB with rfl | hB
    · exact ⟨S, S', (selectAll_flatMap_sequence body).symm ▸ hrun, .refl S, .refl S'⟩
    · exact (covers_statements body).selects B hB S a S' hrun

/-- So is the code for each statement of a sequence, and behind it stands the code for the
statements that follow it. -/
theorem exists_piece {body pre post : List Stm} {s : Stm} {S S' : State}
    (hB : pre ++ s :: post ∈ Stm.sequences body)
    (hrun : (Stm.selectAll target body).run.run S = (.ok (), S')) :
    ∃ S₁ S₂ S₃, Follows S S₁ ∧ (s.select target).run.run S₁ = (.ok (), S₂) ∧
      (Stm.selectAll target post).run.run S₂ = (.ok (), S₃) ∧ Follows S₃ S' := by
  obtain ⟨S₀, S₃, hall, hbefore, hafter⟩ := (covers_body body).selects _ hB S () S' hrun
  rw [selectAll_append, Stm.selectAll] at hall
  obtain ⟨_, S₁, hpre, hrest⟩ := exists_of_run_bind hall
  obtain ⟨_, S₂, hs, hpost⟩ := exists_of_run_bind hrest
  exact ⟨S₁, S₂, S₃, hbefore.trans ((covers_statements pre).follows hpre), hs, hpost, hafter⟩

end Selection

end TreeCompiler
