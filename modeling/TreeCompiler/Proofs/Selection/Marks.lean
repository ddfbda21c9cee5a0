import TreeCompiler.Proofs.Selection.Sequences
import TreeCompiler.Proofs.Selection.Tiles

/-!
# Marks — what selected code owes to the tree alone

Selected operations mention temps that are handed out on the way, but the labels that they define
and refer to, the words in which they pass arguments and the room that is reserved for these can be
read off the tree (`Stm.marks`).  Every immediate and every offset that a tile puts into an
operation fits its field.  Both are kept by every tile whose operands keep them (`Yields`), and so
hold of each tree (`yields_statements`).
-/

namespace TreeCompiler

/-! ## Numbers in operations -/

/-- The offset fits its field. -/
def Address.Fits : Address → Prop
  | .frame offset => isImm32 offset = true
  | .base _ offset => isImm32 offset = true

/-- An immediate fits its field. -/
def Operand.Fits : Operand → Prop
  | .imm c => isImm32 c = true
  | .temp _ => True

namespace Operation

/-- All immediates and offsets fit their fields; only a move to a register has room for more. -/
def Fits : Operation → Prop
  | .frameAddress _ offset => isImm32 offset = true
  | .load _ a => a.Fits
  | .store _ a => a.Fits
  | .storeConstant c a => isImm32 c = true ∧ a.Fits
  | .arith _ _ right => right.Fits
  | .compare _ right => right.Fits
  | .shiftConstant _ _ count => isImm32 count = true
  | _ => True

/-! ## Labels of operations -/

/-- The labels that an operation mentions. -/
def labels : Operation → List Label
  | .label l => [l]
  | .labelAddress _ l => [l]
  | .branch _ t f => [t, f]
  | .jump ls => ls
  | .jumpTo _ ls => ls
  | .call (.direct l) _ => [l]
  | _ => []

/-- A jump without a label to go to. -/
def isStray : Operation → Bool
  | .jump [] => true
  | _ => false

theorem isStray_jump {ls : List Label} (h : ls ≠ []) : (jump ls).isStray = false := by
  cases ls with
  | nil => exact absurd rfl h
  | cons l ls => rfl

/-- Where an instruction may jump to. -/
theorem targets_subset (target : Target) (op : Operation) :
    (op.instr target).targets ⊆ op.labels := by
  cases op with
  | branch | jump | jumpTo => exact List.Subset.refl _
  | arith op dst right => cases right <;> exact List.nil_subset _
  | compare left right => cases right <;> exact List.nil_subset _
  | call callee arguments => cases callee <;> exact List.nil_subset _
  | _ => exact List.nil_subset _

/-- An operation other than a label is no place in the code. -/
theorem label?_instr {op : Operation} (target : Target) (h : ∀ l, op ≠ .label l) :
    (op.instr target).label? = none := by
  cases op with
  | label l => exact absurd rfl (h l)
  | arith op dst right => cases right <;> rfl
  | compare left right => cases right <;> rfl
  | call callee arguments => cases callee <;> rfl
  | _ => rfl

end Operation

/-! ## Marks -/

namespace Selection

/-- What an action of selection does apart from temps. -/
inductive Mark
  /-- Define a label. -/
  | label (l : Label)
  /-- Refer to labels. -/
  | mention (ls : List Label)
  /-- Store an argument in a word above the stack pointer. -/
  | passed (slot : Nat)
  /-- Reserve room for arguments. -/
  | room (arguments : Nat)

/-- The label that is defined. -/
def Mark.label? : Mark → Option Label
  | .label l => some l
  | _ => none

/-- The labels that are defined or referred to. -/
def Mark.labels : Mark → List Label
  | .label l => [l]
  | .mention ls => ls
  | _ => []

/-- Store arguments in memory and make room for them. -/
def passingMarks (target : Target) (count : Nat) : List Mark :=
  let memory := count - target.machine.roles.arguments.length
  (List.range' 0 memory).map .passed ++ [.room memory]

/-- A call, given the marks of the callee and of the arguments. -/
def callMarks (target : Target) (f : Exp) (function arguments : List Mark) (count : Nat) :
    List Mark :=
  match f with
  | .name l => arguments ++ (passingMarks target count ++ [.mention [l]])
  | _ => function ++ (arguments ++ passingMarks target count)

/-- A jump, given the marks of the address. -/
def jumpMarks (e : Exp) (address : List Mark) (labels : List Label) : List Mark :=
  match e with
  | .name l => [.mention (if labels = [] then [l] else labels)]
  | _ => address ++ [.mention labels]

end Selection

open Selection

mutual

/-- The marks of the code for an expression, in order. -/
def Exp.marks (target : Target) : Exp → List Mark
  | .binop _ l r => l.marks target ++ r.marks target
  | .mem a => a.marks target
  | .temp _ => []
  | .eseq s e => s.marks target ++ e.marks target
  | .name l => [.mention [l]]
  | .const _ => []
  | .call f args => callMarks target f (f.marks target) (Exp.marksAll target args) args.length

def Exp.marksAll (target : Target) : List Exp → List Mark
  | [] => []
  | e :: es => e.marks target ++ Exp.marksAll target es

/-- The marks of the code for a statement, in order. -/
def Stm.marks (target : Target) : Stm → List Mark
  | .seq a b => a.marks target ++ b.marks target
  | .label l => [.label l]
  | .jump e labels => jumpMarks e (e.marks target) labels
  | .cjump _ l r t f => l.marks target ++ (r.marks target ++ [.mention [t, f]])
  | .move d s => d.marks target ++ s.marks target
  | .exp e => e.marks target

end

namespace Selection

/-! ## Operations with marks -/

/-- An operation with its marks.  All numbers in it fit their fields, except that nothing limits the
word in which an argument is stored. -/
inductive Marked (target : Target) : Operation → List Mark → Prop
  | label (l : Label) : Marked target (.label l) [.label l]
  | argument (v : Temp) (slot : Nat) :
      Marked target (.store v (argumentAddress target slot)) [.passed slot]
  | plain {op : Operation} (hfits : op.Fits) (hlabels : op.labels = [])
      (hjump : op.isStray = false) : Marked target op []
  | mention {op : Operation} (hfits : op.Fits) (hlabel : ∀ l, op ≠ .label l)
      (hjump : op.isStray = false) : Marked target op [.mention op.labels]

/-- Operations in order with their marks, and room that is reserved between them. -/
inductive MarkedAll (target : Target) : List Operation → List Mark → Prop
  | nil : MarkedAll target [] []
  | cons {op : Operation} {ops : List Operation} {ms ms' : List Mark} (h : Marked target op ms)
      (hrest : MarkedAll target ops ms') : MarkedAll target (op :: ops) (ms ++ ms')
  | room {ops : List Operation} {ms : List Mark} (n : Nat) (hrest : MarkedAll target ops ms) :
      MarkedAll target ops (.room n :: ms)

theorem MarkedAll.append {target : Target} {ops ops' : List Operation} {ms ms' : List Mark}
    (h : MarkedAll target ops ms) (h' : MarkedAll target ops' ms') :
    MarkedAll target (ops ++ ops') (ms ++ ms') := by
  induction h with
  | nil => exact h'
  | cons hop _ ih =>
      rw [List.append_assoc]
      exact .cons hop ih
  | room n _ ih => exact .room n ih

/-- The labels that an operation defines are those in its marks. -/
theorem Marked.label? {target : Target} {op : Operation} {ms : List Mark}
    (h : Marked target op ms) : (op.instr target).label?.toList = ms.filterMap Mark.label? := by
  cases h with
  | label | argument => rfl
  | plain _ hlabels _ =>
      rw [op.label?_instr target]
      · rfl
      · rintro l rfl
        cases hlabels
  | mention _ hlabel _ =>
      rw [op.label?_instr target hlabel]
      rfl

/-- Operations define the labels in their marks, in order. -/
theorem MarkedAll.labels {target : Target} {ops : List Operation} {ms : List Mark}
    (h : MarkedAll target ops ms) :
    (ops.map (Operation.instr target)).filterMap Instr.label? = ms.filterMap Mark.label? := by
  induction h with
  | nil => rfl
  | @cons op ops ms ms' hop _ ih =>
      rw [List.filterMap_append, ← hop.label?, ← ih, List.map_cons, List.filterMap_cons]
      cases (op.instr target).label? <;> rfl
  | room n _ ih => exact ih

/-! ## Actions -/

/-- An action with its marks, as it is put together from smaller ones, and what is true of its
result. -/
inductive Yields (target : Target) : {α : Type} → SelectM α → List Mark → (α → Prop) → Prop
  | pure {α : Type} {v : α} {Q : α → Prop} (h : Q v) : Yields target (pure v) [] Q
  | throw {α : Type} {Q : α → Prop} (e : SelectionError) (ms : List Mark) :
      Yields target (throw e) ms Q
  | fresh : Yields target fresh [] fun _ => True
  | reserveOutgoing (n : Nat) : Yields target (reserveOutgoing n) [.room n] fun _ => True
  | emit {op : Operation} {ms : List Mark} (h : Marked target op ms) :
      Yields target (emit op) ms fun _ => True
  | bind {α β : Type} {x : SelectM α} {f : α → SelectM β} {ms ms' : List Mark} {Q : α → Prop}
      {P : β → Prop} (hx : Yields target x ms Q) (hf : ∀ v, Q v → Yields target (f v) ms' P) :
      Yields target (x >>= f) (ms ++ ms') P

section Yields

variable {target : Target} {α β : Type} {x : SelectM α} {f : α → SelectM β} {ms ms' : List Mark}
  {Q : α → Prop} {P : β → Prop} {S S' : State} {v : α}

/-- What comes first has no marks. -/
theorem Yields.nil_bind (hx : Yields target x [] Q) (hf : ∀ v, Q v → Yields target (f v) ms P) :
    Yields target (x >>= f) ms P := hx.bind hf

/-- What follows has no marks. -/
theorem Yields.bind_nil (hx : Yields target x ms Q) (hf : ∀ v, Q v → Yields target (f v) [] P) :
    Yields target (x >>= f) ms P := List.append_nil ms ▸ hx.bind hf

/-- An operation without labels. -/
theorem yields_plain (op : Operation) (hfits : op.Fits) (hlabels : op.labels = [])
    (hjump : op.isStray = false) : Yields target (emit op) [] fun _ => True :=
  .emit (.plain hfits hlabels hjump)

/-- An operation that refers to labels. -/
theorem yields_mention (op : Operation) (hfits : op.Fits) (hlabel : ∀ l, op ≠ .label l)
    (hjump : op.isStray = false) : Yields target (emit op) [.mention op.labels] fun _ => True :=
  .emit (.mention hfits hlabel hjump)

/-- Room for arguments before an action, and what the action asks for. -/
def Mark.widen (n : Nat) : Mark → Nat
  | .room k => max n k
  | _ => n

theorem Marked.widen {op : Operation} (h : Marked target op ms) (n : Nat) :
    ms.foldl Mark.widen n = n := by
  cases h <;> rfl

/-- An action that succeeds appends operations that have its marks, and reserves the room. -/
theorem Yields.run (h : Yields target x ms Q) (hrun : x.run.run S = (.ok v, S')) : Q v ∧
    (∃ ops, S'.operations.toList = S.operations.toList ++ ops ∧ MarkedAll target ops ms) ∧
    S'.memoryArguments = ms.foldl Mark.widen S.memoryArguments := by
  induction h generalizing S S' with
  | pure h =>
      cases hrun
      exact ⟨h, ⟨[], (List.append_nil _).symm, .nil⟩, rfl⟩
  | throw => cases hrun
  | fresh =>
      cases hrun
      exact ⟨trivial, ⟨[], (List.append_nil _).symm, .nil⟩, rfl⟩
  | reserveOutgoing n =>
      cases hrun
      exact ⟨trivial, ⟨[], (List.append_nil _).symm, .room n .nil⟩, rfl⟩
  | @emit op ms hop =>
      cases hrun
      refine ⟨trivial, ⟨[op], Array.toList_push, ?_⟩, (hop.widen _).symm⟩
      exact List.append_nil ms ▸ .cons hop .nil
  | bind _ _ ihx ihf =>
      obtain ⟨w, S₁, hx, hf⟩ := exists_of_run_bind hrun
      obtain ⟨hw, ⟨ops, hops, hmarked⟩, hroom⟩ := ihx hx
      obtain ⟨hv, ⟨ops', hops', hmarked'⟩, hroom'⟩ := ihf w hw hf
      refine ⟨hv, ⟨ops ++ ops', ?_, hmarked.append hmarked'⟩, ?_⟩
      · rw [hops', hops, List.append_assoc]
      · rw [hroom', hroom, List.foldl_append]

end Yields

/-! ## Operands without marks -/

section Nothing

variable {target : Target} {e : Exp} {c : Int}

theorem marks_of_constant? (h : e.constant? = some c) : e.marks target = [] := by
  rw [constant?_eq_some h]
  rfl

theorem marks_of_immediate? (h : immediate? e = some c) : e.marks target = [] := by
  rw [(immediate?_eq_some h).1]
  rfl

theorem marks_of_isFramePointer (h : isFramePointer target e = true) : e.marks target = [] := by
  cases e <;> first | rfl | cases h

end Nothing

/-! ## Tiles -/

section Tiles

variable {target : Target} {α : Type} {x : SelectM α} {Q : α → Prop} {ms : List Mark}
  {left right value : SelectM Temp} {e l r source : Exp} {address : SelectM Address}

/-- An action whose result does not matter here. -/
abbrev YieldsAny (target : Target) (x : SelectM α) (ms : List Mark) : Prop :=
  Yields target x ms fun _ => True

theorem yields_into (op : Temp → Operation) (h : ∀ dst, Marked target (op dst) ms) :
    YieldsAny target (do let dst ← fresh; emit (op dst); return dst) ms :=
  Yields.fresh.nil_bind fun dst _ => (Yields.emit (h dst)).bind_nil fun _ _ => .pure trivial

theorem yields_copyOut (src : Temp) :
    YieldsAny target (do let dst ← fresh; emit (.copy dst src); return dst) [] :=
  yields_into _ fun _ => .plain trivial rfl rfl

theorem yields_intoVirtual (hx : YieldsAny target value ms) :
    YieldsAny target (intoVirtual target value) ms := by
  refine hx.bind_nil fun t _ => ?_
  split
  · exact yields_copyOut t
  · exact .pure trivial

theorem yields_operand (hx : YieldsAny target value (e.marks target)) :
    Yields target (operand e value) (e.marks target) Operand.Fits := by
  unfold operand
  split
  · rename_i c hc
    rw [marks_of_immediate? hc]
    exact .pure (immediate?_eq_some hc).2
  · rw [map_eq_pure_bind]
    exact hx.bind_nil fun _ _ => .pure trivial

/-! ### Addresses -/

theorem yields_base {offset : Int} (hx : YieldsAny target value ms)
    (hfits : isImm32 offset = true) :
    Yields target (do return .base (← value) offset) ms Address.Fits :=
  hx.bind_nil fun _ _ => .pure hfits

theorem yields_baseAddress {offset : Int} (hx : YieldsAny target value (e.marks target))
    (hfits : isImm32 offset = true) :
    Yields target (baseAddress target e value offset) (e.marks target) Address.Fits := by
  unfold baseAddress
  split
  · rw [marks_of_isFramePointer ‹_›]
    exact .pure hfits
  · exact yields_base hx hfits

theorem yields_sumAddress (hl : YieldsAny target left (l.marks target))
    (hr : YieldsAny target right (r.marks target))
    (hsum : YieldsAny target value (l.marks target ++ r.marks target)) :
    Yields target (sumAddress target l r left right value) (l.marks target ++ r.marks target)
      Address.Fits := by
  unfold sumAddress
  split
  · rename_i c hc
    rw [marks_of_immediate? hc, List.append_nil]
    exact yields_baseAddress hl (immediate?_eq_some hc).2
  · rename_i c _ hc
    rw [marks_of_immediate? hc]
    exact yields_baseAddress hr (immediate?_eq_some hc).2
  · exact yields_base hsum rfl

theorem yields_differenceAddress (hl : YieldsAny target left (l.marks target))
    (hdifference : YieldsAny target value (l.marks target ++ r.marks target)) :
    Yields target (differenceAddress target l r left value) (l.marks target ++ r.marks target)
      Address.Fits := by
  unfold differenceAddress
  split
  · rename_i c hc
    obtain ⟨d, hd, -⟩ := Option.map_eq_some_iff.1 hc
    split
    · rw [marks_of_constant? hd, List.append_nil]
      exact yields_baseAddress hl ‹_›
    · exact yields_base hdifference rfl
  · exact yields_base hdifference rfl

/-! ### Values -/

theorem yields_tempValue (t : Temp) : YieldsAny target (tempValue target t) [] := by
  unfold tempValue
  split
  · exact yields_into _ fun _ => .plain rfl rfl rfl
  · exact .pure trivial

theorem yields_loadInto (ha : Yields target address ms Address.Fits) (dst : Temp) :
    YieldsAny target (loadInto dst address) ms :=
  ha.bind_nil fun _ hfits => yields_plain (.load _ _) hfits rfl rfl

theorem yields_loadValue (ha : Yields target address ms Address.Fits) :
    YieldsAny target (loadValue address) ms :=
  Yields.fresh.nil_bind fun dst _ => (yields_loadInto ha dst).bind_nil fun _ _ => .pure trivial

theorem yields_arith {right : SelectM Operand} {ms' : List Mark} (op : ArithOp)
    (hl : YieldsAny target left ms) (hr : Yields target right ms' Operand.Fits) :
    YieldsAny target (arith op left right) (ms ++ ms') :=
  hl.bind fun _ _ => hr.bind_nil fun _ hfits => Yields.fresh.nil_bind fun _ _ =>
    (yields_plain (.copy _ _) trivial rfl rfl).nil_bind fun _ _ =>
    (yields_plain (.arith _ _ _) hfits rfl rfl).nil_bind fun _ _ => .pure trivial

theorem yields_multiply {ms' : List Mark} (hl : YieldsAny target left ms)
    (hr : YieldsAny target right ms') :
    YieldsAny target (multiply target left right) (ms ++ ms') :=
  hl.bind fun _ _ => (yields_intoVirtual hr).bind_nil fun _ _ =>
    (yields_plain (.copy _ _) trivial rfl rfl).nil_bind fun _ _ =>
    (yields_plain (.multiply _) trivial rfl rfl).nil_bind fun _ _ => yields_copyOut _

theorem yields_divide {ms' : List Mark} (hl : YieldsAny target left ms)
    (hr : YieldsAny target right ms') :
    YieldsAny target (divide target left right) (ms ++ ms') :=
  hl.bind fun _ _ => (yields_intoVirtual hr).bind_nil fun _ _ =>
    (yields_plain (.copy _ _) trivial rfl rfl).nil_bind fun _ _ =>
    (yields_plain (.signExtend) trivial rfl rfl).nil_bind fun _ _ =>
    (yields_plain (.divide _) trivial rfl rfl).nil_bind fun _ _ => yields_copyOut _

/-- A shift count is taken modulo the width of a word. -/
theorem isImm32_emod (c : Int) : isImm32 (c % 64) = true := by
  unfold isImm32
  have hpos := Int.emod_nonneg c (b := 64) (by decide)
  have hlt := Int.emod_lt_of_pos c (b := 64) (by decide)
  simp only [Bool.and_eq_true, decide_eq_true_eq]
  omega

theorem yields_shift (op : ShiftOp) (hl : YieldsAny target left ms)
    (hr : YieldsAny target right (r.marks target)) :
    YieldsAny target (shift target op r left right) (ms ++ r.marks target) := by
  refine hl.bind fun _ _ => ?_
  split
  · rename_i c hc
    rw [marks_of_constant? hc]
    exact Yields.fresh.nil_bind fun _ _ =>
      (yields_plain (.copy _ _) trivial rfl rfl).nil_bind fun _ _ =>
      (yields_plain (.shiftConstant _ _ _) (isImm32_emod c) rfl rfl).nil_bind fun _ _ =>
        .pure trivial
  · exact (yields_intoVirtual hr).bind_nil fun _ _ => Yields.fresh.nil_bind fun _ _ =>
      (yields_plain (.copy _ _) trivial rfl rfl).nil_bind fun _ _ =>
      (yields_plain (.copy _ _) trivial rfl rfl).nil_bind fun _ _ =>
      (yields_plain (.shift _ _) trivial rfl rfl).nil_bind fun _ _ => .pure trivial

theorem yields_sum (hl : YieldsAny target left (l.marks target))
    (hr : YieldsAny target right (r.marks target)) :
    YieldsAny target (sum target l r left right) (l.marks target ++ r.marks target) := by
  unfold sum
  split
  · rename_i c hfp hc
    rw [marks_of_isFramePointer hfp, marks_of_immediate? hc]
    exact yields_into _ fun _ => .plain (immediate?_eq_some hc).2 rfl rfl
  · exact yields_arith .add hl (yields_operand hr)

theorem yields_binop (op : BinOp) (hl : YieldsAny target left (l.marks target))
    (hr : YieldsAny target right (r.marks target)) :
    YieldsAny target (binop target op l r left right) (l.marks target ++ r.marks target) := by
  cases op with
  | plus => exact yields_sum hl hr
  | minus | and | or | xor => exact yields_arith _ hl (yields_operand hr)
  | mul => exact yields_multiply hl hr
  | div => exact yields_divide hl hr
  | lshift | rshift | arshift => exact yields_shift _ hl hr

/-! ### Calls -/

theorem yields_storeArguments (slot : Nat) (ts : List Temp) :
    YieldsAny target (storeArguments target slot ts)
      ((List.range' slot ts.length).map .passed) := by
  induction ts generalizing slot with
  | nil => exact .pure trivial
  | cons v rest ih => exact (Yields.emit (.argument v slot)).bind fun _ _ => ih (slot + 1)

theorem yields_moveArguments (passed : List (Temp × Temp)) :
    YieldsAny target (moveArguments passed) [] := by
  induction passed with
  | nil => exact .pure trivial
  | cons e rest ih => exact (yields_plain (.copy _ _) trivial rfl rfl).nil_bind fun _ _ => ih

/-- A call with the callee at hand. -/
theorem yields_callOf {arguments : SelectM (List Temp)} {callee : Callee} {count : Nat}
    {ms' : List Mark} (hargs : Yields target arguments ms fun values => values.length = count)
    (hcall : ∀ registers, Marked target (.call callee registers) ms') :
    YieldsAny target (call target (pure callee) arguments)
      (ms ++ (passingMarks target count ++ ms')) := by
  unfold call
  rw [pure_bind]
  refine hargs.bind fun values hcount => ?_
  subst hcount
  unfold passingMarks
  dsimp only
  rw [← List.length_drop, List.append_assoc]
  refine (yields_storeArguments 0 _).bind fun _ _ => ?_
  rw [List.length_drop]
  exact (Yields.reserveOutgoing _).bind fun _ _ =>
    (yields_moveArguments _).nil_bind fun _ _ => .emit (hcall _)

/-- A call through an address. -/
theorem yields_indirectCall {arguments : SelectM (List Temp)} {count : Nat} {ms' : List Mark}
    (hx : YieldsAny target value ms)
    (hargs : Yields target arguments ms' fun values => values.length = count) :
    YieldsAny target (call target (Callee.indirect <$> intoVirtual target value) arguments)
      (ms ++ (ms' ++ passingMarks target count)) := by
  have hbind : call target (Callee.indirect <$> intoVirtual target value) arguments =
      intoVirtual target value >>= fun t => call target (pure (.indirect t)) arguments := by
    simp [call]
  rw [hbind]
  refine (yields_intoVirtual hx).bind fun t _ => ?_
  have hcall := yields_callOf hargs fun registers =>
    (.plain trivial rfl rfl : Marked target (.call (.indirect t) registers) [])
  rwa [List.append_nil] at hcall

theorem yields_call {f : Exp} {arguments : SelectM (List Temp)} {count : Nat} {ms' : List Mark}
    (hx : YieldsAny target value ms)
    (hargs : Yields target arguments ms' fun values => values.length = count) :
    YieldsAny target (call target (callee target f value) arguments)
      (callMarks target f ms ms' count) := by
  cases f with
  | name l => exact yields_callOf hargs fun _ => .mention trivial nofun rfl
  | binop | mem | temp | eseq | const | call => exact yields_indirectCall hx hargs

theorem yields_callValue {call : SelectM Unit} (h : YieldsAny target call ms) :
    YieldsAny target (callValue target call) ms := h.bind_nil fun _ _ => yields_copyOut _

/-! ### Statements -/

theorem yields_discard (hx : Yields target x ms Q) :
    YieldsAny target (discard x : SelectM Unit) ms := by
  have hmap : (discard x : SelectM Unit) = x >>= fun _ => pure () := map_eq_pure_bind _ x
  rw [hmap]
  exact hx.bind_nil fun _ _ => .pure trivial

theorem yields_jump (labels : List Label) (hx : YieldsAny target value ms) :
    YieldsAny target (jump e labels value) (jumpMarks e ms labels) := by
  cases e with
  | name l =>
      refine yields_mention (.jump _) trivial nofun ?_
      split
      · rfl
      · exact Operation.isStray_jump ‹_›
  | binop | mem | temp | eseq | const | call =>
      exact hx.bind fun _ _ => yields_mention (.jumpTo _ labels) trivial nofun rfl

theorem yields_cjump (op : RelOp) (ifTrue ifFalse : Label)
    (hl : YieldsAny target left (l.marks target)) (hr : YieldsAny target right (r.marks target)) :
    YieldsAny target (cjump op l r left right ifTrue ifFalse)
      (l.marks target ++ (r.marks target ++ [.mention [ifTrue, ifFalse]])) := by
  have hbranch : ∀ op : RelOp, YieldsAny target (emit (.branch op ifTrue ifFalse))
      [.mention [ifTrue, ifFalse]] := fun _ =>
    yields_mention (.branch _ ifTrue ifFalse) trivial nofun rfl
  unfold cjump
  split
  · rename_i c hc _
    have hleft := yields_operand hl
    rw [marks_of_constant? hc] at hleft ⊢
    exact hr.bind fun _ _ => hleft.nil_bind fun _ hfits =>
      (yields_plain (.compare _ _) hfits rfl rfl).nil_bind fun _ _ => hbranch _
  · exact hl.bind fun _ _ => (yields_operand hr).bind fun _ hfits =>
      (yields_plain (.compare _ _) hfits rfl rfl).nil_bind fun _ _ => hbranch _

theorem yields_moveToMemory (ha : Yields target address ms Address.Fits)
    (hv : YieldsAny target value (source.marks target)) :
    YieldsAny target (moveToMemory source address value) (ms ++ source.marks target) := by
  refine ha.bind fun a hfits => ?_
  split
  · rename_i c hc
    rw [marks_of_immediate? hc]
    exact yields_plain (.storeConstant _ _) ⟨(immediate?_eq_some hc).2, hfits⟩ rfl rfl
  · exact hv.bind_nil fun _ _ => yields_plain (.store _ _) hfits rfl rfl

theorem yields_moveToTemp (t : Temp) {load? : Option (SelectM Address)}
    (hload : ∀ address ∈ load?, Yields target address (source.marks target) Address.Fits)
    (hv : YieldsAny target value (source.marks target)) :
    YieldsAny target (moveToTemp t source load? value) (source.marks target) := by
  unfold moveToTemp
  split
  · rename_i c hc
    rw [marks_of_constant? hc]
    exact yields_plain (.constant _ _) trivial rfl rfl
  · exact yields_loadInto (hload _ rfl) t
  · exact hv.bind_nil fun _ _ => yields_plain (.copy _ _) trivial rfl rfl

end Tiles

/-! ## Trees -/

section Trees

variable {target : Target}

theorem yields_address {e : Exp} {x : SelectM Temp} (hx : YieldsAny target x (e.marks target))
    (hoperands : ∀ op l r, e = .binop op l r →
      YieldsAny target (l.select target) (l.marks target) ∧
        YieldsAny target (r.select target) (r.marks target)) :
    Yields target (e.selectAddress target x) (e.marks target) Address.Fits := by
  unfold Exp.selectAddress
  split
  · exact yields_sumAddress (hoperands _ _ _ rfl).1 (hoperands _ _ _ rfl).2 hx
  · exact yields_differenceAddress (hoperands _ _ _ rfl).1 hx
  · exact yields_baseAddress hx rfl

mutual

theorem yields_value : (e : Exp) → YieldsAny target (e.select target) (e.marks target)
  | .binop op l r => by
      rw [Exp.select]
      exact yields_binop op (yields_value l) (yields_value r)
  | .mem e => by
      rw [Exp.select]
      exact yields_loadValue (yields_address (yields_value e) (yields_operands e))
  | .temp t => by
      rw [Exp.select]
      exact yields_tempValue t
  | .eseq s e => by
      rw [Exp.select]
      exact (yields_statement s).bind fun _ _ => yields_value e
  | .name l => by
      rw [Exp.select]
      exact yields_into _ fun _ => .mention trivial nofun rfl
  | .const c => by
      rw [Exp.select]
      exact yields_into _ fun _ => .plain trivial rfl rfl
  | .call f args => by
      rw [Exp.select]
      exact yields_callValue (yields_call (yields_value f) (yields_values args))

theorem yields_values : (es : List Exp) → Yields target (Exp.selectAll target es)
    (Exp.marksAll target es) fun values => values.length = es.length
  | [] => .pure rfl
  | e :: es => by
      rw [Exp.selectAll]
      exact (yields_intoVirtual (yields_value e)).bind fun _ _ =>
        (yields_values es).bind_nil fun _ hlength => .pure (congrArg Nat.succ hlength)

theorem yields_operands : (e : Exp) → ∀ op l r, e = .binop op l r →
    YieldsAny target (l.select target) (l.marks target) ∧
      YieldsAny target (r.select target) (r.marks target)
  | .binop _ l r, _, _, _, rfl => ⟨yields_value l, yields_value r⟩

theorem yields_source : (e : Exp) → ∀ address ∈ e.selectSource? target,
    Yields target address (e.marks target) Address.Fits
  | .mem e, _, rfl => yields_address (yields_value e) (yields_operands e)

theorem yields_destination {source : Exp} {load? : Option (SelectM Address)}
    {value : SelectM Temp}
    (hload : ∀ address ∈ load?, Yields target address (source.marks target) Address.Fits)
    (hv : YieldsAny target value (source.marks target)) : (d : Exp) →
    YieldsAny target (d.selectDestination target source load? value)
      (d.marks target ++ source.marks target)
  | .mem e => by
      rw [Exp.selectDestination]
      exact yields_moveToMemory (yields_address (yields_value e) (yields_operands e)) hv
  | .temp t => by
      rw [Exp.selectDestination]
      exact yields_moveToTemp t hload hv
  | .eseq s d => by
      rw [Exp.selectDestination, Exp.marks, List.append_assoc]
      exact (yields_statement s).bind fun _ _ => yields_destination hload hv d
  | .binop .. => .throw _ _
  | .name _ => .throw _ _
  | .const _ => .throw _ _
  | .call .. => .throw _ _

theorem yields_statement : (s : Stm) → YieldsAny target (s.select target) (s.marks target)
  | .seq a b => by
      rw [Stm.select]
      exact (yields_statement a).bind fun _ _ => yields_statement b
  | .label l => by
      rw [Stm.select]
      exact .emit (.label l)
  | .jump e labels => by
      rw [Stm.select]
      exact yields_jump labels (yields_value e)
  | .cjump op l r t f => by
      rw [Stm.select]
      exact yields_cjump op t f (yields_value l) (yields_value r)
  | .move d s => by
      rw [Stm.select]
      exact yields_destination (yields_source s) (yields_value s) d
  | .exp (.call f args) => by
      rw [Stm.select]
      exact yields_call (yields_value f) (yields_values args)
  | .exp (.binop op l r) => yields_discard (yields_value (.binop op l r))
  | .exp (.mem e) => yields_discard (yields_value (.mem e))
  | .exp (.temp t) => yields_discard (yields_value (.temp t))
  | .exp (.eseq s e) => yields_discard (yields_value (.eseq s e))
  | .exp (.name l) => yields_discard (yields_value (.name l))
  | .exp (.const c) => yields_discard (yields_value (.const c))

end

/-- The code for a body has the marks of its statements in order. -/
theorem yields_statements (body : List Stm) :
    YieldsAny target (Stm.selectAll target body) (body.flatMap (Stm.marks target)) := by
  induction body with
  | nil => exact .pure trivial
  | cons s rest ih =>
      rw [Stm.selectAll, List.flatMap_cons]
      exact (yields_statement s).bind fun _ _ => ih

end Trees

end Selection

end TreeCompiler
