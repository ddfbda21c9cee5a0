import TreeCompiler.Proofs.Selection.Computation

/-!
# Tiles — what the operations of one tile compute

Each tile computes its operator if the actions that it is given compute the operands.
-/

namespace TreeCompiler

namespace Selection

open X86

variable {symbol : String} {k : Nat} {β γ : Type}

/-! ## Leaves of selection -/

/-- Operations that leave a value in a fresh temp and otherwise change registers only. -/
theorem computes_fresh {S S' : State} {given : Scope symbol → Processor → β} {x : SelectM Temp}
    {eval : Scope symbol → β → World → Option (Word × World)} (ops : List Operation)
    (hk : Temp.firstVirtual ≤ k) (hS : k ≤ S.namer.nextTemp)
    (hrun : x.run.run S = (.ok ⟨S.namer.nextTemp⟩, S'))
    (hops : S'.operations.toList = S.operations.toList ++ ops)
    (hnext : S'.namer.nextTemp = S.namer.nextTemp + 1)
    (hargs : S'.memoryArguments = S.memoryArguments)
    (hexec : ∀ (σ : Scope symbol) p w v w', Agrees k σ p w → eval σ (given σ p) w = some (v, w') →
      ∃ q, Operation.execAll σ.symbols symbol ops p = some q ∧ Keeps S.namer.nextTemp p q ∧
        q.world = p.world ∧ w' = w ∧ q.file ⟨S.namer.nextTemp⟩ = v) :
    Computes k S given x eval := by
  refine ⟨_, S', ops, hrun, ⟨hops, by omega, hargs.ge⟩, hnext ▸ virtual_fresh (hk.trans hS), ?_⟩
  intro σ p w v w' _ hagrees heval
  obtain ⟨q, hq, hkeeps, hworld, rfl, hv⟩ := hexec σ p w v w' hagrees heval
  exact ⟨q, hq, hkeeps, hagrees.of_keeps hkeeps hS hworld, hv⟩

/-- One operation that puts a value into a fresh temp. -/
theorem computes_single {S : State} {given : Scope symbol → Processor → β}
    {eval : Scope symbol → β → World → Option (Word × World)} (op : Temp → Operation)
    (g : Scope symbol → Processor → Word) (hk : Temp.firstVirtual ≤ k) (hS : k ≤ S.namer.nextTemp)
    (hexec : ∀ (σ : Scope symbol) p t, (op t).exec σ.symbols symbol p = some (p.set t (g σ p)))
    (heval : ∀ (σ : Scope symbol) p w, Agrees k σ p w →
      eval σ (given σ p) w = some (g σ p, w)) :
    Computes k S given (do let dst ← fresh; emit (op dst); return dst) eval := by
  refine computes_fresh [op ⟨S.namer.nextTemp⟩] hk hS rfl (by simp) rfl rfl ?_
  intro σ p w v w' hagrees h
  obtain ⟨rfl, rfl⟩ := Prod.mk.inj (Option.some.inj ((heval σ p w hagrees).symm.trans h))
  exact ⟨_, (Operation.execAll_singleton _).trans (hexec σ p _),
    (Keeps.refl _ p).set (not_lasting_fresh (hk.trans hS)), rfl, rfl, Processor.file_set_self ..⟩

/-- A result that is at hand. -/
theorem computes_pure {α : Type} [Result α γ] {S : State} {given : Scope symbol → Processor → β}
    {a : α} {eval : Scope symbol → β → World → Option (γ × World)}
    (hlasts : Result.lasts S.namer.nextTemp a)
    (heval : ∀ (σ : Scope symbol) p w, Agrees k σ p w →
      eval σ (given σ p) w = some (Result.value σ p a, w)) :
    Computes k S given (pure a) eval := by
  refine ⟨a, S, [], rfl, .refl S, hlasts, ?_⟩
  intro σ p w v w' _ hagrees h
  obtain ⟨rfl, rfl⟩ := Prod.mk.inj (Option.some.inj ((heval σ p w hagrees).symm.trans h))
  exact ⟨p, rfl, .refl _ p, hagrees, rfl⟩

/-- A result made of another one by no operation. -/
theorem Evaluates.map {α δ ε : Type} [Result α γ] [Result δ ε] {x : SelectM α} {f : α → δ}
    {ev : Scope symbol → World → Option (γ × World)} (g : γ → ε) (hx : Evaluates k x ev)
    (hf : ∀ n a, Result.lasts n a → Result.lasts n (f a))
    (hg : ∀ (σ : Scope symbol) p a, Result.value σ p (f a) = g (Result.value σ p a)) :
    Evaluates k (do return f (← x) : SelectM δ) fun σ w => (ev σ w).map fun a => (g a.1, a.2) := by
  refine (hx.bind (fun _ v w => some (g v, w)) fun a S _ ha => ?_).congr fun σ w => ?_
  · exact computes_pure (hf _ a ha) fun σ p w _ => congrArg (fun v => some (v, w)) (hg σ p a).symm
  · exact Option.map_eq_bind

/-! ## Operands -/

theorem immediate?_eq_some {e : Exp} {c : Int} (h : immediate? e = some c) :
    e = .const c ∧ isImm32 c = true := by
  obtain ⟨hc, himm⟩ := Option.filter_eq_some_iff.1 h
  cases e <;> simp only [Exp.constant?, reduceCtorEq, Option.some.injEq] at hc
  exact ⟨congrArg _ hc, himm⟩

theorem constant?_eq_some {e : Exp} {c : Int} (h : e.constant? = some c) : e = .const c := by
  cases e <;> simp only [Exp.constant?, reduceCtorEq, Option.some.injEq] at h
  exact congrArg _ h

theorem isFramePointer_iff {e : Exp} : isFramePointer (.x86_64 symbol) e = true ↔
    e = .temp Machine.x86_64.framePointer := by
  cases e <;> simp [isFramePointer]

/-- A value that is in no machine register stays where it is. -/
theorem evaluates_intoVirtual {x : SelectM Temp} {ev : Scope symbol → World → Option (Word × World)}
    (hx : Evaluates k x ev) : Evaluates k (intoVirtual (.x86_64 symbol) x) ev := by
  unfold intoVirtual
  refine (hx.bind (fun _ v w => some (v, w)) fun t S _ ht => ?_).congr fun σ w => ?_
  · rw [if_neg (by rw [ht.1]; exact Bool.false_ne_true)]
    exact computes_pure ht fun _ _ _ _ => rfl
  · cases ev σ w <;> rfl

theorem evaluates_operand {e : Exp} {x : SelectM Temp}
    (hx : Evaluates k x fun (σ : Scope symbol) w => e.eval σ w) :
    Evaluates k (operand e x) fun (σ : Scope symbol) w => e.eval σ w := by
  unfold operand
  split
  · rename_i c hc
    obtain ⟨rfl, himm⟩ := immediate?_eq_some hc
    exact fun S _ => computes_pure himm fun _ _ w _ =>
      congrArg (fun v => some (v, w)) (immediate_eq himm).symm
  · rw [map_eq_pure_bind]
    refine (hx.map (f := Operand.temp) id (fun _ _ h => h) fun _ _ _ => rfl).congr fun σ w => ?_
    exact Option.map_id'.symm

/-! ## Addresses -/

theorem evaluates_baseAddress {e : Exp} {x : SelectM Temp} {offset : Int}
    (hoffset : isImm32 offset = true)
    (hx : Evaluates k x fun (σ : Scope symbol) w => e.eval σ w) :
    Evaluates k (baseAddress (.x86_64 symbol) e x offset) fun (σ : Scope symbol) w =>
      (e.eval σ w).map fun a => (a.1 + BitVec.ofInt 64 offset, a.2) := by
  unfold baseAddress
  split
  · rename_i hfp
    rw [isFramePointer_iff.1 hfp]
    refine fun S _ => computes_pure hoffset fun σ p w hagrees => ?_
    change _ = some (p.file rsp + σ.symbols symbol + immediate offset, w)
    rw [hagrees.framePointer_eq, immediate_eq hoffset]
    rfl
  · exact hx.map (· + BitVec.ofInt 64 offset) (fun _ _ h => ⟨h, hoffset⟩) fun _ p t =>
      congrArg (p.file t + ·) (immediate_eq hoffset)

/-- The value of an address in a register without an offset. -/
theorem evaluates_plainAddress {x : SelectM Temp}
    {ev : Scope symbol → World → Option (Word × World)} (hx : Evaluates k x ev) :
    Evaluates k (do return .base (← x) 0 : SelectM Address) ev := by
  have hlasts : ∀ n t, Result.lasts n t → Result.lasts n (Address.base t 0) :=
    fun _ _ h => ⟨h, by decide⟩
  refine (hx.map id hlasts fun _ p t => ?_).congr fun σ w => ?_
  · change p.file t + immediate 0 = p.file t
    rw [immediate_eq (by decide)]
    exact BitVec.add_zero _
  · exact Option.map_id'.symm

theorem evaluates_sumAddress {l r : Exp} {left right sum : SelectM Temp}
    (hl : Evaluates k left fun (σ : Scope symbol) w => l.eval σ w)
    (hr : Evaluates k right fun (σ : Scope symbol) w => r.eval σ w)
    (hsum : Evaluates k sum fun (σ : Scope symbol) w => (Exp.binop .plus l r).eval σ w) :
    Evaluates k (sumAddress (.x86_64 symbol) l r left right sum) fun (σ : Scope symbol) w =>
      (Exp.binop .plus l r).eval σ w := by
  unfold sumAddress
  split
  · rename_i c hc
    obtain ⟨rfl, himm⟩ := immediate?_eq_some hc
    refine (evaluates_baseAddress himm hl).congr fun σ w => ?_
    rw [Exp.eval]
    cases l.eval σ w <;> rfl
  · rename_i c _ hc
    obtain ⟨rfl, himm⟩ := immediate?_eq_some hc
    refine (evaluates_baseAddress himm hr).congr fun σ w => ?_
    -- the constant has its value before the other operand, which makes no difference
    rw [Exp.eval, Exp.eval, Option.bind_some]
    cases r.eval σ w with
    | none => rfl
    | some b => exact congrArg (fun v => some (v, b.2)) (BitVec.add_comm ..)
  · exact evaluates_plainAddress hsum

theorem evaluates_differenceAddress {l r : Exp} {left difference : SelectM Temp}
    (hl : Evaluates k left fun (σ : Scope symbol) w => l.eval σ w)
    (hdifference : Evaluates k difference fun (σ : Scope symbol) w =>
      (Exp.binop .minus l r).eval σ w) :
    Evaluates k (differenceAddress (.x86_64 symbol) l r left difference)
      fun (σ : Scope symbol) w => (Exp.binop .minus l r).eval σ w := by
  unfold differenceAddress
  split
  · rename_i c hc
    split
    · rename_i himm
      obtain ⟨d, hd, rfl⟩ := Option.map_eq_some_iff.1 hc
      obtain rfl := constant?_eq_some hd
      refine (evaluates_baseAddress himm hl).congr fun σ w => ?_
      rw [Exp.eval]
      cases l.eval σ w with
      | none => rfl
      | some a =>
          refine congrArg (fun v => some (v, a.2)) ?_
          change a.1 - BitVec.ofInt 64 d = a.1 + BitVec.ofInt 64 (-d)
          rw [BitVec.ofInt_neg, BitVec.sub_eq_add_neg]
    · exact evaluates_plainAddress hdifference
  · exact evaluates_plainAddress hdifference

/-! ## Leaves of trees -/

/-- A place in the frame is as far from the stack pointer as the symbol and its offset say. -/
theorem Agrees.frameAddress_eq {σ : Scope symbol} {p : Processor} {w : World} {offset : Int}
    (h : Agrees k σ p w) (hoffset : isImm32 offset = true) :
    (Address.frame offset).value σ.symbols symbol p
      = σ.framePointer + BitVec.ofInt 64 offset := by
  rw [Address.value, h.framePointer_eq, immediate_eq hoffset]

theorem evaluates_tempValue {t : Temp} (hk : Temp.firstVirtual ≤ k)
    (ht : (Exp.temp t).plain k = true) :
    Evaluates k (tempValue (.x86_64 symbol) t) fun (σ : Scope symbol) w =>
      (Exp.temp t).eval σ w := by
  unfold tempValue
  intro S hS
  split
  · rename_i hfp
    refine computes_single (.frameAddress · 0)
      (fun σ p => (Address.frame 0).value σ.symbols symbol p) hk hS
      (fun _ _ _ => Operation.exec_frameAddress ..) ?_
    intro σ p w hagrees
    have hvalue : σ.temp t = σ.framePointer + BitVec.ofInt 64 0 :=
      (if_pos hfp).trans (BitVec.add_zero _).symm
    rw [hagrees.frameAddress_eq (by decide), ← hvalue]
    rfl
  · rename_i hfp
    have hvirtual : Virtual k t := by
      simpa [Exp.plain, show t ≠ Machine.x86_64.framePointer from hfp, Virtual] using ht
    refine computes_pure (hvirtual.mono hS) fun σ p w hagrees => ?_
    have hvalue : σ.temp t = p.file t := (if_neg hfp).trans (hagrees.file t (.inr hvirtual)).symm
    exact congrArg (fun v => some (v, w)) hvalue

theorem evaluates_labelValue (hk : Temp.firstVirtual ≤ k) (l : Label) :
    Evaluates k (labelValue l) fun (σ : Scope symbol) w => (Exp.name l).eval σ w :=
  fun _ hS => computes_single (.labelAddress · l) (fun σ _ => σ.symbols l) hk hS
    (fun _ _ _ => Operation.exec_labelAddress ..) fun _ _ _ _ => rfl

theorem evaluates_constantValue (hk : Temp.firstVirtual ≤ k) (c : Int) :
    Evaluates k (constantValue c) fun (σ : Scope symbol) w => (Exp.const c).eval σ w :=
  fun _ hS => computes_single (.constant · c) (fun _ _ => BitVec.ofInt 64 c) hk hS
    (fun _ _ _ => Operation.exec_constant ..) fun _ _ _ _ => rfl

/-! ## Memory -/

/-- A load reads its word where the tree reads it. -/
theorem evaluates_loadValue {x : SelectM Address}
    {ev : Scope symbol → World → Option (Word × World)} (hk : Temp.firstVirtual ≤ k)
    (hx : Evaluates k x ev) :
    Evaluates k (loadValue x) fun σ w => (ev σ w).bind fun a => a.2.fetch? σ.area a.1 := by
  intro S hS
  have hvirtual : Virtual (S.namer.nextTemp + 1) ⟨S.namer.nextTemp⟩ := virtual_fresh (hk.trans hS)
  -- the destination is handed out before the address is computed
  obtain ⟨a, S', ops, hrun, hext, -, hexec⟩ :=
    hx { S with namer := S.namer.freshTemp.2 } (Nat.le_succ_of_le hS)
  refine ⟨⟨S.namer.nextTemp⟩,
    { S' with operations := S'.operations.push (.load ⟨S.namer.nextTemp⟩ a) },
    ops ++ [.load ⟨S.namer.nextTemp⟩ a], ?_, ?_, hvirtual.mono hext.nextTemp_le, ?_⟩
  · have hload : (loadInto ⟨S.namer.nextTemp⟩ x).run.run { S with namer := S.namer.freshTemp.2 } =
        (.ok (), { S' with operations := S'.operations.push (.load ⟨S.namer.nextTemp⟩ a) }) :=
      run_bind_ok hrun
    exact run_bind_ok hload
  · refine ⟨?_, Nat.le_of_succ_le hext.nextTemp_le, hext.memoryArguments_le⟩
    rw [Array.toList_push, hext.operations, List.append_assoc]
  · intro σ p w v w' hwords hagrees heval
    obtain ⟨⟨b, w₁⟩, heval₁, hfetch⟩ := Option.bind_eq_some_iff.1 heval
    obtain ⟨q, hq, hkeeps, hagrees₁, rfl⟩ := hexec σ p w b w₁ hwords hagrees heval₁
    unfold World.fetch? at hfetch
    split at hfetch
    · cases hfetch
    · rename_i hmeets
      obtain ⟨rfl, rfl⟩ := Prod.mk.inj (Option.some.inj hfetch)
      have hapart := Bool.eq_false_iff.2 hmeets
      have hkeeps' : Keeps S.namer.nextTemp p q := fun t ht => hkeeps t (ht.mono (Nat.le_succ _))
      refine ⟨_, (Operation.execAll_append hq).trans
        ((Operation.execAll_singleton _).trans (Operation.exec_load ..)),
        hkeeps'.read.set (not_lasting_fresh (hk.trans hS)), ?_, ?_⟩
      · exact (hagrees₁.read hapart).of_keeps
          ((Keeps.refl _ _).set (not_lasting_fresh (hk.trans hS))) hS rfl
      · exact (Processor.file_set_self ..).trans (hagrees₁.load_eq hapart)

/-! ## Arithmetic -/

theorem evaluates_arith {op : ArithOp} {left : SelectM Temp} {right : SelectM Operand}
    {evl evr : Scope symbol → World → Option (Word × World)} (hk : Temp.firstVirtual ≤ k)
    (hl : Evaluates k left evl) (hr : Evaluates k right evr) :
    Evaluates k (arith op left right) fun σ w =>
      (evl σ w).bind fun a => (evr σ a.2).bind fun b => some (op.apply a.1 b.1, b.2) := by
  refine hl.bind₂ (fun _ e w => some (op.apply e.1 e.2, w)) hr fun l r S hS hlv hrv => ?_
  refine computes_fresh [.copy ⟨S.namer.nextTemp⟩ l, .arith op ⟨S.namer.nextTemp⟩ r] hk hS rfl
    (by simp) rfl rfl ?_
  intro σ p w v w' _ h
  obtain ⟨rfl, rfl⟩ := Prod.mk.inj (Option.some.inj h)
  have hfresh := not_lasting_fresh (hk.trans hS)
  have hcopy : Keeps S.namer.nextTemp p (p.set ⟨S.namer.nextTemp⟩ (p.file l)) :=
    (Keeps.refl _ p).set hfresh
  refine ⟨_, (Operation.execAll_cons (Operation.exec_copy ..)).trans
    ((Operation.execAll_singleton _).trans (Operation.exec_arith ..)), hcopy.compute hfresh, rfl,
    rfl, ?_⟩
  rw [Processor.file_compute_self, Processor.file_set_self]
  exact congrArg _ (Result.value_eq (σ := σ) hrv hcopy)

/-- The product is taken in `%rax`, where it leaves the word that the tree has. -/
theorem evaluates_multiply {left right : SelectM Temp}
    {evl evr : Scope symbol → World → Option (Word × World)} (hk : Temp.firstVirtual ≤ k)
    (hl : Evaluates k left evl) (hr : Evaluates k right evr) :
    Evaluates k (multiply (.x86_64 symbol) left right) fun σ w =>
      (evl σ w).bind fun a => (evr σ a.2).bind fun b => some (a.1 * b.1, b.2) := by
  refine hl.bind₂ (fun _ e w => some (e.1 * e.2, w)) (evaluates_intoVirtual hr)
    fun l r S hS _ hrv => ?_
  refine computes_fresh [.copy rax l, .multiply r, .copy ⟨S.namer.nextTemp⟩ rax] hk hS rfl
    (by simp [rax, Machine.x86_64]) rfl rfl ?_
  intro σ p w v w' _ h
  obtain ⟨rfl, rfl⟩ := Prod.mk.inj (Option.some.inj h)
  have hcopy : Keeps S.namer.nextTemp p (p.set rax (p.file l)) :=
    (Keeps.refl _ p).set not_lasting_rax
  refine ⟨_, (Operation.execAll_cons (Operation.exec_copy ..)).trans
    ((Operation.execAll_cons (Operation.exec_multiply ..)).trans
      ((Operation.execAll_singleton _).trans (Operation.exec_copy ..))),
    ((hcopy.compute not_lasting_rax).set not_lasting_rdx).set (not_lasting_fresh (hk.trans hS)),
    rfl, rfl, ?_⟩
  -- the upper half goes to `%rdx`, and the right operand was not in the way of the copy to `%rax`
  rw [Processor.file_set_self, Processor.file_set_of_ne _ _ (by decide),
    Processor.file_compute_self, Processor.file_set_self, setWidth_product, hcopy r (.inr hrv)]
  rfl

/-- The quotient is taken in `%rax` and `%rdx`, and exists where the tree has one. -/
theorem evaluates_divide {left right : SelectM Temp}
    {evl evr : Scope symbol → World → Option (Word × World)} (hk : Temp.firstVirtual ≤ k)
    (hl : Evaluates k left evl) (hr : Evaluates k right evr) :
    Evaluates k (divide (.x86_64 symbol) left right) fun σ w =>
      (evl σ w).bind fun a => (evr σ a.2).bind fun b =>
        (BinOp.div.value? a.1 b.1).map fun v => (v, b.2) := by
  refine hl.bind₂ (fun _ e w => (BinOp.div.value? e.1 e.2).map fun v => (v, w))
    (evaluates_intoVirtual hr) fun l r S hS _ hrv => ?_
  refine computes_fresh [.copy rax l, .signExtend, .divide r, .copy ⟨S.namer.nextTemp⟩ rax] hk hS
    rfl (by simp [rax, Machine.x86_64]) rfl rfl ?_
  intro σ p w v w' _ h
  obtain ⟨u, hu, heq⟩ := Option.map_eq_some_iff.1 h
  obtain ⟨rfl, rfl⟩ := Prod.mk.inj heq
  obtain ⟨m, hquotient⟩ := quotient?_of_value hu
  -- the dividend, before it is divided
  let extended := (p.set rax (p.file l)).set rdx ((p.file l).sshiftRight 63)
  have hextend : Keeps S.namer.nextTemp p extended :=
    ((Keeps.refl _ p).set not_lasting_rax).set not_lasting_rdx
  have hdivide : Operation.exec σ.symbols symbol extended (.divide r) =
      some ((extended.compute rax u).set rdx m) := by
    rw [Operation.exec_divide, Processor.file_set_self, Processor.file_set_of_ne _ _ (by decide),
      Processor.file_set_self, hextend r (.inr hrv)]
    exact congrArg _ hquotient
  refine ⟨_, (Operation.execAll_cons (Operation.exec_copy ..)).trans
    ((Operation.execAll_cons ?_).trans ((Operation.execAll_cons hdivide).trans
      ((Operation.execAll_singleton _).trans (Operation.exec_copy ..)))),
    ((hextend.compute not_lasting_rax).set not_lasting_rdx).set (not_lasting_fresh (hk.trans hS)),
    rfl, rfl, ?_⟩
  · rw [Operation.exec_signExtend, Processor.file_set_self]
  · rw [Processor.file_set_self, Processor.file_set_of_ne _ _ (by decide),
      Processor.file_compute_self]

/-! ## Shifts -/

/-- A constant count modulo 64 is the count that the tree has. -/
theorem ShiftOp.apply_constant (op : ShiftOp) (a : Word) (c : Int) :
    op.apply a (BitVec.ofInt 8 (c % 64)).toNat = op.apply a (BitVec.ofInt 64 c).toNat := by
  have hcount : (BitVec.ofInt 8 (c % 64)).toNat % 64 = (BitVec.ofInt 64 c).toNat % 64 := by
    rw [BitVec.toNat_ofInt, BitVec.toNat_ofInt]
    omega
  cases op <;> rw [ShiftOp.apply, ShiftOp.apply, hcount]

theorem evaluates_shift {op : ShiftOp} {r : Exp} {left right : SelectM Temp}
    {evl : Scope symbol → World → Option (Word × World)} (hk : Temp.firstVirtual ≤ k)
    (hl : Evaluates k left evl) (hr : Evaluates k right fun (σ : Scope symbol) w => r.eval σ w) :
    Evaluates k (shift (.x86_64 symbol) op r left right) fun (σ : Scope symbol) w =>
      (evl σ w).bind fun a => (r.eval σ a.2).bind fun b => some (op.apply a.1 b.1.toNat, b.2) := by
  unfold shift
  cases hc : r.constant? with
  | some c =>
      obtain rfl := constant?_eq_some hc
      dsimp only
      refine (hl.bind (fun _ v w => some (op.apply v (BitVec.ofInt 64 c).toNat, w))
        fun l S hS _ => ?_).congr fun σ w => ?_
      · refine computes_fresh
          [.copy ⟨S.namer.nextTemp⟩ l, .shiftConstant op ⟨S.namer.nextTemp⟩ (c % 64)] hk hS rfl
          (by simp) rfl rfl ?_
        intro σ p w v w' _ h
        obtain ⟨rfl, rfl⟩ := Prod.mk.inj (Option.some.inj h)
        have hfresh := not_lasting_fresh (hk.trans hS)
        refine ⟨_, (Operation.execAll_cons (Operation.exec_copy ..)).trans
          ((Operation.execAll_singleton _).trans (Operation.exec_shiftConstant ..)),
          ((Keeps.refl _ p).set hfresh).compute hfresh, rfl, rfl, ?_⟩
        rw [Processor.file_compute_self, Processor.file_set_self, ShiftOp.apply_constant]
        rfl
      · rfl
  | none =>
      dsimp only
      refine hl.bind₂ (fun _ (e : Word × Word) w => some (op.apply e.1 e.2.toNat, w))
        (evaluates_intoVirtual hr) fun l r S hS _ hrv => ?_
      refine computes_fresh [.copy ⟨S.namer.nextTemp⟩ l, .copy rcx r, .shift op ⟨S.namer.nextTemp⟩]
        hk hS rfl (by simp [rcx, Machine.x86_64]) rfl rfl ?_
      intro σ p w v w' _ h
      obtain ⟨rfl, rfl⟩ := Prod.mk.inj (Option.some.inj h)
      have hfresh := not_lasting_fresh (hk.trans hS)
      have hcopy : Keeps S.namer.nextTemp p (p.set ⟨S.namer.nextTemp⟩ (p.file l)) :=
        (Keeps.refl _ p).set hfresh
      -- the count is copied behind the left operand, so neither copy overwrites the other
      have hne : (⟨S.namer.nextTemp⟩ : Temp) ≠ rcx := (virtual_fresh (hk.trans hS)).ne (by decide)
      refine ⟨_, (Operation.execAll_cons (Operation.exec_copy ..)).trans
        ((Operation.execAll_cons (Operation.exec_copy ..)).trans
          ((Operation.execAll_singleton _).trans (Operation.exec_shift ..))),
        (hcopy.set not_lasting_rcx).compute hfresh, rfl, rfl, ?_⟩
      rw [Processor.file_compute_self, Processor.file_set_self, Processor.file_set_of_ne _ _ hne,
        Processor.file_set_self, hcopy r (.inr hrv)]
      rfl

/-! ## Operators -/

theorem evaluates_sum {l r : Exp} {left right : SelectM Temp} (hk : Temp.firstVirtual ≤ k)
    (hl : Evaluates k left fun (σ : Scope symbol) w => l.eval σ w)
    (hr : Evaluates k right fun (σ : Scope symbol) w => r.eval σ w) :
    Evaluates k (sum (.x86_64 symbol) l r left right) fun (σ : Scope symbol) w =>
      (Exp.binop .plus l r).eval σ w := by
  unfold sum
  split
  · rename_i c hfp hc
    obtain rfl := isFramePointer_iff.1 hfp
    obtain ⟨rfl, himm⟩ := immediate?_eq_some hc
    refine fun S hS => computes_single (.frameAddress · c)
      (fun σ p => (Address.frame c).value σ.symbols symbol p) hk hS
      (fun _ _ _ => Operation.exec_frameAddress ..) ?_
    exact fun σ p w hagrees => congrArg (fun v => some (v, w)) (hagrees.frameAddress_eq himm).symm
  · exact (evaluates_arith hk hl (evaluates_operand hr)).congr fun _ _ => rfl

/-- The tiles of an operator compute it, if its operands are computed. -/
theorem evaluates_binop (op : BinOp) {l r : Exp} {left right : SelectM Temp}
    (hk : Temp.firstVirtual ≤ k)
    (hl : Evaluates k left fun (σ : Scope symbol) w => l.eval σ w)
    (hr : Evaluates k right fun (σ : Scope symbol) w => r.eval σ w) :
    Evaluates k (binop (.x86_64 symbol) op l r left right) fun (σ : Scope symbol) w =>
      (Exp.binop op l r).eval σ w := by
  cases op with
  | plus => exact evaluates_sum hk hl hr
  | minus => exact (evaluates_arith hk hl (evaluates_operand hr)).congr fun _ _ => rfl
  | and => exact (evaluates_arith hk hl (evaluates_operand hr)).congr fun _ _ => rfl
  | or => exact (evaluates_arith hk hl (evaluates_operand hr)).congr fun _ _ => rfl
  | xor => exact (evaluates_arith hk hl (evaluates_operand hr)).congr fun _ _ => rfl
  | mul => exact (evaluates_multiply hk hl hr).congr fun _ _ => rfl
  | div => exact (evaluates_divide hk hl hr).congr fun _ _ => rfl
  | lshift => exact (evaluates_shift hk hl hr).congr fun _ _ => rfl
  | rshift => exact (evaluates_shift hk hl hr).congr fun _ _ => rfl
  | arshift => exact (evaluates_shift hk hl hr).congr fun _ _ => rfl

end Selection

end TreeCompiler
