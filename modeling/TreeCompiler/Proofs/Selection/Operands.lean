import TreeCompiler.Proofs.Selection.Sequences
import TreeCompiler.Proofs.Trees

/-!
# Operands — the temps of selected operations

An operation of a tree mentions temps of the tree, registers, and temps that were handed out for it.
It defines only temps that the tree moves to, the registers that its tiles are tied to
(`Stm.tied`), and fresh temps (`admits_statement`).  Selection is followed from the numbers of temps
that were handed out so far: an action that was given temps before some number goes on to a later
one (`Admits`).
-/

namespace TreeCompiler

/-- Registers that selected code writes by itself. -/
def Roles.written (r : Roles) : List Temp :=
  r.arguments ++ r.callerSaves ++ [r.returnValue, r.mulDiv.1, r.mulDiv.2, r.shiftCount]

theorem Machine.isRegister_of_written {m : Machine} {t : Temp} (h : t ∈ m.roles.written) :
    m.isRegister t = true := by
  apply isRegister_of_role
  unfold Roles.written at h
  unfold Roles.all
  grind

theorem Machine.lt_firstVirtual_of_written {m : Machine} {t : Temp} (h : t ∈ m.roles.written) :
    t.id < Temp.firstVirtual := lt_firstVirtual (isRegister_of_written h)

/-! ## Registers of tiles -/

/-- The registers that a call writes. -/
def Machine.callTied (m : Machine) : List Temp := m.callDefs ++ m.roles.arguments

/-- The registers that the tile of an operator writes, given the right operand. -/
def BinOp.tied (m : Machine) (r : Exp) : BinOp → List Temp
  | .mul | .div => [m.roles.mulDiv.1, m.roles.mulDiv.2]
  | .lshift | .rshift | .arshift => if r.constant?.isSome then [] else [m.roles.shiftCount]
  | _ => []

mutual

/-- The registers that the tiles of an expression write. -/
def Exp.tied (m : Machine) : Exp → List Temp
  | .binop op l r => op.tied m r ++ (l.tied m ++ r.tied m)
  | .mem a => a.tied m
  | .temp _ => []
  | .eseq s e => s.tied m ++ e.tied m
  | .name _ => []
  | .const _ => []
  | .call f args => m.callTied ++ (f.tied m ++ Exp.tiedAll m args)

def Exp.tiedAll (m : Machine) : List Exp → List Temp
  | [] => []
  | e :: es => e.tied m ++ Exp.tiedAll m es

/-- The registers that the tiles of a statement write. -/
def Stm.tied (m : Machine) : Stm → List Temp
  | .seq a b => a.tied m ++ b.tied m
  | .label _ => []
  | .jump e _ => e.tied m
  | .cjump _ l r _ _ => l.tied m ++ r.tied m
  | .move d s => d.tied m ++ s.tied m
  | .exp e => e.tied m

end

section Tied

variable {m : Machine}

theorem mem_written_of_callDefs {t : Temp} (h : t ∈ m.callDefs) : t ∈ m.roles.written := by
  unfold Machine.callDefs at h
  unfold Roles.written
  grind

theorem Machine.callTied_subset : m.callTied ⊆ m.roles.written := by
  intro t ht
  rcases List.mem_append.1 ht with ht | ht
  · exact mem_written_of_callDefs ht
  · simp [Roles.written, ht]

theorem BinOp.tied_subset (op : BinOp) (r : Exp) : op.tied m r ⊆ m.roles.written := by
  cases op <;> simp only [BinOp.tied] <;> (try split) <;> simp [Roles.written]

mutual

/-- Tiles write only registers that selected code writes by itself. -/
theorem Exp.tied_subset : ∀ e : Exp, e.tied m ⊆ m.roles.written
  | .binop op l r => List.append_subset.2 ⟨op.tied_subset r,
      List.append_subset.2 ⟨l.tied_subset, r.tied_subset⟩⟩
  | .mem a => a.tied_subset
  | .temp _ => List.nil_subset _
  | .eseq s e => List.append_subset.2 ⟨s.tied_subset, e.tied_subset⟩
  | .name _ => List.nil_subset _
  | .const _ => List.nil_subset _
  | .call f args => List.append_subset.2 ⟨Machine.callTied_subset,
      List.append_subset.2 ⟨f.tied_subset, Exp.tiedAll_subset args⟩⟩

theorem Exp.tiedAll_subset : ∀ es : List Exp, Exp.tiedAll m es ⊆ m.roles.written
  | [] => List.nil_subset _
  | e :: es => List.append_subset.2 ⟨e.tied_subset, Exp.tiedAll_subset es⟩

theorem Stm.tied_subset : ∀ s : Stm, s.tied m ⊆ m.roles.written
  | .seq a b => List.append_subset.2 ⟨a.tied_subset, b.tied_subset⟩
  | .label _ => List.nil_subset _
  | .jump e _ => e.tied_subset
  | .cjump _ l r _ _ => List.append_subset.2 ⟨l.tied_subset, r.tied_subset⟩
  | .move d s => List.append_subset.2 ⟨d.tied_subset, s.tied_subset⟩
  | .exp e => e.tied_subset

end

end Tied

/-! ## Operations -/

/-- An operation on temps before number `k` that defines only some of them. -/
structure Operation.Admitted (target : Target) (D : Temp → Prop) (k : Nat) (op : Operation) :
    Prop where
  lt : ∀ t ∈ (op.instr target).defs ++ (op.instr target).uses, t.id < k
  defs : ∀ d ∈ (op.instr target).defs, D d

theorem Operation.Admitted.mono {target : Target} {D : Temp → Prop} {k k' : Nat} {op : Operation}
    (h : op.Admitted target D k) (hle : k ≤ k') : op.Admitted target D k' :=
  ⟨fun t ht => Nat.lt_of_lt_of_le (h.lt t ht) hle, h.defs⟩

/-- No operation jumps and defines something. -/
theorem Operation.defs_of_targets {target : Target} {op : Operation}
    (h : (op.instr target).targets ≠ []) : (op.instr target).defs = [] := by
  cases op with
  | branch | jump | jumpTo => rfl
  | arith op dst right => cases right <;> exact absurd rfl h
  | compare left right => cases right <;> exact absurd rfl h
  | call callee arguments => cases callee <;> exact absurd rfl h
  | _ => exact absurd rfl h

namespace Selection

/-- The temps before a number. -/
def Before (t : Temp) (k : Nat) : Prop := t.id < k

def Operand.Before (r : Operand) (k : Nat) : Prop := ∀ t, r = .temp t → t.id < k

def Address.Before (a : Address) (k : Nat) : Prop := ∀ t offset, a = .base t offset → t.id < k

def Callee.Before (c : Callee) (k : Nat) : Prop := ∀ t, c = .indirect t → t.id < k

def BeforeAll (ts : List Temp) (k : Nat) : Prop := ∀ t ∈ ts, t.id < k

/-- What may be defined: all temps from a number on. -/
structure Opens (low : Nat) (D : Temp → Prop) : Prop where
  virtual : Temp.firstVirtual ≤ low
  fresh : ∀ t : Temp, low ≤ t.id → D t

/-- What may be defined: all temps from a number on, and the registers that tiles are tied to. -/
structure Defines (m : Machine) (low : Nat) (D : Temp → Prop) : Prop where
  virtual : Temp.firstVirtual ≤ low
  fresh : ∀ t : Temp, low ≤ t.id → D t
  written : ∀ t ∈ m.roles.written, D t

section Admitted

variable {target : Target} {D : Temp → Prop} {low k : Nat} {dst src t : Temp} {a : Address}
  {r : Operand}

theorem Defines.opens (hD : Defines target.machine low D) : Opens low D := ⟨hD.virtual, hD.fresh⟩

theorem Opens.lt_of_written (hD : Opens low D) (hk : low ≤ k)
    (h : t ∈ target.machine.roles.written) : t.id < k :=
  Nat.lt_of_lt_of_le (Machine.lt_firstVirtual_of_written h) (hD.virtual.trans hk)

theorem Opens.sp_lt (hD : Opens low D) (hk : low ≤ k) :
    target.machine.stackPointer.id < k :=
  Nat.lt_of_lt_of_le (Machine.lt_firstVirtual (Machine.isRegister_stackPointer _))
    (hD.virtual.trans hk)

theorem register_lt (hD : Opens low D) (hk : low ≤ k) (ha : Address.Before a k) :
    (a.register target).id < k := by
  cases a with
  | frame => exact hD.sp_lt hk
  | base t offset => exact ha t offset rfl

/-- An operation with these operands. -/
theorem admitted_of {op : Operation} (defs uses : List Temp) (hdefs : (op.instr target).defs = defs)
    (huses : (op.instr target).uses = uses) (hd : ∀ d ∈ defs, D d ∧ d.id < k)
    (hu : ∀ t ∈ uses, t.id < k) : op.Admitted target D k := by
  subst hdefs huses
  exact ⟨fun t ht => (List.mem_append.1 ht).elim (fun ht => (hd t ht).2) (hu t),
    fun d hd' => (hd d hd').1⟩

theorem admitted_copy (hdst : D dst) (hlt : dst.id < k) (hsrc : src.id < k) :
    (Operation.copy dst src).Admitted target D k :=
  admitted_of [dst] [src] rfl rfl (by simp [hdst, hlt]) (by simp [hsrc])

theorem admitted_load (hD : Opens low D) (hk : low ≤ k) (hdst : D dst)
    (hlt : dst.id < k) (ha : Address.Before a k) : (Operation.load dst a).Admitted target D k :=
  admitted_of [dst] [a.register target] rfl rfl (by simp [hdst, hlt])
    (by simp [register_lt hD hk ha])

theorem admitted_arith (op : ArithOp) (hdst : D dst) (hlt : dst.id < k) (hr : Operand.Before r k) :
    (Operation.arith op dst r).Admitted target D k := by
  cases r with
  | imm c => exact admitted_of [dst] [dst] rfl rfl (by simp [hdst, hlt]) (by simp [hlt])
  | temp t =>
      exact admitted_of [dst] [t, dst] rfl rfl (by simp [hdst, hlt]) (by simp [hlt, hr t rfl])

theorem admitted_compare (hlt : t.id < k) (hr : Operand.Before r k) :
    (Operation.compare t r).Admitted target D k := by
  cases r with
  | imm c => exact admitted_of [] [t] rfl rfl (by simp) (by simp [hlt])
  | temp u => exact admitted_of [] [t, u] rfl rfl (by simp) (by simp [hlt, hr u rfl])

theorem admitted_call (hD : Opens low D) (hk : low ≤ k) {f : Callee} {arguments : List Temp}
    (hcall : ∀ t ∈ target.machine.callDefs, D t) (hf : Callee.Before f k)
    (hargs : BeforeAll arguments k) :
    (Operation.call f arguments).Admitted target D k := by
  have hdefs : ∀ d ∈ target.machine.callDefs, D d ∧ d.id < k := fun d hd =>
    ⟨hcall d hd, hD.lt_of_written hk (mem_written_of_callDefs hd)⟩
  cases f with
  | direct l => exact admitted_of _ arguments rfl rfl hdefs hargs
  | indirect u =>
      exact admitted_of _ (u :: arguments) rfl rfl hdefs (List.forall_mem_cons.2 ⟨hf u rfl, hargs⟩)

end Admitted

/-! ## Actions -/

/-- From temps before number `k`, an action goes on to appended operations that are admitted, and to
a result that is all right with the temps that were handed out then. -/
def Admits {α : Type} (target : Target) (D : Temp → Prop) (k : Nat) (x : SelectM α)
    (Q : α → Nat → Prop) : Prop :=
  ∀ S a S', k ≤ S.namer.nextTemp → x.run.run S = (a, S') →
    ∃ ops, Extends S S' ops ∧ (∀ op ∈ ops, op.Admitted target D S'.namer.nextTemp) ∧
      ∀ v, a = .ok v → Q v S'.namer.nextTemp

section Admits

variable {target : Target} {D : Temp → Prop} {low k k' : Nat} {α β : Type} {x : SelectM α}
  {f : α → SelectM β} {Q : α → Nat → Prop} {P : β → Nat → Prop}

theorem Admits.mono (h : Admits target D k x Q) (hle : k ≤ k') : Admits target D k' x Q :=
  fun S a S' hS hrun => h S a S' (hle.trans hS) hrun

theorem admits_pure {v : α} (h : ∀ k', k ≤ k' → Q v k') : Admits target D k (pure v) Q := by
  intro S a S' hS hrun
  cases hrun
  exact ⟨[], .refl S, fun op hop => absurd hop List.not_mem_nil, fun v' hv => by
    cases hv
    exact h _ hS⟩

theorem admits_throw (e : SelectionError) : Admits target D k (throw e : SelectM α) Q := by
  intro S a S' _ hrun
  cases hrun
  exact ⟨[], .refl S, fun op hop => absurd hop List.not_mem_nil, fun v hv => by cases hv⟩

theorem Admits.bind (hx : Admits target D k x Q)
    (hf : ∀ v k', k ≤ k' → Q v k' → Admits target D k' (f v) P) :
    Admits target D k (x >>= f) P := by
  intro S b S' hS hrun
  rcases hx₁ : x.run.run S with ⟨e | v, S₁⟩
  · obtain ⟨ops, hext, hops, -⟩ := hx S _ S₁ hS hx₁
    rw [run_bind_error hx₁] at hrun
    cases hrun
    exact ⟨ops, hext, hops, fun v hv => by cases hv⟩
  · obtain ⟨ops, hext, hops, hv⟩ := hx S _ S₁ hS hx₁
    rw [run_bind_ok hx₁] at hrun
    obtain ⟨ops', hext', hops', hQ⟩ :=
      hf v _ (hS.trans hext.nextTemp_le) (hv v rfl) S₁ b S' (Nat.le_refl _) hrun
    refine ⟨ops ++ ops', hext.trans hext', fun op hop => ?_, hQ⟩
    rcases List.mem_append.1 hop with hop | hop
    · exact (hops op hop).mono hext'.nextTemp_le
    · exact hops' op hop

/-- An action whose result does not matter. -/
abbrev AdmitsUnit (target : Target) (D : Temp → Prop) (k : Nat) (x : SelectM Unit) : Prop :=
  Admits target D k x fun _ _ => True

theorem admits_emit {op : Operation} (h : op.Admitted target D k) :
    AdmitsUnit target D k (emit op) := by
  intro S a S' hS hrun
  cases hrun
  refine ⟨[op], extends_of_emit rfl, fun op' hop => ?_, fun _ _ => trivial⟩
  rw [List.mem_singleton.1 hop]
  exact h.mono hS

theorem Admits.emit_bind {op : Operation} {x : SelectM α} (hop : op.Admitted target D k)
    (hx : Admits target D k x Q) : Admits target D k (do emit op; x) Q :=
  (admits_emit hop).bind fun _ _ hk _ => hx.mono hk

theorem admits_fresh : Admits target D k fresh fun t k' => k ≤ t.id ∧ t.id < k' := by
  intro S a S' hS hrun
  cases hrun
  refine ⟨[], ⟨(List.append_nil _).symm, Nat.le_succ _, Nat.le_refl _⟩,
    fun op hop => absurd hop List.not_mem_nil, fun v hv => ?_⟩
  cases hv
  exact ⟨hS, Nat.lt_succ_self _⟩

theorem admits_reserveOutgoing (n : Nat) : AdmitsUnit target D k (reserveOutgoing n) := by
  intro S a S' hS hrun
  cases hrun
  exact ⟨[], ⟨(List.append_nil _).symm, Nat.le_refl _, Nat.le_max_left _ _⟩,
    fun op hop => absurd hop List.not_mem_nil, fun _ _ => trivial⟩

end Admits

/-! ## Tiles -/

section Tiles

variable {target : Target} {D : Temp → Prop} {low k : Nat} {left right value : SelectM Temp}
  {x : SelectM Temp} {e l r : Exp} {address : SelectM Address}

theorem Operand.Before.mono {o : Operand} {k k' : Nat} (h : Operand.Before o k) (hle : k ≤ k') :
    Operand.Before o k' := fun t ht => Nat.lt_of_lt_of_le (h t ht) hle

theorem Address.Before.mono {a : Address} {k k' : Nat} (h : Address.Before a k) (hle : k ≤ k') :
    Address.Before a k' := fun t o ht => Nat.lt_of_lt_of_le (h t o ht) hle

theorem Callee.Before.mono {c : Callee} {k k' : Nat} (h : Callee.Before c k) (hle : k ≤ k') :
    Callee.Before c k' := fun t ht => Nat.lt_of_lt_of_le (h t ht) hle

theorem before_mono {t : Temp} {k k' : Nat} (h : Before t k) (hle : k ≤ k') : Before t k' :=
  Nat.lt_of_lt_of_le h hle

/-- An operation with a fresh destination. -/
theorem admits_into (hD : Opens low D) (hk : low ≤ k) (op : Temp → Operation)
    (h : ∀ dst k', k ≤ k' → D dst → dst.id < k' → (op dst).Admitted target D k') :
    Admits target D k (do let dst ← fresh; emit (op dst); return dst) Before :=
  admits_fresh.bind fun dst k₁ hk₁ hdst =>
    .emit_bind (h dst k₁ hk₁ (hD.fresh dst (hk.trans hdst.1)) hdst.2) <|
      admits_pure fun _ hk₂ => before_mono hdst.2 hk₂

theorem admits_intoVirtual (hD : Opens low D) (hx : Admits target D low x Before) :
    Admits target D low (intoVirtual target x) Before := by
  refine hx.bind fun t k₁ hk₁ ht => ?_
  split
  · exact admits_into hD hk₁ _ fun dst k₂ hk₂ hdst hlt =>
      admitted_copy hdst hlt (before_mono ht hk₂)
  · exact admits_pure fun _ hk₂ => before_mono ht hk₂

theorem admits_operand (hx : Admits target D low x Before) :
    Admits target D low (operand e x) Operand.Before := by
  unfold operand
  split
  · exact admits_pure fun _ _ t ht => by cases ht
  · rw [map_eq_pure_bind]
    exact hx.bind fun t _ _ ht => admits_pure fun _ hk₂ u hu => by
      cases hu
      exact before_mono ht hk₂

theorem admits_baseAddress (hx : Admits target D low x Before) (offset : Int) :
    Admits target D low (baseAddress target e x offset) Address.Before := by
  unfold baseAddress
  split
  · exact admits_pure fun _ _ t o ht => by cases ht
  · exact hx.bind fun t _ _ ht => admits_pure fun _ hk₂ u o hu => by
      cases hu
      exact before_mono ht hk₂

theorem admits_base (hx : Admits target D low x Before) :
    Admits target D low (do return .base (← x) 0) Address.Before :=
  hx.bind fun t _ _ ht => admits_pure fun _ hk₂ u o hu => by
    cases hu
    exact before_mono ht hk₂

theorem admits_sumAddress (hl : Admits target D low left Before)
    (hr : Admits target D low right Before) (hsum : Admits target D low value Before) :
    Admits target D low (sumAddress target l r left right value) Address.Before := by
  unfold sumAddress
  split
  · exact admits_baseAddress hl _
  · exact admits_baseAddress hr _
  · exact admits_base hsum

theorem admits_differenceAddress (hl : Admits target D low left Before)
    (hdifference : Admits target D low value Before) :
    Admits target D low (differenceAddress target l r left value) Address.Before := by
  unfold differenceAddress
  split
  · split
    · exact admits_baseAddress hl _
    · exact admits_base hdifference
  · exact admits_base hdifference

theorem admits_tempValue (hD : Opens low D) {t : Temp} (ht : t.id < low) :
    Admits target D low (tempValue target t) Before := by
  unfold tempValue
  split
  · exact admits_into hD (Nat.le_refl low) _ fun dst k₁ hk₁ hdst hlt =>
      admitted_of [dst] [target.machine.stackPointer] rfl rfl (by simp [hdst, hlt])
        (by simp [hD.sp_lt hk₁])
  · exact admits_pure fun _ hk₁ => Nat.lt_of_lt_of_le ht hk₁

theorem admits_labelValue (hD : Opens low D) (l : Label) :
    Admits target D low (labelValue l) Before :=
  admits_into hD (Nat.le_refl low) _ fun dst _ _ hdst hlt =>
    admitted_of [dst] [] rfl rfl (by simp [hdst, hlt]) (by simp)

theorem admits_constantValue (hD : Opens low D) (c : Int) :
    Admits target D low (constantValue c) Before :=
  admits_into hD (Nat.le_refl low) _ fun dst _ _ hdst hlt =>
    admitted_of [dst] [] rfl rfl (by simp [hdst, hlt]) (by simp)

theorem admits_loadInto (hD : Opens low D) {dst : Temp} (hk : low ≤ k) (hdst : D dst)
    (hlt : dst.id < k) (h : Admits target D low address Address.Before) :
    AdmitsUnit target D k (loadInto dst address) :=
  (h.mono hk).bind fun _ _ hk₁ ha =>
    admits_emit (admitted_load hD (hk.trans hk₁) hdst (before_mono hlt hk₁) ha)

theorem admits_loadValue (hD : Opens low D)
    (h : Admits target D low address Address.Before) :
    Admits target D low (loadValue address) Before :=
  admits_fresh.bind fun dst _ hk₁ hdst =>
    (admits_loadInto hD hk₁ (hD.fresh dst hdst.1) hdst.2 h).bind fun _ _ hk₂ _ =>
      admits_pure fun _ hk₃ => before_mono hdst.2 (hk₂.trans hk₃)

theorem admits_arith (hD : Opens low D) {right : SelectM Operand} (op : ArithOp)
    (hl : Admits target D low left Before) (hr : Admits target D low right Operand.Before) :
    Admits target D low (arith op left right) Before :=
  hl.bind fun _ _ hk₁ ha => (hr.mono hk₁).bind fun _ _ hk₂ hb =>
    admits_fresh.bind fun dst _ hk₃ hdst =>
      have hpermitted := hD.fresh dst (hk₁.trans (hk₂.trans hdst.1))
      .emit_bind (admitted_copy hpermitted hdst.2 (before_mono ha (hk₂.trans hk₃))) <|
        .emit_bind (admitted_arith op hpermitted hdst.2 (hb.mono hk₃)) <|
          admits_pure fun _ hk₄ => before_mono hdst.2 hk₄

/-- A result is copied out of a register. -/
theorem admits_copyOut (hD : Opens low D) (hk : low ≤ k) {src : Temp}
    (hsrc : src ∈ target.machine.roles.written) :
    Admits target D k (do let dst ← fresh; emit (.copy dst src); return dst) Before :=
  admits_into hD hk _ fun _ _ hk₁ hdst hlt =>
    admitted_copy hdst hlt (hD.lt_of_written (hk.trans hk₁) hsrc)

theorem mem_written_low (m : Machine) : m.roles.mulDiv.1 ∈ m.roles.written := by
  simp [Roles.written]

theorem mem_written_high (m : Machine) : m.roles.mulDiv.2 ∈ m.roles.written := by
  simp [Roles.written]

theorem mem_written_shiftCount (m : Machine) : m.roles.shiftCount ∈ m.roles.written := by
  simp [Roles.written]

theorem mem_written_returnValue (m : Machine) : m.roles.returnValue ∈ m.roles.written := by
  simp [Roles.written]

theorem mem_written_argument {m : Machine} {t : Temp} (h : t ∈ m.roles.arguments) :
    t ∈ m.roles.written := by
  simp [Roles.written, h]

theorem admits_multiply (hD : Opens low D)
    (ht : ∀ t ∈ [target.machine.roles.mulDiv.1, target.machine.roles.mulDiv.2], D t)
    (hl : Admits target D low left Before) (hr : Admits target D low right Before) :
    Admits target D low (multiply target left right) Before := by
  have hlow := mem_written_low target.machine
  have hhigh := mem_written_high target.machine
  obtain ⟨hpermitted, hpermitted', -⟩ := by simpa only [List.forall_mem_cons] using ht
  refine hl.bind fun a k₁ hk₁ ha => ((admits_intoVirtual hD hr).mono hk₁).bind fun b k₂ hk₂ hb => ?_
  have hk := hk₁.trans hk₂
  have hlow' := hD.lt_of_written hk hlow
  have hhigh' := hD.lt_of_written hk hhigh
  refine .emit_bind (admitted_copy hpermitted hlow' (before_mono ha hk₂)) <|
    .emit_bind ?_ (admits_copyOut hD hk hlow)
  exact admitted_of [target.machine.roles.mulDiv.1, target.machine.roles.mulDiv.2]
    [b, target.machine.roles.mulDiv.1] rfl rfl
    (by simp [hpermitted, hpermitted', hlow', hhigh'])
    (List.forall_mem_cons.2 ⟨hb, by simp [hlow']⟩)

theorem admits_divide (hD : Opens low D)
    (ht : ∀ t ∈ [target.machine.roles.mulDiv.1, target.machine.roles.mulDiv.2], D t)
    (hl : Admits target D low left Before) (hr : Admits target D low right Before) :
    Admits target D low (divide target left right) Before := by
  have hlow := mem_written_low target.machine
  have hhigh := mem_written_high target.machine
  obtain ⟨hpermitted, hpermitted', -⟩ := by simpa only [List.forall_mem_cons] using ht
  refine hl.bind fun a k₁ hk₁ ha => ((admits_intoVirtual hD hr).mono hk₁).bind fun b k₂ hk₂ hb => ?_
  have hk := hk₁.trans hk₂
  have hlow' := hD.lt_of_written hk hlow
  have hhigh' := hD.lt_of_written hk hhigh
  refine .emit_bind (admitted_copy hpermitted hlow' (before_mono ha hk₂)) <|
    .emit_bind ?_ <| .emit_bind ?_ (admits_copyOut hD hk hlow)
  · exact admitted_of [target.machine.roles.mulDiv.2] [target.machine.roles.mulDiv.1] rfl rfl
      (by simp [hpermitted', hhigh']) (by simp [hlow'])
  · exact admitted_of [target.machine.roles.mulDiv.1, target.machine.roles.mulDiv.2]
      [b, target.machine.roles.mulDiv.1, target.machine.roles.mulDiv.2] rfl rfl
      (by simp [hpermitted, hpermitted', hlow', hhigh'])
      (List.forall_mem_cons.2 ⟨hb, by simp [hlow', hhigh']⟩)

theorem admits_shift (hD : Opens low D) (op : ShiftOp)
    (ht : ∀ t ∈ if r.constant?.isSome then [] else [target.machine.roles.shiftCount], D t)
    (hl : Admits target D low left Before) (hr : Admits target D low right Before) :
    Admits target D low (shift target op r left right) Before := by
  have hcount := mem_written_shiftCount target.machine
  refine hl.bind fun a k₁ hk₁ ha => ?_
  split
  · refine admits_fresh.bind fun dst k₂ hk₂ hdst => ?_
    have hpermitted := hD.fresh dst (hk₁.trans hdst.1)
    refine .emit_bind (admitted_copy hpermitted hdst.2 (before_mono ha hk₂)) <|
      .emit_bind ?_ <| admits_pure fun _ hk₃ => before_mono hdst.2 hk₃
    exact admitted_of [dst] [dst] rfl rfl (by simp [hpermitted, hdst.2]) (by simp [hdst.2])
  · rename_i hc
    have hcopied : D target.machine.roles.shiftCount := by simpa [hc] using ht
    refine ((admits_intoVirtual hD hr).mono hk₁).bind fun b k₂ hk₂ hb =>
      admits_fresh.bind fun dst k₃ hk₃ hdst => ?_
    have hk := hk₁.trans hk₂
    have hpermitted := hD.fresh dst (hk.trans hdst.1)
    have hcount' := hD.lt_of_written (hk.trans hk₃) hcount
    refine .emit_bind (admitted_copy hpermitted hdst.2 (before_mono ha (hk₂.trans hk₃))) <|
      .emit_bind (admitted_copy hcopied hcount' (before_mono hb hk₃)) <|
      .emit_bind ?_ <| admits_pure fun _ hk₄ => before_mono hdst.2 hk₄
    exact admitted_of [dst] [target.machine.roles.shiftCount, dst] rfl rfl
      (by simp [hpermitted, hdst.2]) (by simp [hcount', hdst.2])

theorem admits_sum (hD : Opens low D) (hl : Admits target D low left Before)
    (hr : Admits target D low right Before) :
    Admits target D low (sum target l r left right) Before := by
  unfold sum
  split
  · exact admits_into hD (Nat.le_refl low) _ fun dst k₁ hk₁ hdst hlt =>
      admitted_of [dst] [target.machine.stackPointer] rfl rfl (by simp [hdst, hlt])
        (by simp [hD.sp_lt hk₁])
  · exact admits_arith hD .add hl (admits_operand hr)

theorem admits_binop (hD : Opens low D) (op : BinOp) (ht : ∀ t ∈ op.tied target.machine r, D t)
    (hl : Admits target D low left Before) (hr : Admits target D low right Before) :
    Admits target D low (binop target op l r left right) Before := by
  cases op with
  | plus => exact admits_sum hD hl hr
  | minus | and | or | xor => exact admits_arith hD _ hl (admits_operand hr)
  | mul => exact admits_multiply hD ht hl hr
  | div => exact admits_divide hD ht hl hr
  | lshift | rshift | arshift => exact admits_shift hD _ ht hl hr

/-! ### Calls -/

theorem admits_callee (hD : Opens low D) (hx : Admits target D low x Before) :
    Admits target D low (callee target e x) Callee.Before := by
  unfold callee
  split
  · exact admits_pure fun _ _ t ht => by cases ht
  · rw [map_eq_pure_bind]
    exact (admits_intoVirtual hD hx).bind fun t _ _ ht => admits_pure fun _ hk₂ u hu => by
      cases hu
      exact before_mono ht hk₂

theorem admits_storeArguments (hD : Opens low D) (hk : low ≤ k) (slot : Nat)
    {ts : List Temp} (hts : BeforeAll ts k) :
    AdmitsUnit target D k (storeArguments target slot ts) := by
  induction ts generalizing slot with
  | nil => exact admits_pure fun _ _ => trivial
  | cons v rest ih =>
      rcases List.forall_mem_cons.1 hts with ⟨hv, hrest⟩
      refine .emit_bind ?_ (ih (slot + 1) hrest)
      exact admitted_of [] [v, target.machine.stackPointer] rfl rfl (by simp)
        (List.forall_mem_cons.2 ⟨hv, by simp [hD.sp_lt hk]⟩)

theorem admits_moveArguments (hD : Opens low D) (hk : low ≤ k)
    {passed : List (Temp × Temp)} (hvalues : ∀ e ∈ passed, e.1.id < k)
    (hregisters : ∀ e ∈ passed, D e.2 ∧ e.2 ∈ target.machine.roles.arguments) :
    AdmitsUnit target D k (moveArguments passed) := by
  induction passed with
  | nil => exact admits_pure fun _ _ => trivial
  | cons e rest ih =>
      rcases List.forall_mem_cons.1 hvalues with ⟨hv, hvalues⟩
      rcases List.forall_mem_cons.1 hregisters with ⟨hr, hregisters⟩
      exact .emit_bind
        (admitted_copy hr.1 (hD.lt_of_written hk (mem_written_argument hr.2)) hv)
        (ih hvalues hregisters)

theorem admits_call (hD : Opens low D) {function : SelectM Callee}
    {arguments : SelectM (List Temp)} (ht : ∀ t ∈ target.machine.callTied, D t)
    (hf : Admits target D low function Callee.Before)
    (hargs : Admits target D low arguments BeforeAll) :
    AdmitsUnit target D low (call target function arguments) := by
  refine hf.bind fun f k₁ hk₁ hf₁ => (hargs.mono hk₁).bind fun values k₂ hk₂ hvalues => ?_
  have hk := hk₁.trans hk₂
  have hvalue : ∀ e ∈ values.zip target.machine.roles.arguments, e.1.id < k₂ := fun e he =>
    hvalues e.1 (List.of_mem_zip he).1
  obtain ⟨hcall, harguments⟩ := List.forall_mem_append.1 ht
  have hregister : ∀ e ∈ values.zip target.machine.roles.arguments,
      D e.2 ∧ e.2 ∈ target.machine.roles.arguments := fun e he =>
    ⟨harguments e.2 (List.of_mem_zip he).2, (List.of_mem_zip he).2⟩
  have hstored : BeforeAll (values.drop target.machine.roles.arguments.length) k₂ := fun t ht =>
    hvalues t (List.mem_of_mem_drop ht)
  have hpassed : BeforeAll ((values.zip target.machine.roles.arguments).map (·.2)) k₂ := by
    intro t ht
    rcases List.mem_map.1 ht with ⟨e, he, rfl⟩
    exact hD.lt_of_written hk (mem_written_argument (hregister e he).2)
  refine (admits_storeArguments hD hk 0 hstored).bind fun _ k₃ hk₃ _ =>
    (admits_reserveOutgoing _).bind fun _ k₄ hk₄ _ => ?_
  have hk₅ := hk₃.trans hk₄
  refine (admits_moveArguments hD (hk.trans hk₅) (fun e he => before_mono (hvalue e he) hk₅)
    hregister).bind fun _ k₆ hk₆ _ => admits_emit ?_
  have hk₇ := hk₅.trans hk₆
  exact admitted_call hD (hk.trans hk₇) hcall (hf₁.mono (hk₂.trans hk₇)) fun t ht =>
    before_mono (hpassed t ht) hk₇

theorem admits_callValue (hD : Opens low D) {call : SelectM Unit}
    (h : AdmitsUnit target D low call) : Admits target D low (callValue target call) Before :=
  h.bind fun _ _ hk₁ _ => admits_copyOut hD hk₁ (mem_written_returnValue target.machine)

/-! ### Statements -/

theorem admits_discard {α : Type} {x : SelectM α} {Q : α → Nat → Prop}
    (hx : Admits target D low x Q) :
    AdmitsUnit target D low (discard x) := by
  have hmap : (discard x : SelectM Unit) = x >>= fun _ => pure () := map_eq_pure_bind _ x
  rw [hmap]
  exact hx.bind fun _ _ _ _ => admits_pure fun _ _ => trivial

theorem admits_jump (labels : List Label) (hx : Admits target D low value Before) :
    AdmitsUnit target D low (jump e labels value) := by
  unfold jump
  split
  · exact admits_emit (admitted_of [] [] rfl rfl (by simp) (by simp))
  · exact hx.bind fun t _ _ ht => admits_emit (admitted_of [] [t] rfl rfl (by simp)
      (List.forall_mem_singleton.2 ht))

theorem admits_cjump (op : RelOp) (ifTrue ifFalse : Label) (hl : Admits target D low left Before)
    (hr : Admits target D low right Before) :
    AdmitsUnit target D low (cjump op l r left right ifTrue ifFalse) := by
  have hbranch : ∀ (op : RelOp) k, AdmitsUnit target D k (emit (.branch op ifTrue ifFalse)) :=
    fun op k => admits_emit (admitted_of [] [] rfl rfl (by simp) (by simp))
  unfold cjump
  split
  · exact hr.bind fun a _ hk₁ ha => ((admits_operand hl).mono hk₁).bind fun b _ hk₂ hb =>
      .emit_bind (admitted_compare (before_mono ha hk₂) hb) (hbranch _ _)
  · exact hl.bind fun a _ hk₁ ha => ((admits_operand hr).mono hk₁).bind fun b _ hk₂ hb =>
      .emit_bind (admitted_compare (before_mono ha hk₂) hb) (hbranch _ _)

theorem admits_moveToMemory (hD : Opens low D)
    (ha : Admits target D low address Address.Before) (hv : Admits target D low value Before) :
    AdmitsUnit target D low (moveToMemory e address value) := by
  refine ha.bind fun a k₁ hk₁ ha₁ => ?_
  split
  · exact admits_emit (admitted_of [] [a.register target] rfl rfl (by simp)
      (by simp [register_lt hD hk₁ ha₁]))
  · refine (hv.mono hk₁).bind fun v k₂ hk₂ hv₂ => admits_emit ?_
    exact admitted_of [] [v, a.register target] rfl rfl (by simp)
      (List.forall_mem_cons.2 ⟨hv₂, by simp [register_lt hD (hk₁.trans hk₂) (ha₁.mono hk₂)]⟩)

theorem admits_moveToTemp (hD : Opens low D) {t : Temp} (ht : D t) (hlt : t.id < low)
    {load? : Option (SelectM Address)}
    (hload : ∀ address ∈ load?, Admits target D low address Address.Before)
    (hv : Admits target D low value Before) :
    AdmitsUnit target D low (moveToTemp t e load? value) := by
  unfold moveToTemp
  split
  · exact admits_emit (admitted_of [t] [] rfl rfl (by simp [ht, hlt]) (by simp))
  · exact admits_loadInto hD (Nat.le_refl low) ht hlt (hload _ rfl)
  · exact hv.bind fun v _ hk₁ hv₁ => admits_emit (admitted_copy ht (before_mono hlt hk₁) hv₁)

end Tiles

/-! ## Trees -/

section Trees

variable {target : Target} {D : Temp → Prop} {low : Nat}

theorem admits_address {e : Exp} {x : SelectM Temp} (hx : Admits target D low x Before)
    (hoperands : ∀ op l r, e = .binop op l r → Admits target D low (l.select target) Before ∧
      Admits target D low (r.select target) Before) :
    Admits target D low (e.selectAddress target x) Address.Before := by
  unfold Exp.selectAddress
  split
  · exact admits_sumAddress (hoperands _ _ _ rfl).1 (hoperands _ _ _ rfl).2 hx
  · exact admits_differenceAddress (hoperands _ _ _ rfl).1 hx
  · exact admits_baseAddress hx 0

/-- A tree on temps before a number that moves only to temps that may be defined. -/
structure Allowed (D : Temp → Prop) (low : Nat) (assigned temps : List Temp) : Prop where
  assigned : ∀ t ∈ assigned, D t
  temps : ∀ t ∈ temps, t.id < low

theorem Allowed.left {a₁ a₂ t₁ t₂ : List Temp} (h : Allowed D low (a₁ ++ a₂) (t₁ ++ t₂)) :
    Allowed D low a₁ t₁ :=
  ⟨(List.forall_mem_append.1 h.assigned).1, (List.forall_mem_append.1 h.temps).1⟩

theorem Allowed.right {a₁ a₂ t₁ t₂ : List Temp} (h : Allowed D low (a₁ ++ a₂) (t₁ ++ t₂)) :
    Allowed D low a₂ t₂ :=
  ⟨(List.forall_mem_append.1 h.assigned).2, (List.forall_mem_append.1 h.temps).2⟩

/-- The registers of tiles may be defined. -/
abbrev Permits (D : Temp → Prop) (tied : List Temp) : Prop := ∀ t ∈ tied, D t

theorem Permits.left {ts us : List Temp} (h : Permits D (ts ++ us)) : Permits D ts :=
  (List.forall_mem_append.1 h).1

theorem Permits.right {ts us : List Temp} (h : Permits D (ts ++ us)) : Permits D us :=
  (List.forall_mem_append.1 h).2

mutual

theorem admits_value (hD : Opens low D) : (e : Exp) → Permits D (e.tied target.machine) →
    Allowed D low e.assigned e.temps → Admits target D low (e.select target) Before
  | .binop op l r, ht, h => by
      rw [Exp.select]
      exact admits_binop hD op ht.left (admits_value hD l ht.right.left h.left)
        (admits_value hD r ht.right.right h.right)
  | .mem e, ht, h => by
      rw [Exp.select]
      exact admits_loadValue hD
        (admits_address (admits_value hD e ht h) (admits_operands hD e ht h))
  | .temp t, _, h => by
      rw [Exp.select]
      exact admits_tempValue hD (h.temps t (List.mem_singleton_self t))
  | .eseq s e, ht, h => by
      rw [Exp.select]
      exact (admits_statement hD s ht.left h.left).bind fun _ _ hk _ =>
        (admits_value hD e ht.right h.right).mono hk
  | .name l, _, _ => by
      rw [Exp.select]
      exact admits_labelValue hD l
  | .const c, _, _ => by
      rw [Exp.select]
      exact admits_constantValue hD c
  | .call f args, ht, h => by
      rw [Exp.select]
      exact admits_callValue hD (admits_call hD ht.left
        (admits_callee hD (admits_value hD f ht.right.left h.left))
        (admits_values hD args ht.right.right h.right))

theorem admits_values (hD : Opens low D) : (es : List Exp) →
    Permits D (Exp.tiedAll target.machine es) →
    Allowed D low (Exp.assignedAll es) (Exp.tempsAll es) →
    Admits target D low (Exp.selectAll target es) BeforeAll
  | [], _, _ => admits_pure fun _ _ t ht => absurd ht List.not_mem_nil
  | e :: es, ht, h => by
      rw [Exp.selectAll]
      exact (admits_intoVirtual hD (admits_value hD e ht.left h.left)).bind fun t _ hk₁ ht₁ =>
        ((admits_values hD es ht.right h.right).mono hk₁).bind fun ts _ hk₂ hts =>
          admits_pure fun _ hk₃ => List.forall_mem_cons.2
            ⟨before_mono ht₁ (hk₂.trans hk₃), fun u hu => before_mono (hts u hu) hk₃⟩

theorem admits_operands (hD : Opens low D) : (e : Exp) → Permits D (e.tied target.machine) →
    Allowed D low e.assigned e.temps → ∀ op l r, e = .binop op l r →
    Admits target D low (l.select target) Before ∧ Admits target D low (r.select target) Before
  | .binop _ l r, ht, h, _, _, _, rfl =>
      ⟨admits_value hD l ht.right.left h.left, admits_value hD r ht.right.right h.right⟩

theorem admits_source (hD : Opens low D) : (e : Exp) → Permits D (e.tied target.machine) →
    Allowed D low e.assigned e.temps → ∀ address ∈ e.selectSource? target,
    Admits target D low address Address.Before
  | .mem e, ht, h, _, rfl => admits_address (admits_value hD e ht h) (admits_operands hD e ht h)

theorem admits_destination (hD : Opens low D) {source : Exp} {load? : Option (SelectM Address)}
    {value : SelectM Temp} (hload : ∀ address ∈ load?, Admits target D low address Address.Before)
    (hv : Admits target D low value Before) : (d : Exp) → Permits D (d.tied target.machine) →
    (∀ t ∈ d.destination?, D t) → Allowed D low d.assigned d.temps →
    AdmitsUnit target D low (d.selectDestination target source load? value)
  | .mem e, ht, _, h => by
      rw [Exp.selectDestination]
      exact admits_moveToMemory hD
        (admits_address (admits_value hD e ht h) (admits_operands hD e ht h)) hv
  | .temp t, _, hd, h => by
      rw [Exp.selectDestination]
      exact admits_moveToTemp hD (hd t rfl) (h.temps t (List.mem_singleton_self t)) hload hv
  | .eseq s d, ht, hd, h => by
      rw [Exp.selectDestination]
      exact (admits_statement hD s ht.left h.left).bind fun _ _ hk _ =>
        (admits_destination hD hload hv d ht.right hd h.right).mono hk
  | .binop .., _, _, _ => admits_throw _
  | .name _, _, _, _ => admits_throw _
  | .const _, _, _, _ => admits_throw _
  | .call .., _, _, _ => admits_throw _

theorem admits_statement (hD : Opens low D) : (s : Stm) → Permits D (s.tied target.machine) →
    Allowed D low s.assigned s.temps → AdmitsUnit target D low (s.select target)
  | .seq a b, ht, h => by
      rw [Stm.select]
      exact (admits_statement hD a ht.left h.left).bind fun _ _ hk _ =>
        (admits_statement hD b ht.right h.right).mono hk
  | .label l, _, _ => by
      rw [Stm.select]
      exact admits_emit (admitted_of [] [] rfl rfl (by simp) (by simp))
  | .jump e labels, ht, h => by
      rw [Stm.select]
      exact admits_jump labels (admits_value hD e ht h)
  | .cjump op l r t f, ht, h => by
      rw [Stm.select]
      exact admits_cjump op t f (admits_value hD l ht.left h.left)
        (admits_value hD r ht.right h.right)
  | .move d s, ht, h => by
      rw [Stm.select]
      have hboth : Allowed D low (d.assigned ++ s.assigned) (d.temps ++ s.temps) :=
        ⟨(List.forall_mem_append.1 h.assigned).2, h.temps⟩
      have hd : ∀ t ∈ d.destination?, D t := fun t ht =>
        h.assigned t (List.mem_append_left _ (Option.mem_toList.2 ht))
      exact admits_destination hD (admits_source hD s ht.right hboth.right)
        (admits_value hD s ht.right hboth.right) d ht.left hd hboth.left
  | .exp (.call f args), ht, h => by
      rw [Stm.select]
      exact admits_call hD (Permits.left ht)
        (admits_callee hD (admits_value hD f (Permits.right ht).left (Allowed.left h)))
        (admits_values hD args (Permits.right ht).right (Allowed.right h))
  | .exp (.binop op l r), ht, h => admits_discard (admits_value hD (.binop op l r) ht h)
  | .exp (.mem e), ht, h => admits_discard (admits_value hD (.mem e) ht h)
  | .exp (.temp t), ht, h => admits_discard (admits_value hD (.temp t) ht h)
  | .exp (.eseq s e), ht, h => admits_discard (admits_value hD (.eseq s e) ht h)
  | .exp (.name l), ht, h => admits_discard (admits_value hD (.name l) ht h)
  | .exp (.const c), ht, h => admits_discard (admits_value hD (.const c) ht h)

end

/-- A body is selected in operations that define only what it moves to, the registers that tiles are
tied to, and fresh temps. -/
theorem admits_statements (hD : Defines target.machine low D) (body : List Stm)
    (h : Allowed D low (body.flatMap Stm.assigned) (body.flatMap Stm.temps)) :
    AdmitsUnit target D low (Stm.selectAll target body) := by
  induction body with
  | nil => exact admits_pure fun _ _ => trivial
  | cons s rest ih =>
      rw [List.flatMap_cons, List.flatMap_cons] at h
      rw [Stm.selectAll]
      have ht : Permits D (s.tied target.machine) := fun t ht => hD.written t (s.tied_subset ht)
      exact (admits_statement hD.opens s ht h.left).bind fun _ _ hk _ => (ih h.right).mono hk

end Trees

end Selection

end TreeCompiler
