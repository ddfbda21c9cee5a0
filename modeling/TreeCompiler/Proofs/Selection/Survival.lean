import TreeCompiler.Proofs.Selection.Control
import TreeCompiler.Proofs.Selection.Waiting

/-!
# Survival — operands that wait for their siblings

A tile with more than one operand evaluates one of them first, and its temp has to keep the value
until the others are evaluated.  Code for siblings defines only temps that they move to, registers
that their tiles are tied to, and fresh temps, so that it leaves the waiting temp alone unless that
is one of the former (`Tile.operand_survives`).  Moves and registers do get in the way otherwise:
the temp that waits is that of the tree and no copy (`Tile.operand_overwritten`).
-/

namespace TreeCompiler

open X86

/-! ## What an operation leaves alone -/

namespace Operation

variable {symbols : String → Word} {symbol : String} {code : List Operation} {op : Operation}
  {p q : Processor} {t : Temp}

/-- An operation changes only what its instruction defines. -/
theorem file_of_exec (h : op.exec symbols symbol p = some q)
    (ht : t ∉ (op.instr (.x86_64 symbol)).defs) : q.file t = p.file t := by
  cases op with
  | label | exit =>
      cases h
      rfl
  | copy | constant | labelAddress | frameAddress | signExtend =>
      cases h
      exact Processor.file_set_of_ne _ _ (List.ne_of_not_mem_cons ht)
  | load dst a =>
      rw [exec_load] at h
      cases h
      exact Processor.file_set_of_ne _ _ (List.ne_of_not_mem_cons ht)
  | store src a =>
      rw [exec_store] at h
      cases h
      rfl
  | storeConstant c a => cases a <;> cases h <;> rfl
  | arith op dst right =>
      rw [exec_arith] at h
      cases h
      have hdefs : ((Operation.arith op dst right).instr (.x86_64 symbol)).defs = [dst] := by
        cases right <;> rfl
      exact Processor.file_compute_of_ne _ _ (List.ne_of_not_mem_cons (hdefs ▸ ht))
  | multiply right =>
      cases h
      obtain ⟨hlow, hhigh⟩ := List.ne_and_not_mem_of_not_mem_cons ht
      exact (Processor.file_set_of_ne _ _ (List.ne_of_not_mem_cons hhigh)).trans
        (Processor.file_compute_of_ne _ _ hlow)
  | divide right =>
      rw [exec_divide] at h
      obtain ⟨e, -, rfl⟩ := Option.map_eq_some_iff.1 h
      obtain ⟨hlow, hhigh⟩ := List.ne_and_not_mem_of_not_mem_cons ht
      exact (Processor.file_set_of_ne _ _ (List.ne_of_not_mem_cons hhigh)).trans
        (Processor.file_compute_of_ne _ _ hlow)
  | shiftConstant | shift =>
      cases h
      exact Processor.file_compute_of_ne _ _ (List.ne_of_not_mem_cons ht)
  | compare left right =>
      rw [exec_compare] at h
      cases h
      rfl
  | branch | jump | jumpTo => cases h
  | call f registers =>
      -- a call clobbers what its instruction says that it defines
      have hscratch : ∀ u ∈ scratchRegisters, u ∈ Machine.x86_64.callDefs := by decide
      cases f <;> cases h <;>
        exact Processor.file_call_of_not_mem _ _ fun hmem => ht (hscratch t hmem)

/-- So does a step, wherever it goes. -/
theorem file_of_step {rest dest : List Operation}
    (h : step symbols symbol code (op :: rest, p) = some (dest, q))
    (ht : t ∉ (op.instr (.x86_64 symbol)).defs) : q.file t = p.file t := by
  have hgo : ∀ l, goTo? code p l = some (dest, q) → q = p := by
    intro l hl
    obtain ⟨_, -, heq⟩ := Option.map_eq_some_iff.1 hl
    exact (Prod.mk.inj heq).2.symm
  have hstay : q = p → q.file t = p.file t := fun heq => heq ▸ rfl
  -- a jump, to one label or to one of several, leaves the processor as it is
  unfold step at h
  dsimp only at h
  split at h
  · obtain ⟨f, -, h⟩ := Option.bind_eq_some_iff.1 h
    split at h
    · obtain ⟨l, -, h⟩ := Option.bind_eq_some_iff.1 h
      exact hstay (hgo l h)
    · exact hstay (Prod.mk.inj (Option.some.inj h)).2.symm
  · obtain ⟨l, -, h⟩ := Option.bind_eq_some_iff.1 h
    exact hstay (hgo l h)
  · obtain ⟨v, -, h⟩ := Option.bind_eq_some_iff.1 h
    obtain ⟨l, -, h⟩ := Option.bind_eq_some_iff.1 h
    exact hstay (hgo l h)
  · obtain ⟨q', hexec, heq⟩ := Option.map_eq_some_iff.1 h
    obtain ⟨-, rfl⟩ := Prod.mk.inj heq
    exact file_of_exec hexec ht

/-- A run in which each step carries out one of some operations. -/
abbrev RunsOn (symbols : String → Word) (symbol : String) (code ops : List Operation) :
    Point → Point → Prop :=
  Relation.ReflTransGen fun x y =>
    step symbols symbol code x = some y ∧ ∃ op ∈ ops, x.1.head? = some op

/-- A run on operations that do not define a temp leaves it alone. -/
theorem file_of_runsOn {ops : List Operation} {x y : Point}
    (h : RunsOn symbols symbol code ops x y)
    (hdefs : ∀ op ∈ ops, t ∉ (op.instr (.x86_64 symbol)).defs) : y.2.file t = x.2.file t := by
  induction h with
  | refl => rfl
  | @tail y z _ hstep ih =>
      obtain ⟨hstep, op, hop, hhead⟩ := hstep
      obtain ⟨rest, hrest⟩ := List.head?_eq_some_iff.1 hhead
      obtain ⟨code', p⟩ := y
      obtain ⟨dest, q⟩ := z
      subst hrest
      calc q.file t = p.file t := file_of_step hstep (hdefs op hop)
        _ = _ := ih

end Operation

namespace Selection

/-! ## Tiles -/

/-- A tile with several operands, one of which waits for some of the others. -/
inductive Tile
  /-- The left operand of an operator waits for the right one. -/
  | binop (op : BinOp) (l r : Exp)
  | cjump (op : RelOp) (l r : Exp) (ifTrue ifFalse : Label)
  /-- The address of a store waits for the source. -/
  | store (a source : Exp)
  /-- The callee waits for the arguments. -/
  | callee (f : Exp) (args : List Exp)
  /-- An argument waits for those behind it. -/
  | argument (f : Exp) (before : List Exp) (e : Exp) (behind : List Exp)

namespace Tile

/-- A statement with this tile; wherever its trees occur, the same actions select them. -/
def stm : Tile → Stm
  | .binop op l r => .exp (.binop op l r)
  | .cjump op l r ifTrue ifFalse => .cjump op l r ifTrue ifFalse
  | .store a source => .move (.mem a) source
  | .callee f args => .exp (.call f args)
  | .argument f before e behind => .exp (.call f (before ++ e :: behind))

/-- The operands that are waited for. -/
def siblings : Tile → List Exp
  | .binop _ _ r => [r]
  | .cjump _ l r _ _ => [lastCompared l r]
  | .store _ source => [source]
  | .callee _ args => args
  | .argument _ _ _ behind => behind

/-- Evaluate the operand that waits, as a value, an address, a callee or an argument; the temp that
has to keep the value, unless it is an address in the frame or a label. -/
def evaluate (target : Target) : Tile → SelectM (Option Temp)
  | .binop _ l _ => do return some (← l.select target)
  | .cjump _ l r _ _ => do return some (← (firstCompared l r).select target)
  | .store a _ => do return (← a.selectAddress target (a.select target)).temp?
  | .callee f _ => do return (← Selection.callee target f (f.select target)).temp?
  | .argument _ _ e _ => do return some (← intoVirtual target (e.select target))

/-- Evaluate the operands that are waited for. -/
def evaluateSiblings (target : Target) : Tile → SelectM Unit
  | .binop op _ r => evaluateRight target r op
  | .cjump _ l r _ _ => discard (operand (lastCompared l r) ((lastCompared l r).select target))
  | .store _ source => discard (operand source (source.select target))
  | .callee _ args => discard (Exp.selectAll target args)
  | .argument _ _ _ behind => discard (Exp.selectAll target behind)

/-- Callees and arguments do not wait in registers. -/
def Keeps (m : Machine) (t : Temp) : Tile → Prop
  | .callee .. => m.isRegister t = false
  | .argument .. => m.isRegister t = false
  | _ => True

/-- An expression of the frame pointer and an immediate evaluates no operands. -/
def folds (target : Target) : Tile → Bool
  | .binop op l r => Selection.folds target op l r
  | _ => false

end Tile

section Tiles

variable {target : Target} {S S' : State} {α β γ : Type}

/-- A value that is evaluated is in a temp that was handed out. -/
theorem lt_of_admits {low : Nat} {y : SelectM β} {Q : β → Nat → Prop} {b : β}
    (h : Admits target (fun _ => True) low y Q) (hle : low ≤ S.namer.nextTemp)
    (hrun : y.run.run S = (.ok b, S')) : Q b S'.namer.nextTemp := by
  obtain ⟨-, -, -, hQ⟩ := h S _ S' hle hrun
  exact hQ b rfl

/-- Selection for a tile, by the states it goes through: an operand is evaluated from `start` on and
waits from `held` on for its siblings, which are evaluated when `ready` is reached. -/
structure Stages (target : Target) (operand : SelectM (Option Temp)) (siblings : SelectM Unit)
    (S S' : State) where
  start : State
  held : State
  ready : State
  /-- Where the value of the operand waits. -/
  temp? : Option Temp
  before : List Operation
  evaluation : List Operation
  /-- What is appended for the siblings. -/
  waited : List Operation
  rest : List Operation
  operand_run : operand.run.run start = (.ok temp?, held)
  siblings_run : siblings.run.run held = (.ok (), ready)
  extends_before : Extends S start before
  extends_evaluation : Extends start held evaluation
  extends_waited : Extends held ready waited
  extends_rest : Extends ready S' rest

/-- An operation behind the siblings reads a temp, and none defines it from where it waits up to
that one if it is spared in them. -/
def Stages.Survives {operand : SelectM (Option Temp)} {siblings : SelectM Unit}
    (s : Stages target operand siblings S S') (es : List Exp) (t : Temp) : Prop :=
  ∃ between reader after, s.rest = between ++ reader :: after ∧ t ∈ (reader.instr target).uses ∧
    (Spared target.machine es t → ∀ op ∈ s.waited ++ between, t ∉ (op.instr target).defs)

/-- An operand whose temp was handed out survives in an action that waits. -/
theorem exists_stages_of_run {x : SelectM γ} {y : SelectM β} (temp? : β → Option Temp)
    {rest : γ → β → SelectM α} {siblings : SelectM Unit} {es : List Exp} {a : α} (P : Temp → Prop)
    (hfirst : Temp.firstVirtual ≤ S.namer.nextTemp)
    (htemps : ∀ u ∈ Exp.tempsAll es, u.id < S.namer.nextTemp)
    (hx : ∃ Bs, Covers target Bs x) (hy : ∃ Bs, Covers target Bs y)
    (hresult : ∀ S₁ b S₂, S.namer.nextTemp ≤ S₁.namer.nextTemp → y.run.run S₁ = (.ok b, S₂) →
      ∀ t, temp? b = some t → t.id < S₂.namer.nextTemp ∧ P t)
    (hrest : ∀ c b, (∀ t, temp? b = some t → P t) →
      Waits target es siblings (temp? b) (rest c b))
    (hrun : (x >>= fun c => y >>= rest c).run.run S = (.ok a, S')) :
    ∃ s : Stages target (do return temp? (← y)) siblings S S',
      ∀ t, s.temp? = some t → P t ∧ s.Survives es t := by
  -- what stands before the operand, then the operand, then what is left to do
  obtain ⟨c, S₁, hc, hrun⟩ := exists_of_run_bind hrun
  obtain ⟨b, S₂, hb, hrun⟩ := exists_of_run_bind hrun
  obtain ⟨_, hx⟩ := hx
  obtain ⟨_, hy⟩ := hy
  obtain ⟨before, hbefore⟩ := hx.follows hc
  obtain ⟨evaluation, hevaluation⟩ := hy.follows hb
  have hle := hbefore.nextTemp_le.trans hevaluation.nextTemp_le
  have hresult := hresult S₁ b S₂ hbefore.nextTemp_le hb
  obtain ⟨S₃, waited, rest, hsiblings, hwaited, hrest, hreads⟩ :=
    hrest c b (fun t ht => (hresult t ht).2) S₂ a S' (hfirst.trans hle)
      (fun u hu => (htemps u hu).trans_le hle) hrun
  exact ⟨⟨S₁, S₂, S₃, temp? b, before, evaluation, waited, rest, run_bind_ok hb, hsiblings, hbefore,
    hevaluation, hwaited, hrest⟩, fun t ht => ⟨(hresult t ht).2, hreads t ht (hresult t ht).1⟩⟩

/-- Nothing stands before the first operand. -/
theorem exists_stages_of_bind {y : SelectM β} (temp? : β → Option Temp) {rest : β → SelectM α}
    {siblings : SelectM Unit} {es : List Exp} {a : α} (P : Temp → Prop)
    (hfirst : Temp.firstVirtual ≤ S.namer.nextTemp)
    (htemps : ∀ u ∈ Exp.tempsAll es, u.id < S.namer.nextTemp) (hy : ∃ Bs, Covers target Bs y)
    (hresult : ∀ S₁ b S₂, S.namer.nextTemp ≤ S₁.namer.nextTemp → y.run.run S₁ = (.ok b, S₂) →
      ∀ t, temp? b = some t → t.id < S₂.namer.nextTemp ∧ P t)
    (hrest : ∀ b, (∀ t, temp? b = some t → P t) → Waits target es siblings (temp? b) (rest b))
    (hrun : (y >>= rest).run.run S = (.ok a, S')) :
    ∃ s : Stages target (do return temp? (← y)) siblings S S',
      ∀ t, s.temp? = some t → P t ∧ s.Survives es t :=
  exists_stages_of_run (x := pure ()) temp? P hfirst htemps ⟨_, covers_pure ()⟩ hy hresult
    (fun _ => hrest) hrun

section Operands

variable {low : Nat} {e : Exp}

/-- Where anything may be defined, every tree is allowed. -/
theorem allowed_trivial (assigned : List Temp) {temps : List Temp}
    (h : ∀ u ∈ temps, u.id < low) :
    Allowed (fun _ => True) low assigned temps := ⟨fun _ _ => trivial, h⟩

theorem opens_trivial (h : Temp.firstVirtual ≤ low) : Opens low fun _ => True :=
  ⟨h, fun _ _ => trivial⟩

theorem lt_of_value (hfirst : Temp.firstVirtual ≤ low) (htemps : ∀ u ∈ e.temps, u.id < low)
    (hle : low ≤ S.namer.nextTemp) {t : Temp}
    (hrun : (e.select target).run.run S = (.ok t, S')) : t.id < S'.namer.nextTemp :=
  lt_of_admits (Q := Before) (admits_value (opens_trivial hfirst) e (fun _ _ => trivial)
    (allowed_trivial _ htemps)) hle hrun

theorem lt_of_address (hfirst : Temp.firstVirtual ≤ low) (htemps : ∀ u ∈ e.temps, u.id < low)
    (hle : low ≤ S.namer.nextTemp) {a : Address} {t : Temp}
    (hrun : (e.selectAddress target (e.select target)).run.run S = (.ok a, S'))
    (ht : a.temp? = some t) : t.id < S'.namer.nextTemp := by
  have hD := opens_trivial hfirst
  have hallowed := allowed_trivial e.assigned htemps
  have hbefore : Address.Before a S'.namer.nextTemp := lt_of_admits
    (admits_address (admits_value hD e (fun _ _ => trivial) hallowed)
      (admits_operands hD e (fun _ _ => trivial) hallowed)) hle hrun
  cases a with
  | frame => cases ht
  | base u offset =>
      cases ht
      exact hbefore _ _ rfl

/-- An argument waits in a temp that was handed out, and in no register. -/
theorem virtual_of_argument (hfirst : Temp.firstVirtual ≤ low) (htemps : ∀ u ∈ e.temps, u.id < low)
    (hle : low ≤ S.namer.nextTemp) {t : Temp}
    (hrun : (intoVirtual target (e.select target)).run.run S = (.ok t, S')) :
    t.id < S'.namer.nextTemp ∧ target.machine.isRegister t = false := by
  have hD := opens_trivial hfirst
  refine ⟨lt_of_admits (Q := Before) (admits_intoVirtual hD
    (admits_value hD e (fun _ _ => trivial) (allowed_trivial _ htemps))) hle hrun, ?_⟩
  exact isRegister_of_intoVirtual (hfirst.trans hle) (covers_value e).appends hrun

/-- So does a callee that is no label. -/
theorem virtual_of_callee (hfirst : Temp.firstVirtual ≤ low) (htemps : ∀ u ∈ e.temps, u.id < low)
    (hle : low ≤ S.namer.nextTemp) {f : Callee} {t : Temp}
    (hrun : (callee target e (e.select target)).run.run S = (.ok f, S')) (ht : f.temp? = some t) :
    t.id < S'.namer.nextTemp ∧ target.machine.isRegister t = false := by
  unfold callee at hrun
  split at hrun
  · cases hrun
    cases ht
  · rw [map_eq_pure_bind] at hrun
    obtain ⟨u, S₁, hu, hf⟩ := exists_of_run_bind hrun
    cases hf
    cases ht
    exact virtual_of_argument hfirst htemps hle hu

end Operands

/-- Arguments up to one, that one, and those behind it. -/
theorem selectAll_append_cons (before behind : List Exp) (e : Exp) :
    Exp.selectAll target (before ++ e :: behind) = (do
      let ts ← Exp.selectAll target before
      let t ← intoVirtual target (e.select target)
      let us ← Exp.selectAll target behind
      return ts ++ t :: us) := by
  induction before with
  | nil =>
      rw [List.nil_append, Exp.selectAll, Exp.selectAll, pure_bind]
      rfl
  | cons e' rest ih =>
      rw [List.cons_append, Exp.selectAll, Exp.selectAll, ih]
      simp only [bind_assoc, pure_bind, List.cons_append]

theorem tempsAll_append (es es' : List Exp) :
    Exp.tempsAll (es ++ es') = Exp.tempsAll es ++ Exp.tempsAll es' := by
  induction es with
  | nil => rfl
  | cons e rest ih => rw [List.cons_append, Exp.tempsAll, Exp.tempsAll, ih, List.append_assoc]

theorem tempsAll_singleton (e : Exp) : Exp.tempsAll [e] = e.temps := List.append_nil _

/-- Where selection for a tile succeeds, the operand that waits is evaluated, then its siblings, and
then an operation reads its temp, which no operation defines until then if it is spared. -/
theorem Tile.exists_stages (target : Target) (tile : Tile)
    (hfirst : Temp.firstVirtual ≤ S.namer.nextTemp)
    (htemps : ∀ u ∈ tile.stm.temps, u.id < S.namer.nextTemp) (hfolds : tile.folds target = false)
    (hrun : (tile.stm.select target).run.run S = (.ok (), S')) :
    ∃ s : Stages target (tile.evaluate target) (tile.evaluateSiblings target) S S',
      ∀ t, s.temp? = some t → tile.Keeps target.machine t ∧ s.Survives tile.siblings t := by
  cases tile with
  | binop op l r =>
      obtain ⟨hl, hr⟩ := List.forall_mem_append.1 htemps
      obtain ⟨rest, hbinop, hwaits⟩ := exists_waits_binop target hfolds
      have hdiscard : Stm.select target (.exp (.binop op l r)) =
          (Exp.binop op l r).select target >>= fun _ => pure () := discard_eq _
      rw [Tile.stm, hdiscard, hbinop] at hrun
      obtain ⟨t, S₁, hrun, hpure⟩ := exists_of_run_bind hrun
      cases hpure
      exact exists_stages_of_bind some (fun _ => True) hfirst
        (tempsAll_singleton r ▸ hr) ⟨_, covers_value l⟩
        (fun S₁ b S₂ hle hb t ht => ⟨Option.some.inj ht ▸ lt_of_value hfirst hl hle hb, trivial⟩)
        (fun b _ => hwaits b) hrun
  | cjump op l r ifTrue ifFalse =>
      obtain ⟨rest, hcjump, hwaits⟩ := exists_waits_cjump target op l r ifTrue ifFalse
      obtain ⟨hl, hr⟩ := List.forall_mem_append.1 htemps
      have hcompared : (∀ u ∈ (firstCompared l r).temps, u.id < S.namer.nextTemp) ∧
          ∀ u ∈ (lastCompared l r).temps, u.id < S.namer.nextTemp := by
        unfold firstCompared lastCompared
        split
        · exact ⟨hr, hl⟩
        · exact ⟨hl, hr⟩
      rw [Tile.stm, hcjump] at hrun
      exact exists_stages_of_bind some (fun _ => True) hfirst
        (tempsAll_singleton (lastCompared l r) ▸ hcompared.2) ⟨_, covers_value _⟩
        (fun S₁ b S₂ hle hb t ht =>
          ⟨Option.some.inj ht ▸ lt_of_value hfirst hcompared.1 hle hb, trivial⟩)
        (fun b _ => hwaits b) hrun
  | store a source =>
      obtain ⟨ha, hsource⟩ := List.forall_mem_append.1 htemps
      obtain ⟨rest, hstore, hwaits⟩ := exists_waits_store target a source
      rw [Tile.stm, hstore] at hrun
      exact exists_stages_of_bind Address.temp? (fun _ => True) hfirst
        (tempsAll_singleton source ▸ hsource)
        ⟨_, covers_address (covers_value a) (covers_operands a)⟩
        (fun S₁ b S₂ hle hb t ht => ⟨lt_of_address (e := a) hfirst ha hle hb ht, trivial⟩)
        (fun b _ => hwaits b) hrun
  | callee f args =>
      obtain ⟨hf, hargs⟩ := List.forall_mem_append.1 htemps
      rw [Tile.stm, Stm.select, call_eq] at hrun
      exact exists_stages_of_bind Callee.temp?
        (fun t => target.machine.isRegister t = false) hfirst hargs
        ⟨_, covers_callee (covers_value f)⟩
        (fun S₁ b S₂ hle hb t ht => virtual_of_callee hfirst hf hle hb ht)
        (fun g hregister => waits_bind (spares_values args) fun values =>
          reads_pass hregister fun t ht => .inl ht) hrun
  | argument f before e behind =>
      obtain ⟨hf, hargs⟩ := List.forall_mem_append.1 htemps
      rw [tempsAll_append] at hargs
      obtain ⟨hbefore, hargs⟩ := List.forall_mem_append.1 hargs
      obtain ⟨he, hbehind⟩ := List.forall_mem_append.1 hargs
      -- the callee and the arguments before this one are evaluated in front
      have hcall : Stm.select target (.exp (.call f (before ++ e :: behind))) = (do
          let c ← (do
            let g ← Selection.callee target f (f.select target)
            let ts ← Exp.selectAll target before
            return (g, ts))
          let t ← intoVirtual target (e.select target)
          let us ← Exp.selectAll target behind
          pass target c.1 (c.2 ++ t :: us)) := by
        rw [Stm.select, call_eq, selectAll_append_cons]
        simp only [bind_assoc, pure_bind]
      rw [Tile.stm, hcall] at hrun
      exact exists_stages_of_run some
        (fun t => target.machine.isRegister t = false) hfirst hbehind
        ⟨_, (covers_callee (covers_value f)).bind fun _ =>
          (covers_values before).bind_nil fun _ => covers_pure _⟩
        ⟨_, covers_intoVirtual (covers_value e)⟩
        (fun S₁ b S₂ hle hb t ht => Option.some.inj ht ▸ virtual_of_argument hfirst he hle hb)
        (fun c b hregister => waits_bind (spares_values behind) fun us =>
          reads_pass hregister fun t ht =>
            .inr (List.mem_append_right _ (Option.some.inj ht ▸ List.mem_cons_self))) hrun

end Tiles

/-- In code for x86-64, the temp of the operand that waits is defined by no operation from there to
the one that reads it, unless a sibling moves to it or has a tile that is tied to it, and it keeps
its value as long as control stays in between.  Callees and arguments do not wait in registers, so
that only moves get in their way. -/
theorem Tile.operand_survives (symbol : String) (tile : Tile) {S S' : State}
    (hfirst : Temp.firstVirtual ≤ S.namer.nextTemp)
    (htemps : ∀ u ∈ tile.stm.temps, u.id < S.namer.nextTemp)
    (hfolds : tile.folds (.x86_64 symbol) = false)
    (hrun : (tile.stm.select (.x86_64 symbol)).run.run S = (.ok (), S')) :
    ∃ s : Stages (.x86_64 symbol) (tile.evaluate (.x86_64 symbol))
        (tile.evaluateSiblings (.x86_64 symbol)) S S',
      ∀ t, s.temp? = some t → tile.Keeps .x86_64 t ∧
        ∃ between reader after, s.rest = between ++ reader :: after ∧
          t ∈ (reader.instr (.x86_64 symbol)).uses ∧
          (Spared .x86_64 tile.siblings t →
            (∀ op ∈ s.waited ++ between, t ∉ (op.instr (.x86_64 symbol)).defs) ∧
            ∀ symbols code x y,
              Operation.RunsOn symbols symbol code (s.waited ++ between) x y →
                y.2.file t = x.2.file t) := by
  obtain ⟨s, hs⟩ := tile.exists_stages (.x86_64 symbol) hfirst htemps hfolds hrun
  refine ⟨s, fun t ht => ?_⟩
  obtain ⟨hkeeps, between, reader, after, hsplit, huses, hspared⟩ := hs t ht
  refine ⟨hkeeps, between, reader, after, hsplit, huses, fun hspares => ?_⟩
  have hdefs := hspared hspares
  exact ⟨hdefs, fun symbols code x y hruns => Operation.file_of_runsOn hruns hdefs⟩

/-- A comparison keeps its left operand in `%rbx`, which a product leaves alone. -/
theorem Tile.operand_survives_multiplication :
    let target : Target := .x86_64 "f_framesize"
    let rbx : Temp := ⟨1⟩
    let product : Exp := .binop .mul (.temp ⟨100⟩)
      (.eseq (.move (.temp ⟨101⟩) (.const 1)) (.temp ⟨101⟩))
    let tile : Tile := .cjump .lt (.temp rbx) product "L1" "L2"
    ∃ S', ∃ s : Stages target (tile.evaluate target) (tile.evaluateSiblings target)
        { namer := { nextTemp := 102 } } S', ∃ between reader after,
      s.temp? = some rbx ∧ s.rest = between ++ reader :: after ∧ rbx ∈ (reader.instr target).uses ∧
      (∀ op ∈ s.waited ++ between, rbx ∉ (op.instr target).defs) ∧
      ∀ symbols code x y,
        Operation.RunsOn symbols "f_framesize" code (s.waited ++ between) x y →
          y.2.file rbx = x.2.file rbx := by
  intro target rbx product tile
  obtain ⟨S', hrun⟩ : ∃ S', (tile.stm.select target).run.run { namer := { nextTemp := 102 } } =
      (.ok (), S') := ⟨_, rfl⟩
  obtain ⟨s, hs⟩ := Tile.operand_survives "f_framesize" tile (by decide) (by decide) rfl hrun
  have htemp : s.temp? = some rbx :=
    (Except.ok.inj (Prod.mk.inj s.operand_run).1).symm
  have hspared : Spared .x86_64 tile.siblings rbx := ⟨by decide, fun _ => by decide⟩
  obtain ⟨-, between, reader, after, hrest, huses, hsurvives⟩ := hs rbx htemp
  obtain ⟨hdefs, hfile⟩ := hsurvives hspared
  exact ⟨S', s, between, reader, after, htemp, hrest, huses, hdefs, hfile⟩

/-- A move to a temp and a product overwrite operands that wait in that temp and in `%rax`; a sum
then adds what was moved. -/
theorem Tile.operand_overwritten :
    let target : Target := .x86_64 "f_framesize"
    let S : State := { namer := { nextTemp := 103 } }
    let moving : Exp := .eseq (.move (.temp ⟨100⟩) (.const 1)) (.temp ⟨102⟩)
    let product : Exp := .binop .mul (.temp ⟨100⟩) (.temp ⟨102⟩)
    ((Exp.temp ⟨100⟩).select target).run.run S = (.ok ⟨100⟩, S) ∧
    (∃ S' op, (moving.select target).run.run S = (.ok ⟨102⟩, S') ∧ Extends S S' [op] ∧
      ⟨100⟩ ∈ (op.instr target).defs) ∧
    ((Exp.temp rax).select target).run.run S = (.ok rax, S) ∧
    (∃ S' op ops, (product.select target).run.run S = (.ok ⟨103⟩, S') ∧ Extends S S' (op :: ops) ∧
      rax ∈ (op.instr target).defs) ∧
    ∃ S' code, ((Exp.binop .plus (.temp ⟨100⟩) moving).select target).run.run S =
      (.ok ⟨103⟩, S') ∧ Extends S S' code ∧
      ∀ symbols p, ∃ q, Operation.execAll symbols "f_framesize" code p = some q ∧
        q.file ⟨103⟩ = 1 + p.file ⟨102⟩ := by
  intro target S moving product
  refine ⟨rfl, ⟨_, .constant ⟨100⟩ 1, rfl, ⟨rfl, by decide, by decide⟩, by decide⟩, rfl,
    ⟨_, .copy rax ⟨100⟩, [.multiply ⟨102⟩, .copy ⟨103⟩ rax], rfl, ⟨rfl, by decide, by decide⟩,
      by decide⟩, ?_⟩
  refine ⟨_, [.constant ⟨100⟩ 1, .copy ⟨103⟩ ⟨100⟩, .arith .add ⟨103⟩ (.temp ⟨102⟩)], rfl,
    ⟨rfl, by decide, by decide⟩, fun symbols p => ⟨_, rfl, rfl⟩⟩

end Selection

end TreeCompiler
