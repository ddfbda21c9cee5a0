import TreeCompiler.Selection.Tile
import TreeCompiler.Proofs.Selection.Evaluation

/-!
# Computation — actions of selection that compute evaluations

Selection is looked at from outside: which operations it appends, and what they do to a processor
that agrees with the world in which the tree is evaluated (`Agrees`).  `Computes` says that an
action succeeds, that its operations leave alone all temps handed out before, and that its result
holds the value of an evaluation.  Actions in sequence compute evaluations in sequence
(`Computes.bind`), so that each tile needs a look at its own operations only.
-/

namespace TreeCompiler

namespace Selection

open X86

/-! ## Running selection -/

section Run

variable {α β : Type} {x : SelectM α} {f : α → SelectM β} {S S' S'' : State} {a : α}

theorem run_bind_ok (h : x.run.run S = (.ok a, S')) :
    (x >>= f).run.run S = (f a).run.run S' := by
  simp only [ExceptT.run_bind, StateT.run_bind, h]
  rfl

/-- Selection went on from one state to another and appended operations. -/
structure Extends (S S' : State) (ops : List Operation) : Prop where
  operations : S'.operations.toList = S.operations.toList ++ ops
  nextTemp_le : S.namer.nextTemp ≤ S'.namer.nextTemp
  memoryArguments_le : S.memoryArguments ≤ S'.memoryArguments

theorem Extends.refl (S : State) : Extends S S [] :=
  ⟨(List.append_nil _).symm, Nat.le_refl _, Nat.le_refl _⟩

theorem Extends.trans {ops ops' : List Operation} (h : Extends S S' ops)
    (h' : Extends S' S'' ops') : Extends S S'' (ops ++ ops') where
  operations := by rw [h'.operations, h.operations, List.append_assoc]
  nextTemp_le := h.nextTemp_le.trans h'.nextTemp_le
  memoryArguments_le := h.memoryArguments_le.trans h'.memoryArguments_le

/-- What was appended is determined. -/
theorem Extends.operations_eq {ops ops' : List Operation} (h : Extends S S' ops)
    (h' : Extends S S' ops') : ops = ops' :=
  List.append_cancel_left (h.operations.symm.trans h'.operations)

end Run

/-! ## What lasts -/

/-- A temp that was handed out before number `n`. -/
def Virtual (n : Nat) (t : Temp) : Prop := Machine.x86_64.isRegister t = false ∧ t.id < n

/-- What is left alone by operations that were selected when `n` was the next temp. -/
def Lasting (n : Nat) (t : Temp) : Prop := t = rsp ∨ Virtual n t

def Keeps (n : Nat) (p q : Processor) : Prop := ∀ t, Lasting n t → q.file t = p.file t

section Lasting

variable {n m : Nat} {t : Temp} {p q r : Processor} {v a : Word}

theorem Virtual.mono (h : Virtual n t) (hle : n ≤ m) : Virtual m t := ⟨h.1, h.2.trans_le hle⟩

theorem Lasting.mono (h : Lasting n t) (hle : n ≤ m) : Lasting m t := h.imp_right (·.mono hle)

theorem virtual_fresh (h : Temp.firstVirtual ≤ n) : Virtual (n + 1) ⟨n⟩ := by
  refine ⟨Machine.isVirtual_of_not_register ?_, Nat.lt_succ_self n⟩
  simpa [Temp.isVirtual] using h

theorem Virtual.ne {u : Temp} (h : Virtual n t) (hu : Machine.x86_64.isRegister u = true) : t ≠ u :=
  fun heq => absurd hu (Bool.eq_false_iff.1 (heq ▸ h.1))

theorem not_lasting_fresh (h : Temp.firstVirtual ≤ n) : ¬ Lasting n ⟨n⟩ := by
  rintro (heq | hv)
  · rw [rsp, Temp.mk.injEq] at heq
    exact absurd (heq ▸ h) (by decide)
  · exact Nat.lt_irrefl _ hv.2

theorem not_lasting_of_register (hr : Machine.x86_64.isRegister t = true) (hsp : t ≠ rsp) :
    ¬ Lasting n t := by
  rintro (heq | hv)
  · exact hsp heq
  · exact absurd hr (Bool.eq_false_iff.1 hv.1)

theorem Lasting.ne {u : Temp} (h : Lasting n t) (hu : ¬ Lasting n u) : t ≠ u :=
  fun heq => hu (heq ▸ h)

theorem not_lasting_rax : ¬ Lasting n rax := not_lasting_of_register (by decide) (by decide)

theorem not_lasting_rdx : ¬ Lasting n rdx := not_lasting_of_register (by decide) (by decide)

theorem not_lasting_rcx : ¬ Lasting n rcx := not_lasting_of_register (by decide) (by decide)

theorem not_lasting_scratch (h : t ∈ scratchRegisters) : ¬ Lasting n t := by
  have hall : ∀ u ∈ scratchRegisters, Machine.x86_64.isRegister u = true ∧ u ≠ rsp := by decide
  exact not_lasting_of_register (hall t h).1 (hall t h).2

theorem Keeps.refl (n : Nat) (p : Processor) : Keeps n p p := fun _ _ => rfl

theorem Keeps.trans (h : Keeps n p q) (h' : Keeps m q r) (hle : n ≤ m) : Keeps n p r :=
  fun t ht => (h' t (ht.mono hle)).trans (h t ht)

theorem Keeps.set (h : Keeps n p q) (ht : ¬ Lasting n t) : Keeps n p (q.set t v) :=
  fun _ hu => (Processor.file_set_of_ne _ _ (hu.ne ht)).trans (h _ hu)

theorem Keeps.compute (h : Keeps n p q) (ht : ¬ Lasting n t) : Keeps n p (q.compute t v) :=
  fun _ hu => (Processor.file_compute_of_ne _ _ (hu.ne ht)).trans (h _ hu)

theorem Keeps.read (h : Keeps n p q) : Keeps n p (q.read a) := h

theorem Keeps.call (h : Keeps n p q) : Keeps n p (q.call a) := fun _ hu =>
  (Processor.file_call_of_not_mem _ _ fun hmem => not_lasting_scratch hmem hu).trans (h _ hu)

end Lasting

/-! ## Agreement -/

/-- A call or a read of the tree as the processor carries it out: the first arguments are in their
registers and the others in the words of the area. -/
inductive Matches (A : Area) : Interaction → Interaction → Prop
  | read (a v : Word) : Matches A (.read a v) (.read a v)
  | call {callee : Word} {arguments registers : List Word} {m m' : Memory}
      (hregisters : arguments.take 6 <+: registers)
      (harea : ∀ n v, arguments[n + 6]? = some v → m'.load (A.word n) = v)
      (hmemory : A.Outside m m') : Matches A (.call callee arguments m) (.call callee registers m')

/-- A processor in the middle of an evaluation, where `k` was the next temp at its beginning. -/
structure Agrees {symbol : String} (k : Nat) (σ : Scope symbol) (p : Processor) (w : World) :
    Prop where
  file : ∀ t, Lasting k t → p.file t = σ.file t
  replies : p.world.replies = w.replies
  memory : σ.area.Outside w.memory p.world.memory
  history : List.Forall₂ (Matches σ.area) w.history p.world.history

section Agrees

variable {symbol : String} {k n : Nat} {σ : Scope symbol} {p q : Processor} {w : World} {a : Word}

/-- At the beginning of an evaluation nothing has happened yet. -/
theorem Agrees.start (k : Nat) (σ : Scope symbol) (flags : Option Flags) (memory : Memory)
    (replies : Nat → Reply) :
    Agrees k σ ⟨σ.file, flags, ⟨memory, replies, []⟩⟩ ⟨memory, replies, []⟩ :=
  ⟨fun _ _ => rfl, rfl, .refl _ _, .nil⟩

theorem Agrees.of_keeps (h : Agrees k σ p w) (hkeeps : Keeps n p q) (hle : k ≤ n)
    (hworld : q.world = p.world) : Agrees k σ q w where
  file := fun t ht => (hkeeps t (ht.mono hle)).trans (h.file t ht)
  replies := hworld ▸ h.replies
  memory := hworld ▸ h.memory
  history := hworld ▸ h.history

theorem Agrees.load_eq (h : Agrees k σ p w) (ha : σ.area.meets a = false) :
    p.world.memory.load a = w.memory.load a := h.memory.load ha

theorem Agrees.read (h : Agrees k σ p w) (ha : σ.area.meets a = false) :
    Agrees k σ (p.read a) (w.read a) where
  file := h.file
  replies := h.replies
  memory := h.memory
  history := by
    refine List.rel_append h.history (.cons ?_ .nil)
    rw [h.load_eq ha]
    exact .read a _

theorem Agrees.framePointer_eq (h : Agrees k σ p w) :
    p.file rsp + σ.symbols symbol = σ.framePointer := by
  rw [h.file rsp (.inl rfl)]
  rfl

end Agrees

/-! ## Results -/

/-- What an action leaves: it lasts from the next temp on, and stands for a value. -/
class Result (α : Type) (γ : outParam Type) where
  lasts : Nat → α → Prop
  value : {symbol : String} → Scope symbol → Processor → α → γ
  lasts_mono : ∀ {n m : Nat} {a : α}, lasts n a → n ≤ m → lasts m a
  value_eq : ∀ {symbol : String} {σ : Scope symbol} {p q : Processor} {n : Nat} {a : α},
    lasts n a → Keeps n p q → value σ q a = value σ p a

instance : Result Temp Word where
  lasts := Virtual
  value _ p t := p.file t
  lasts_mono := Virtual.mono
  value_eq h hkeeps := hkeeps _ (.inr h)

instance : Result (List Temp) (List Word) where
  lasts n ts := ∀ t ∈ ts, Virtual n t
  value _ p ts := ts.map p.file
  lasts_mono h hle t ht := (h t ht).mono hle
  value_eq h hkeeps := List.map_congr_left fun t ht => hkeeps t (.inr (h t ht))

instance : Result Operand Word where
  lasts n
    | .imm c => isImm32 c = true
    | .temp t => Virtual n t
  value _ p b := b.value p
  lasts_mono {_ _ b} h hle := by
    cases b with
    | imm c => exact h
    | temp t => exact Virtual.mono h hle
  value_eq {_ _ _ _ _ b} h hkeeps := by
    cases b with
    | imm c => rfl
    | temp t => exact hkeeps t (.inr h)

instance : Result Address Word where
  lasts n
    | .frame offset => isImm32 offset = true
    | .base t offset => Virtual n t ∧ isImm32 offset = true
  value {symbol} σ p a := a.value σ.symbols symbol p
  lasts_mono {_ _ a} h hle := by
    cases a with
    | frame offset => exact h
    | base t offset => exact ⟨h.1.mono hle, h.2⟩
  value_eq {_ _ _ _ _ a} h hkeeps := by
    cases a with
    | frame offset => simp only [Address.value, hkeeps rsp (.inl rfl)]
    | base t offset => simp only [Address.value, hkeeps t (.inr h.1)]

instance : Result Callee Word where
  lasts n
    | .direct _ => True
    | .indirect t => Virtual n t
  value σ p
    | .direct l => σ.symbols l
    | .indirect t => p.file t
  lasts_mono {_ _ f} h hle := by
    cases f with
    | direct l => trivial
    | indirect t => exact Virtual.mono h hle
  value_eq {_ _ _ _ _ f} h hkeeps := by
    cases f with
    | direct l => rfl
    | indirect t => exact hkeeps t (.inr h)

/-! ## Computing -/

section Computes

variable {symbol : String} {α β γ δ ε ζ η : Type} [Result α γ] [Result δ ε] [Result ζ η]

/-- From state `S`, an action succeeds with operations that leave its result for the value of an
evaluation, given what is already there.  `k` was the next temp when selection for the whole
expression began. -/
def Computes (k : Nat) (S : State) (given : Scope symbol → Processor → β)
    (x : SelectM α) (eval : Scope symbol → β → World → Option (γ × World)) : Prop :=
  ∃ a S' ops, x.run.run S = (.ok a, S') ∧ Extends S S' ops ∧
    Result.lasts S'.namer.nextTemp a ∧
    ∀ (σ : Scope symbol) p w v w', S'.memoryArguments ≤ σ.words → Agrees k σ p w →
      eval σ (given σ p) w = some (v, w') →
      ∃ q, Operation.execAll σ.symbols symbol ops p = some q ∧ Keeps S.namer.nextTemp p q ∧
        Agrees k σ q w' ∧ Result.value σ q a = v

/-- From any state with the temps below `k` handed out, an action computes an evaluation. -/
def Evaluates (k : Nat) (x : SelectM α) (eval : Scope symbol → World → Option (γ × World)) : Prop :=
  ∀ S : State, k ≤ S.namer.nextTemp → Computes k S (fun _ _ => ()) x fun σ _ => eval σ

variable {k : Nat} {S : State} {given : Scope symbol → Processor → β} {x : SelectM α}
  {y : SelectM δ} {eval : Scope symbol → β → World → Option (γ × World)}
  {evalx : Scope symbol → World → Option (γ × World)}
  {evaly : Scope symbol → World → Option (ε × World)}

theorem Evaluates.congr {evalx' : Scope symbol → World → Option (γ × World)}
    (h : Evaluates k x evalx) (heq : ∀ σ w, evalx' σ w = evalx σ w) : Evaluates k x evalx' := by
  have hfun : evalx' = evalx := by
    funext σ w
    exact heq σ w
  exact hfun ▸ h

/-- Selection has one run, so that a run that is known computes the evaluation. -/
theorem Evaluates.of_run {a : α} {S' : State} {ops : List Operation} (h : Evaluates k x evalx)
    (hS : k ≤ S.namer.nextTemp) (hrun : x.run.run S = (.ok a, S')) (hext : Extends S S' ops) :
    Result.lasts S'.namer.nextTemp a ∧
      ∀ (σ : Scope symbol) p w v w', S'.memoryArguments ≤ σ.words → Agrees k σ p w →
        evalx σ w = some (v, w') →
        ∃ q, Operation.execAll σ.symbols symbol ops p = some q ∧ Keeps S.namer.nextTemp p q ∧
          Agrees k σ q w' ∧ Result.value σ q a = v := by
  obtain ⟨a', S₁, ops', hrun', hext', hlasts, hexec⟩ := h S hS
  obtain ⟨hsame, rfl⟩ := Prod.mk.inj (hrun.symm.trans hrun')
  obtain rfl := Except.ok.inj hsame
  obtain rfl := hext.operations_eq hext'
  exact ⟨hlasts, hexec⟩

/-- Actions in sequence compute evaluations in sequence. -/
theorem Computes.bind {f : α → SelectM δ}
    (eval' : Scope symbol → β × γ → World → Option (ε × World))
    (hx : Computes k S given x eval)
    (hgiven : ∀ σ p q, Keeps S.namer.nextTemp p q → given σ q = given σ p)
    (hf : ∀ a S', S.namer.nextTemp ≤ S'.namer.nextTemp → Result.lasts S'.namer.nextTemp a →
      Computes k S' (fun σ p => (given σ p, Result.value σ p a)) (f a) eval') :
    Computes k S given (x >>= f) fun σ b w =>
      (eval σ b w).bind fun e => eval' σ (b, e.1) e.2 := by
  obtain ⟨a, S₁, ops₁, hrun₁, hext₁, hlasts₁, hexec₁⟩ := hx
  obtain ⟨b, S₂, ops₂, hrun₂, hext₂, hlasts₂, hexec₂⟩ := hf a S₁ hext₁.nextTemp_le hlasts₁
  refine ⟨b, S₂, ops₁ ++ ops₂, (run_bind_ok hrun₁).trans hrun₂, hext₁.trans hext₂, hlasts₂, ?_⟩
  intro σ p w v w' hwords hagrees heval
  obtain ⟨⟨u, w₁⟩, heval₁, heval₂⟩ := Option.bind_eq_some_iff.1 heval
  obtain ⟨p₁, hp₁, hkeeps₁, hagrees₁, hu⟩ :=
    hexec₁ σ p w u w₁ (hext₂.memoryArguments_le.trans hwords) hagrees heval₁
  -- the second action is given what was there before, which lasts, and the first result
  have hgiven₁ : (given σ p₁, Result.value σ p₁ a) = (given σ p, u) :=
    Prod.ext (hgiven σ p p₁ hkeeps₁) hu
  obtain ⟨q, hq, hkeeps₂, hagrees₂, hv⟩ := hexec₂ σ p₁ w₁ v w' hwords hagrees₁ (by
    change eval' σ (given σ p₁, Result.value σ p₁ a) w₁ = _
    rw [hgiven₁]
    exact heval₂)
  exact ⟨q, (Operation.execAll_append hp₁).trans hq, hkeeps₁.trans hkeeps₂ hext₁.nextTemp_le,
    hagrees₂, hv⟩

/-- One operand, and what is done with it. -/
theorem Evaluates.bind {f : α → SelectM δ} (next : Scope symbol → γ → World → Option (ε × World))
    (hx : Evaluates k x evalx)
    (hf : ∀ a S, k ≤ S.namer.nextTemp → Result.lasts S.namer.nextTemp a →
      Computes k S (fun σ p => Result.value σ p a) (f a) next) :
    Evaluates k (x >>= f) fun σ w => (evalx σ w).bind fun e => next σ e.1 e.2 :=
  fun S hS => (hx S hS).bind (fun σ e => next σ e.2) (fun _ _ _ _ => rfl)
    fun a S' hle ha => hf a S' (hS.trans hle) ha

/-- Two operands from left to right, and what is done with them. -/
theorem Evaluates.bind₂ {f : α → δ → SelectM ζ}
    (next : Scope symbol → γ × ε → World → Option (η × World))
    (hx : Evaluates k x evalx) (hy : Evaluates k y evaly)
    (hf : ∀ a b S, k ≤ S.namer.nextTemp → Result.lasts S.namer.nextTemp a →
      Result.lasts S.namer.nextTemp b →
      Computes k S (fun σ p => (Result.value σ p a, Result.value σ p b)) (f a b) next) :
    Evaluates k (x >>= fun a => y >>= f a) fun σ w =>
      (evalx σ w).bind fun a => (evaly σ a.2).bind fun b => next σ (a.1, b.1) b.2 := by
  refine hx.bind (fun σ a w => (evaly σ w).bind fun b => next σ (a, b.1) b.2) fun a S hS ha => ?_
  -- the first value outlives the second operand
  have hsecond : Computes k S (fun σ p => Result.value σ p a) y fun σ _ => evaly σ := hy S hS
  exact hsecond.bind next (fun _ _ _ h => Result.value_eq ha h) fun b S' hle hb =>
    hf a b S' (hS.trans hle) (Result.lasts_mono ha hle) hb

end Computes

end Selection

end TreeCompiler
