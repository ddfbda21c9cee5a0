import Mathlib.Data.List.Chain
import TreeCompiler.Proofs.Grammar.Faults

/-!
# Reading — what each part of the parser reads

Wherever the parser stands, a list of symbols says what can still come (`Reached`).  A part of the
parser that succeeds has read what its symbol stands for and has reached the symbols behind it
(`Reads`); one that fails has found the first fault (`firstFault_fail`), as the terminals it
reports are those that the symbols begin with (`Expects`).
-/

namespace TreeCompiler

namespace Parser

open Grammar (Sym Expands Begins Continues Viable expands_nonterminal_iff begins_nonterminal_iff
  bodies)
open Located (tokens)

/-! ## Outcomes -/

/-- A result is good, or an error is a right one. -/
def Outcome {α : Type} (P : α → Prop) (F : ParseError → Prop) : Except ParseError α → Prop
  | .ok a => P a
  | .error e => F e

theorem Outcome.bind {α β : Type} {P : α → Prop} {Q : β → Prop} {F : ParseError → Prop}
    {r : Except ParseError α} {f : α → Except ParseError β} (hr : Outcome P F r)
    (hf : ∀ a, P a → Outcome Q F (f a)) : Outcome Q F (r >>= f) := by
  cases r with
  | error e => exact hr
  | ok a => exact hf a hr

theorem Outcome.imp {α : Type} {P Q : α → Prop} {F : ParseError → Prop} {r : Except ParseError α}
    (hr : Outcome P F r) (h : ∀ a, P a → Q a) : Outcome Q F r := by
  cases r with
  | error e => exact hr
  | ok a => exact h a hr

theorem Outcome.imp_error {α : Type} {P : α → Prop} {F G : ParseError → Prop}
    {r : Except ParseError α} (hr : Outcome P F r) (h : ∀ e, F e → G e) : Outcome P G r := by
  cases r with
  | error e => exact h e hr
  | ok a => exact hr

/-! ## Where the parser stands -/

variable {ctx : Context} {machine : Machine} {whole ts rest pre : List Located} {t : Located}
  {σ τ : List Sym} {expected follow : List Terminal} {α : Type}

/-- The symbols expand to what can come behind the tokens before `rest`, and these tokens have no
reference to no temp. -/
def Reached (machine : Machine) (whole rest : List Located) (σ : List Sym) : Prop :=
  ∃ pre, whole = pre ++ rest ∧ Continues (tokens pre) σ ∧ ∀ t ∈ pre, ∀ e, ¬ Misnames machine t e

/-- The terminals that the symbols begin with. -/
def Expects (expected : List Terminal) (σ : List Sym) : Prop :=
  ∀ x, x ∈ expected ↔ Begins σ x

theorem Reached.start (machine : Machine) (ts : List Located) :
    Reached machine ts ts [.nonterminal .program] :=
  ⟨[], rfl, Grammar.continues_nil, by simp⟩

theorem Reached.step (h : Reached machine whole (t :: rest) σ)
    (hname : ∀ e, ¬ Misnames machine t e)
    (hread : ∀ w, Expands σ (t.token.terminal? :: w) ↔ Expands τ w) :
    Reached machine whole rest τ := by
  obtain ⟨pre, rfl, hcontinues, hnames⟩ := h
  refine ⟨pre ++ [t], by simp, ?_, ?_⟩
  · rw [tokens, List.map_append]
    exact hcontinues.snoc hread
  · intro u hu
    rcases List.mem_append.1 hu with hu | hu
    · exact hnames u hu
    · obtain rfl := List.mem_singleton.1 hu
      exact hname

theorem NoMarkedMisname.append {us : List Located} (hpre : ∀ t ∈ pre, ∀ e, ¬ Misnames machine t e)
    (hus : NoMarkedMisname machine us) : NoMarkedMisname machine (pre ++ us) := by
  induction pre with
  | nil => exact hus
  | cons t pre ih =>
      have ht : ∀ e, ¬ Misnames machine t e := hpre t List.mem_cons_self
      exact (ih fun u hu => hpre u (List.mem_cons_of_mem t hu)).cons fun _ _ _ => ht

/-- A part of the parser that stops at what the symbols do not begin with. -/
theorem firstFault_fail (hcontinues : Continues (tokens pre) σ) (hexpected : Expects expected σ)
    (hend : ts = [] → ¬ Expands σ [])
    (hhead : ∀ t ∈ ts.head?, ∀ x ∈ expected, t.token.terminal? ≠ some x)
    (hnames : NoMarkedMisname ctx.machine (pre ++ ts.head?.toList)) :
    FirstFault ctx.machine ctx.eof (pre ++ ts) (fail ctx expected ts) := by
  have hlists : ListsNext (tokens pre) expected :=
    ⟨Terminal.sorted_names expected, fun x => by
      rw [Terminal.mem_sorted, hexpected, hcontinues.canFollow_iff]⟩
  cases ts with
  | nil =>
      rw [List.append_nil]
      simp only [List.head?_nil, Option.toList_none, List.append_nil] at hnames
      exact .unfinished hcontinues.viable (fun h => hend rfl (hcontinues.sentence_iff.1 h)) hlists
        hnames
  | cons t ts =>
      refine .unexpected rfl hcontinues.viable ?_ hlists hnames
      rw [tokens, List.map_append, List.map_singleton, hcontinues.viable_snoc_iff]
      rintro ⟨x, hx, hbegins⟩
      exact hhead t rfl x ((hexpected x).2 hbegins) hx

theorem Reached.firstFault (h : Reached ctx.machine whole ts σ) (hexpected : Expects expected σ)
    (hend : ts = [] → ¬ Expands σ [])
    (hhead : ∀ t ∈ ts.head?, ∀ x ∈ expected, t.token.terminal? ≠ some x) :
    FirstFault ctx.machine ctx.eof whole (fail ctx expected ts) := by
  obtain ⟨pre, rfl, hcontinues, hnames⟩ := h
  refine firstFault_fail hcontinues hexpected hend hhead (NoMarkedMisname.append hnames ?_)
  cases ts with
  | nil => exact .nil
  | cons t ts => exact .singleton t

/-- A part of the parser has read tokens for what `D` says and has reached `τ`. -/
def Reads (ctx : Context) (whole ts : List Located) (τ : List Sym) (D : List Token → α → Prop)
    (r : α × Rest ts) : Prop :=
  ∃ us, tokens ts = us ++ tokens r.2.1 ∧ D us r.1 ∧ Reached ctx.machine whole r.2.1 τ

/-! ## One token -/

/-- Read one token, then go on with what is behind it. -/
theorem Outcome.bind_token {β : Type} {Q : β → Prop} {F : ParseError → Prop} {tok : α → Token}
    {r : Result α ts} {f : α × Rest ts → Except ParseError β}
    (hr : Outcome (Reads ctx whole ts τ fun us a => us = [tok a]) F r)
    (hf : ∀ a rest (h : rest.length < ts.length), tokens ts = tok a :: tokens rest →
      Reached ctx.machine whole rest τ → Outcome Q F (f (a, ⟨rest, h⟩))) :
    Outcome Q F (r >>= f) := by
  refine hr.bind ?_
  rintro ⟨a, rest, h⟩ ⟨_, hts, rfl, hrest⟩
  exact hf a rest h hts hrest

theorem Reached.take {f : Token → Option α} (h : Reached ctx.machine whole ts σ)
    (hexpected : Expects expected σ) (hend : ts = [] → ¬ Expands σ [])
    (hf : ∀ t, f t = none → ∀ x ∈ expected, t.terminal? ≠ some x) :
    Outcome (fun r => ∃ t, ts = t :: r.2.1 ∧ f t.token = some r.1)
      (FirstFault ctx.machine ctx.eof whole) (take ctx expected f ts) := by
  cases ts with
  | nil => exact h.firstFault hexpected hend (by simp)
  | cons t ts =>
      cases ht : f t.token with
      | some a =>
          simp only [Parser.take, ht]
          exact ⟨t, rfl, ht⟩
      | none =>
          simp only [Parser.take, ht]
          refine h.firstFault hexpected hend ?_
          rintro _ ⟨⟩
          exact hf _ ht

/-- No token but a temp or a register is a reference. -/
theorem not_misnames (htemp : t.token.terminal? ≠ some .temp)
    (hregister : t.token.terminal? ≠ some .register) (e : ParseError) : ¬ Misnames machine t e := by
  rintro (h | h)
  · exact htemp rfl
  · exact hregister rfl

/-- Read a token that is no reference; what comes next depends on what was taken from it. -/
theorem Reached.read {f : Token → Option α} {g : α → List Sym}
    (h : Reached ctx.machine whole ts σ) (hexpected : Expects expected σ)
    (hend : ts = [] → ¬ Expands σ [])
    (hnone : ∀ t, f t = none → ∀ x ∈ expected, t.terminal? ≠ some x)
    (hsome : ∀ t a, f t = some a → (t.terminal? ≠ some .temp ∧ t.terminal? ≠ some .register) ∧
      ∀ w, Expands σ (t.terminal? :: w) ↔ Expands (g a) w) :
    Outcome (fun r => ∃ t, tokens ts = t :: tokens r.2.1 ∧ f t = some r.1 ∧
        Reached ctx.machine whole r.2.1 (g r.1))
      (FirstFault ctx.machine ctx.eof whole) (Parser.take ctx expected f ts) := by
  refine (h.take hexpected hend hnone).imp ?_
  rintro ⟨a, rest, _⟩ ⟨t, hts, ht⟩
  obtain rfl : ts = t :: rest := hts
  obtain ⟨⟨htemp, hregister⟩, hread⟩ := hsome _ _ ht
  exact ⟨t.token, rfl, ht, h.step (not_misnames htemp hregister) hread⟩

/-! ### Punctuation, words, names and numbers -/

theorem expects_terminal (x : Terminal) (σ : List Sym) : Expects [x] (.terminal x :: σ) := by
  intro y
  simp

/-- Read a token of the terminal in front, which is not that of a reference. -/
theorem Reached.terminal {x : Terminal} {f : Token → Option α}
    (h : Reached ctx.machine whole ts (.terminal x :: σ)) (htemp : x ≠ .temp)
    (hregister : x ≠ .register) (hf : ∀ t : Token, (f t).isSome ↔ t.terminal? = some x) :
    Outcome (Reads ctx whole ts σ fun us a => ∃ t, us = [t] ∧ f t = some a)
      (FirstFault ctx.machine ctx.eof whole) (Parser.take ctx [x] f ts) := by
  refine (h.read (g := fun _ => σ) (expects_terminal x σ)
    (fun _ => Grammar.not_expands_terminal_nil) ?_ ?_).imp ?_
  · intro t ht y hy hty
    obtain rfl := List.mem_singleton.1 hy
    simp [← hf, ht] at hty
  · intro t a ht
    have hx : t.terminal? = some x := (hf t).1 (by simp [ht])
    simp [hx, htemp, hregister]
  · rintro ⟨a, rest, _⟩ ⟨t, hts, ht, hrest⟩
    exact ⟨[t], hts, ⟨t, rfl, ht⟩, hrest⟩

theorem terminal_of_expect {t : Token} {x : Terminal} {u : Unit}
    (h : (if t.terminal? = some x then some () else none) = some u) : t.terminal? = some x := by
  by_contra hne
  simp [hne] at h

/-- Read a token that is all there is of its terminal. -/
theorem Reached.expect {tok : Token} {x : Terminal}
    (h : Reached ctx.machine whole ts (.terminal x :: σ))
    (htok : ∀ t : Token, t.terminal? = some x → t = tok) (htemp : x ≠ .temp)
    (hregister : x ≠ .register) :
    Outcome (Reads ctx whole ts σ fun us _ => us = [tok]) (FirstFault ctx.machine ctx.eof whole)
      (Parser.expect ctx x ts) := by
  refine (h.terminal htemp hregister fun t => ?_).imp ?_
  · by_cases ht : t.terminal? = some x <;> simp [ht]
  · rintro ⟨_, rest, _⟩ ⟨_, hts, ⟨t, rfl, ht⟩, hrest⟩
    exact ⟨[t], hts, by rw [htok t (terminal_of_expect ht)], hrest⟩

theorem eq_punctuation {t : Token} {p : Punctuation} (h : t.terminal? = some (.punctuation p)) :
    t = .punctuation p := by
  cases t <;> simp_all [Token.terminal?]

theorem eq_keyword {t : Token} {k : Keyword} (h : t.terminal? = some (.keyword k)) :
    t = .keyword k := by
  cases t <;> simp_all [Token.terminal?]

theorem Reached.punctuation {p : Punctuation}
    (h : Reached ctx.machine whole ts (.terminal (.punctuation p) :: σ)) :
    Outcome (Reads ctx whole ts σ fun us _ => us = [.punctuation p])
      (FirstFault ctx.machine ctx.eof whole) (Parser.expect ctx (.punctuation p) ts) :=
  h.expect (fun _ => eq_punctuation) (by simp) (by simp)

theorem Reached.keyword {k : Keyword}
    (h : Reached ctx.machine whole ts (.terminal (.keyword k) :: σ)) :
    Outcome (Reads ctx whole ts σ fun us _ => us = [.keyword k])
      (FirstFault ctx.machine ctx.eof whole) (Parser.expect ctx (.keyword k) ts) :=
  h.expect (fun _ => eq_keyword) (by simp) (by simp)

theorem Reached.label (h : Reached ctx.machine whole ts (Grammar.label :: σ)) :
    Outcome (Reads ctx whole ts σ fun us l => us = [.ident l])
      (FirstFault ctx.machine ctx.eof whole) (Parser.label ctx ts) := by
  refine (h.terminal (by simp) (by simp) fun t => ?_).imp ?_
  · cases t <;> simp [Token.terminal?]
  · rintro ⟨l, rest, _⟩ ⟨_, hts, ⟨t, rfl, ht⟩, hrest⟩
    refine ⟨[t], hts, ?_, hrest⟩
    cases t <;> simp_all

theorem Reached.number (h : Reached ctx.machine whole ts (Grammar.number :: σ)) :
    Outcome (Reads ctx whole ts σ fun us n => us = [.number n])
      (FirstFault ctx.machine ctx.eof whole) (Parser.number ctx ts) := by
  refine (h.terminal (by simp) (by simp) fun t => ?_).imp ?_
  · cases t <;> simp [Token.terminal?]
  · rintro ⟨n, rest, _⟩ ⟨_, hts, ⟨t, rfl, ht⟩, hrest⟩
    refine ⟨[t], hts, ?_, hrest⟩
    cases t <;> simp_all

/-! ### Operators -/

theorem Reached.binOp (h : Reached ctx.machine whole ts (.nonterminal .binOp :: σ)) :
    Outcome (Reads ctx whole ts σ fun us op => us = [.binOp op])
      (FirstFault ctx.machine ctx.eof whole) (Parser.binOp ctx ts) := by
  have hexpected : Expects (BinOp.all.map .binOp) (.nonterminal .binOp :: σ) := by
    intro x
    simp [begins_nonterminal_iff, bodies, eq_comm]
  refine (h.read (g := fun _ => σ) hexpected
    (fun _ => by simp [expands_nonterminal_iff, bodies]) ?_ ?_).imp ?_
  · intro t ht
    cases t <;> simp_all [Token.terminal?]
  · intro t op ht
    cases t <;> simp_all [Token.terminal?]
    cases op <;> simp [expands_nonterminal_iff, bodies, BinOp.all]
  · rintro ⟨op, rest, _⟩ ⟨t, hts, ht, hrest⟩
    refine ⟨[t], hts, ?_, hrest⟩
    cases t <;> simp_all

theorem Reached.relOp (h : Reached ctx.machine whole ts (.nonterminal .relOp :: σ)) :
    Outcome (Reads ctx whole ts σ fun us op => us = [.relOp op])
      (FirstFault ctx.machine ctx.eof whole) (Parser.relOp ctx ts) := by
  have hexpected : Expects (RelOp.all.map .relOp) (.nonterminal .relOp :: σ) := by
    intro x
    simp [begins_nonterminal_iff, bodies, eq_comm]
  refine (h.read (g := fun _ => σ) hexpected
    (fun _ => by simp [expands_nonterminal_iff, bodies]) ?_ ?_).imp ?_
  · intro t ht
    cases t <;> simp_all [Token.terminal?]
  · intro t op ht
    cases t <;> simp_all [Token.terminal?]
    cases op <;> simp [expands_nonterminal_iff, bodies, RelOp.all]
  · rintro ⟨op, rest, _⟩ ⟨t, hts, ht, hrest⟩
    refine ⟨[t], hts, ?_, hrest⟩
    cases t <;> simp_all

/-! ### Marks -/

/-- Whether a list goes on with a comma or ends with a parenthesis. -/
theorem Reached.mark {n : Grammar.Nonterminal} {body : List Sym} {f : Token → Option Bool}
    {r : Result Bool ts} (h : Reached ctx.machine whole ts (.nonterminal n :: Grammar.rparen :: σ))
    (hbodies : bodies n = [[], Grammar.comma :: body])
    (hf : ∀ t b, f t = some b ↔ t = .punctuation (if b then .comma else .rparen))
    (hr : Parser.take ctx [comma, rparen] f ts = r) :
    Outcome (fun r => tokens ts = .punctuation (if r.1 then .comma else .rparen) :: tokens r.2.1 ∧
        Reached ctx.machine whole r.2.1 (if r.1 then body ++ Grammar.rparen :: σ else σ))
      (FirstFault ctx.machine ctx.eof whole) r := by
  subst hr
  have hexpected : Expects [comma, rparen] (.nonterminal n :: Grammar.rparen :: σ) := by
    intro x
    simp [begins_nonterminal_iff, hbodies, comma, rparen, or_comm]
  -- a comma takes the body with the comma, and a parenthesis the empty one
  refine (h.read (g := fun b => if b then body ++ Grammar.rparen :: σ else σ) hexpected
    (fun _ => by simp [expands_nonterminal_iff, hbodies]) ?_ ?_).imp ?_
  · intro t ht x hx hterminal
    obtain rfl | rfl : x = comma ∨ x = rparen := by simpa using hx
    · obtain rfl := eq_punctuation hterminal
      simp [(hf (.punctuation .comma) true).2] at ht
    · obtain rfl := eq_punctuation hterminal
      simp [(hf (.punctuation .rparen) false).2] at ht
  · intro t b ht
    obtain rfl := (hf t b).1 ht
    cases b <;> simp [Token.terminal?, expands_nonterminal_iff, hbodies]
  · rintro ⟨b, rest, _⟩ ⟨t, hts, ht, hrest⟩
    obtain rfl := (hf t b).1 ht
    exact ⟨hts, hrest⟩

/-! ### References -/

theorem TempRef.resolve_outcome {ref : TempRef} (href : TempRef.ofToken? t.token = some ref) :
    Outcome (fun a => t.token.Refers machine a ∧ ∀ e, ¬ Misnames machine t e) (Misnames machine t)
      (ref.resolve machine t.start) := by
  obtain ⟨start, tok, stop⟩ := t
  cases tok with
  | temp n =>
      obtain rfl : TempRef.number n = ref := Option.some.inj href
      simp only [TempRef.resolve]
      split
      · next hlow => exact .lowTemp hlow
      · next hlow =>
          refine ⟨.temp (Nat.le_of_not_lt hlow), fun e he => ?_⟩
          cases he with
          | lowTemp h => exact hlow h
  | register name =>
      obtain rfl : TempRef.register name = ref := Option.some.inj href
      simp only [TempRef.resolve]
      split
      · next a ha =>
          refine ⟨.register ha, fun e he => ?_⟩
          cases he with
          | unknownRegister h => simp [ha] at h
      · next hnone => exact .unknownRegister hnone
  | _ => cases href

/-- What can follow an expression in some place: a comma or a closing parenthesis. -/
structure Follows (follow : List Terminal) (σ : List Sym) : Prop where
  expects : Expects follow σ
  not_expands_nil : ¬ Expands σ []
  marks : ∀ x ∈ follow, x = comma ∨ x = rparen

theorem endsExp_cons {u : Located} : endsExp (u :: rest) = true ↔ u.IsMark := by
  obtain ⟨start, tok, stop⟩ := u
  cases tok <;> simp [endsExp, Located.IsMark, Token.terminal?, comma, rparen]

theorem Follows.not_mem (h : Follows follow σ) {u : Located} (hmark : ¬ u.IsMark) :
    ∀ x ∈ follow, u.token.terminal? ≠ some x := by
  intro x hx hterminal
  refine hmark ?_
  rcases h.marks x hx with rfl | rfl
  · exact .inl (eq_punctuation hterminal)
  · exact .inr (eq_punctuation hterminal)

theorem Reached.tempRef (h : Reached ctx.machine whole ts (.nonterminal .reference :: σ))
    (hfollow : Follows follow σ) :
    Outcome (Reads ctx whole ts σ fun us a => ∃ ref, us = [ref] ∧ ref.Refers ctx.machine a)
      (FirstFault ctx.machine ctx.eof whole) (Parser.tempRef ctx follow ts) := by
  have hexpected : Expects [.temp, .register] (.nonterminal .reference :: σ) := by
    intro x
    simp [begins_nonterminal_iff, bodies]
  rw [Parser.tempRef]
  refine (h.take hexpected (by simp [expands_nonterminal_iff, bodies]) ?_).bind ?_
  · -- what is refused is no reference
    intro t ht x hx
    obtain rfl | rfl : x = .temp ∨ x = .register := by simpa using hx
    all_goals cases t <;> simp_all [TempRef.ofToken?, Token.terminal?]
  rintro ⟨ref, rest, _⟩ ⟨t, hts, href⟩
  obtain rfl : ts = t :: rest := hts
  have hread : ∀ w, Expands (.nonterminal .reference :: σ) (t.token.terminal? :: w) ↔
      Expands σ w := by
    intro w
    generalize t.token = tok at href
    cases tok <;> simp_all [TempRef.ofToken?, Token.terminal?, expands_nonterminal_iff, bodies]
  have hresolve : Outcome _ _ (ref.resolve ctx.machine t.start) := TempRef.resolve_outcome href
  obtain ⟨pre, rfl, hcontinues, hnames⟩ := id h
  have hnext : Continues (tokens (pre ++ [t])) σ := by
    rw [tokens, List.map_append]
    exact hcontinues.snoc hread
  have hchain : NoMarkedMisname ctx.machine (pre ++ [t]) :=
    NoMarkedMisname.append hnames (.singleton t)
  -- a reference to no temp is reported only if what is behind it can follow an expression
  cases rest with
  | nil =>
      have hfault : FirstFault ctx.machine ctx.eof (pre ++ [t] ++ []) (fail ctx _ []) :=
        firstFault_fail hnext hfollow.expects (fun _ => hfollow.not_expands_nil) (by simp)
          (by simpa using hchain)
      rwa [List.append_nil] at hfault
  | cons u post =>
      by_cases hmark : u.IsMark
      · simp only [endsExp_cons.2 hmark, if_true]
        have hfault : ∀ e, Misnames ctx.machine t e →
            FirstFault ctx.machine ctx.eof (pre ++ t :: u :: post) e :=
          fun e he => .reference rfl hnext.viable he hmark hchain
        refine (hresolve.imp_error hfault).bind ?_
        rintro a ⟨hrefers, hname⟩
        exact ⟨[t.token], rfl, ⟨t.token, rfl, hrefers⟩, h.step hname hread⟩
      · -- the token behind the reference is at fault, whatever the reference is to
        simp only [endsExp_cons, hmark, if_false]
        have hpair : NoMarkedMisname ctx.machine [t, u] :=
          List.isChain_pair.2 fun h => absurd h hmark
        have hfault : FirstFault ctx.machine ctx.eof (pre ++ [t] ++ u :: post)
            (fail ctx _ (u :: post)) :=
          firstFault_fail hnext hfollow.expects (fun _ => hfollow.not_expands_nil)
            (by rintro _ ⟨⟩; exact hfollow.not_mem hmark)
            (by simpa using NoMarkedMisname.append hnames hpair)
        rwa [List.append_assoc] at hfault

end Parser

end TreeCompiler
