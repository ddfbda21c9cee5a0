import TreeCompiler.Proofs.Grammar.Reading

/-!
# Parser — the parts of the parser on trees and procedures

Each part is right (`Right`) before the symbols it is for: lists of labels, expressions, arguments
and statements together (`readsTrees`, by induction on the number of tokens, as the parser recurses
on what is left of them), the body of a procedure, and the procedures of a file.
-/

namespace TreeCompiler

namespace Parser

open Grammar (Sym Expands Begins expands_nonterminal_iff begins_nonterminal_iff bodies)
open Located (tokens)

variable {ctx : Context} {machine : Machine} {whole ts rest pre : List Located} {t : Located}
  {σ τ : List Sym} {expected follow : List Terminal} {α : Type}

/-- A part of the parser that reads what `D` says and finds the first fault if it fails. -/
abbrev Right (ctx : Context) (whole ts : List Located) (τ : List Sym) (D : List Token → α → Prop) :
    Result α ts → Prop :=
  Outcome (Reads ctx whole ts τ D) (FirstFault ctx.machine ctx.eof whole)

/-! ## Labels -/

/-- Tokens up to a closing parenthesis. -/
def Closed (D : List Token → α → Prop) (us : List Token) (a : α) : Prop :=
  ∃ vs, us = vs ++ [.punctuation .rparen] ∧ D vs a

theorem mark_iff (t : Token) (b : Bool) :
    (match t with
      | .punctuation .comma => some true
      | .punctuation .rparen => some false
      | _ => none) = some b ↔ t = .punctuation (if b then .comma else .rparen) := by
  cases t with
  | punctuation p => cases p <;> cases b <;> simp
  | _ => simp

theorem Reached.labels {ts : List Located}
    (h : Reached ctx.machine whole ts (.nonterminal .labels :: Grammar.rparen :: σ)) :
    Right ctx whole ts σ (Closed Label.DerivesAll) (Parser.labels ctx ts) := by
  induction hn : ts.length using Nat.strong_induction_on generalizing ts with
  | _ n ih =>
  subst hn
  rw [Parser.labels]
  split
  · next htake => exact h.mark rfl mark_iff htake
  · next r htake =>
      obtain ⟨hts, hrest⟩ := h.mark rfl mark_iff htake
      exact ⟨[.punctuation .rparen], hts, ⟨[], rfl, .nil⟩, hrest⟩
  · next r htake =>
      obtain ⟨r₀, h₀⟩ := r
      obtain ⟨hts, hr₀⟩ := h.mark rfl mark_iff htake
      refine (Reached.label hr₀).bind_token fun l r₁ h₁ hts₁ hr₁ => ?_
      refine (ih _ (h₁.trans h₀) hr₁ rfl).bind ?_
      rintro ⟨ls, r₂, h₂⟩ ⟨_, hts₂, ⟨vs, rfl, hvs⟩, hr₂⟩
      refine ⟨.punctuation .comma :: .ident l :: vs ++ [.punctuation .rparen], ?_,
        ⟨_, rfl, .cons hvs⟩, hr₂⟩
      simp_all

/-! ## Forms -/

/-- Read the keyword that tells which form a tree has. -/
theorem Reached.form {Form : Type} {n : Grammar.Nonterminal} {F : List Form}
    {keyword : Form → Keyword} {tail : Form → List Sym} {ofToken? : Token → Option Form}
    {r : Result Form ts} (h : Reached ctx.machine whole ts (.nonterminal n :: σ))
    (hbodies : bodies n = F.map fun f => Grammar.word (keyword f) :: tail f)
    (hforms : ∀ f, f ∈ F)
    (hof : ∀ {t f}, ofToken? t = some f ↔ t = .keyword (keyword f))
    (hr : Parser.take ctx (F.map fun f => .keyword (keyword f)) ofToken? ts = r) :
    Outcome (fun r => tokens ts = .keyword (keyword r.1) :: tokens r.2.1 ∧
        Reached ctx.machine whole r.2.1 (tail r.1 ++ σ))
      (FirstFault ctx.machine ctx.eof whole) r := by
  subst hr
  have hinj {f g : Form} (hfg : keyword f = keyword g) : f = g :=
    Option.some.inj ((hof.2 rfl).symm.trans (hof.2 (by rw [hfg])))
  have hexpected : Expects (F.map fun f => .keyword (keyword f)) (.nonterminal n :: σ) := by
    intro x
    simp [begins_nonterminal_iff, hbodies, eq_comm]
  refine (h.read (g := fun f => tail f ++ σ) hexpected
    (fun _ => by simp [expands_nonterminal_iff, hbodies]) ?_ ?_).imp ?_
  · -- every keyword that is expected belongs to a form
    intro t ht x hx hterminal
    obtain ⟨f, -, rfl⟩ := List.mem_map.1 hx
    obtain rfl := eq_keyword hterminal
    rw [hof.2 rfl] at ht
    cases ht
  · intro t f ht
    obtain rfl := hof.1 ht
    refine ⟨by simp [Token.terminal?], fun w => ?_⟩
    simp only [Token.terminal?, expands_nonterminal_iff, hbodies, List.mem_map]
    constructor
    · -- no other form begins with the keyword
      rintro ⟨_, ⟨g, -, rfl⟩, hw⟩
      obtain ⟨hfg, hw⟩ := Grammar.expands_terminal_cons_iff.1 hw
      obtain rfl : f = g := hinj (by simpa using hfg)
      exact hw
    · exact fun hw => ⟨_, ⟨f, hforms f, rfl⟩, .read hw⟩
  · rintro ⟨f, rest, _⟩ ⟨t, hts, ht, hrest⟩
    obtain rfl := hof.1 ht
    exact ⟨hts, hrest⟩

def ExpForm.keyword : ExpForm → Keyword
  | .binop => .binop
  | .mem => .mem
  | .temp => .temp
  | .eseq => .eseq
  | .name => .name
  | .const => .const
  | .call => .call

/-- The symbols behind the keyword of an expression. -/
def ExpForm.tail : ExpForm → List Sym
  | .binop => [Grammar.lparen, .nonterminal .binOp, Grammar.comma, Grammar.exp, Grammar.comma,
      Grammar.exp, Grammar.rparen]
  | .mem => [Grammar.lparen, Grammar.exp, Grammar.rparen]
  | .temp => [.nonterminal .reference]
  | .eseq => [Grammar.lparen, Grammar.stm, Grammar.comma, Grammar.exp, Grammar.rparen]
  | .name => [Grammar.label]
  | .const => [Grammar.number]
  | .call => [Grammar.lparen, Grammar.exp, .nonterminal .arguments, Grammar.rparen]

def ExpForm.all : List ExpForm := [.binop, .mem, .temp, .eseq, .name, .const, .call]

theorem ExpForm.mem_all (f : ExpForm) : f ∈ all := by
  cases f <;> simp [all]

theorem ExpForm.ofToken?_eq_some {t : Token} {f : ExpForm} :
    ofToken? t = some f ↔ t = .keyword f.keyword := by
  constructor
  · intro h
    unfold ofToken? at h
    split at h <;> cases h <;> rfl
  · rintro rfl
    cases f <;> rfl

theorem Reached.expForm {r : Result ExpForm ts}
    (h : Reached ctx.machine whole ts (Grammar.exp :: σ))
    (hr : Parser.take ctx expStarters ExpForm.ofToken? ts = r) :
    Outcome (fun r => tokens ts = .keyword r.1.keyword :: tokens r.2.1 ∧
        Reached ctx.machine whole r.2.1 (r.1.tail ++ σ))
      (FirstFault ctx.machine ctx.eof whole) r :=
  h.form (F := ExpForm.all) rfl ExpForm.mem_all ExpForm.ofToken?_eq_some hr

def StmForm.keyword : StmForm → Keyword
  | .seq => .seq
  | .label => .label
  | .jump => .jump
  | .cjump => .cjump
  | .move => .move
  | .exp => .exp

/-- The symbols behind the keyword of a statement. -/
def StmForm.tail : StmForm → List Sym
  | .seq => [Grammar.lparen, Grammar.stm, Grammar.comma, Grammar.stm, Grammar.rparen]
  | .label => [Grammar.label]
  | .jump => [Grammar.lparen, Grammar.exp, .nonterminal .labels, Grammar.rparen]
  | .cjump => [Grammar.lparen, .nonterminal .relOp, Grammar.comma, Grammar.exp, Grammar.comma,
      Grammar.exp, Grammar.comma, Grammar.label, Grammar.comma, Grammar.label, Grammar.rparen]
  | .move => [Grammar.lparen, Grammar.exp, Grammar.comma, Grammar.exp, Grammar.rparen]
  | .exp => [Grammar.lparen, Grammar.exp, Grammar.rparen]

def StmForm.all : List StmForm := [.seq, .label, .jump, .cjump, .move, .exp]

theorem StmForm.mem_all (f : StmForm) : f ∈ all := by
  cases f <;> simp [all]

theorem StmForm.ofToken?_eq_some {t : Token} {f : StmForm} :
    ofToken? t = some f ↔ t = .keyword f.keyword := by
  constructor
  · intro h
    unfold ofToken? at h
    split at h <;> cases h <;> rfl
  · rintro rfl
    cases f <;> rfl

/-- The parser stands before a statement: its keyword tells what else it reads. -/
def BeforeStm (ctx : Context) (whole ts : List Located) (σ : List Sym) : Prop :=
  ∀ r, Parser.take ctx stmStarters StmForm.ofToken? ts = r →
    Outcome (fun r => tokens ts = .keyword r.1.keyword :: tokens r.2.1 ∧
        Reached ctx.machine whole r.2.1 (r.1.tail ++ σ))
      (FirstFault ctx.machine ctx.eof whole) r

theorem Reached.beforeStm (h : Reached ctx.machine whole ts (Grammar.stm :: σ)) :
    BeforeStm ctx whole ts σ :=
  fun _ => h.form (F := StmForm.all) rfl StmForm.mem_all StmForm.ofToken?_eq_some

/-! ## Expressions and statements -/

/-- What the parts of the parser for trees do before some tokens. -/
structure ReadsTrees (ctx : Context) (whole ts : List Located) : Prop where
  exp {σ : List Sym} {follow : List Terminal}
    (h : Reached ctx.machine whole ts (Grammar.exp :: σ)) (hfollow : Follows follow σ) :
    Right ctx whole ts σ (Exp.Derives ctx.machine) (Parser.exp ctx follow ts)
  arguments {σ : List Sym}
    (h : Reached ctx.machine whole ts (.nonterminal .arguments :: Grammar.rparen :: σ)) :
    Right ctx whole ts σ (Closed (Exp.DerivesAll ctx.machine)) (Parser.arguments ctx ts)
  stm {σ : List Sym} (h : BeforeStm ctx whole ts σ) :
    Right ctx whole ts σ (Stm.Derives ctx.machine) (Parser.stm ctx ts)

theorem follows_comma (σ : List Sym) : Follows [comma] (Grammar.comma :: σ) where
  expects := expects_terminal _ σ
  not_expands_nil := Grammar.not_expands_terminal_nil
  marks := by simp

theorem follows_rparen (σ : List Sym) : Follows [rparen] (Grammar.rparen :: σ) where
  expects := expects_terminal _ σ
  not_expands_nil := Grammar.not_expands_terminal_nil
  marks := by simp

theorem follows_arguments (σ : List Sym) :
    Follows [comma, rparen] (.nonterminal .arguments :: Grammar.rparen :: σ) where
  expects x := by simp [begins_nonterminal_iff, bodies, comma, rparen, or_comm]
  not_expands_nil := by simp [expands_nonterminal_iff, bodies]
  marks := by simp

theorem follows_labels (σ : List Sym) :
    Follows [comma, rparen] (.nonterminal .labels :: Grammar.rparen :: σ) where
  expects x := by simp [begins_nonterminal_iff, bodies, comma, rparen, or_comm]
  not_expands_nil := by simp [expands_nonterminal_iff, bodies]
  marks := by simp

theorem ReadsTrees.exp_of_rest {ts : List Located}
    (ih : ∀ rest, rest.length < ts.length → ReadsTrees ctx whole rest)
    (h : Reached ctx.machine whole ts (Grammar.exp :: σ)) (hfollow : Follows follow σ) :
    Right ctx whole ts σ (Exp.Derives ctx.machine) (Parser.exp ctx follow ts) := by
  rw [Parser.exp]
  split
  case h_1 htake => exact h.expForm htake
  -- the keyword is read: what follows reads the symbols of its tail one after another
  case h_2 r htake =>
    -- `BINOP(op, left, right)`
    obtain ⟨r₀, h₀⟩ := r
    obtain ⟨hts, hr₀⟩ := h.expForm htake
    refine (Reached.punctuation hr₀).bind_token fun _ r₁ h₁ hts₁ hr₁ => ?_
    refine (Reached.binOp hr₁).bind_token fun op r₂ h₂ hts₂ hr₂ => ?_
    refine (Reached.punctuation hr₂).bind_token fun _ r₃ h₃ hts₃ hr₃ => ?_
    have hlt₃ : r₃.length < ts.length := h₃.trans (h₂.trans (h₁.trans h₀))
    refine ((ih r₃ hlt₃).exp hr₃ (follows_comma _)).bind ?_
    rintro ⟨left, r₄, h₄⟩ ⟨us₁, hts₄, hleft, hr₄⟩
    refine (Reached.punctuation hr₄).bind_token fun _ r₅ h₅ hts₅ hr₅ => ?_
    refine ((ih r₅ (h₅.trans (h₄.trans hlt₃))).exp hr₅ (follows_rparen _)).bind ?_
    rintro ⟨right, r₆, h₆⟩ ⟨us₂, hts₆, hright, hr₆⟩
    refine (Reached.punctuation hr₆).bind_token fun _ r₇ h₇ hts₇ hr₇ => ?_
    refine ⟨_, ?_, .binop hleft hright, hr₇⟩
    simp_all [ExpForm.keyword]
  case h_3 r htake =>
    -- `MEM(address)`
    obtain ⟨r₀, h₀⟩ := r
    obtain ⟨hts, hr₀⟩ := h.expForm htake
    refine (Reached.punctuation hr₀).bind_token fun _ r₁ h₁ hts₁ hr₁ => ?_
    refine ((ih r₁ (h₁.trans h₀)).exp hr₁ (follows_rparen _)).bind ?_
    rintro ⟨address, r₂, h₂⟩ ⟨us, hts₂, haddress, hr₂⟩
    refine (Reached.punctuation hr₂).bind_token fun _ r₃ h₃ hts₃ hr₃ => ?_
    refine ⟨_, ?_, .mem haddress, hr₃⟩
    simp_all [ExpForm.keyword]
  case h_4 r htake =>
    -- `TEMP` with what names the temp
    obtain ⟨r₀, h₀⟩ := r
    obtain ⟨hts, hr₀⟩ := h.expForm htake
    refine (Reached.tempRef hr₀ hfollow).bind ?_
    rintro ⟨a, r₁, h₁⟩ ⟨_, hts₁, ⟨ref, rfl, href⟩, hr₁⟩
    refine ⟨_, ?_, .temp href, hr₁⟩
    simp_all [ExpForm.keyword]
  case h_5 r htake =>
    -- `ESEQ(s, e)`
    obtain ⟨r₀, h₀⟩ := r
    obtain ⟨hts, hr₀⟩ := h.expForm htake
    refine (Reached.punctuation hr₀).bind_token fun _ r₁ h₁ hts₁ hr₁ => ?_
    refine ((ih r₁ (h₁.trans h₀)).stm hr₁.beforeStm).bind ?_
    rintro ⟨s, r₂, h₂⟩ ⟨us₁, hts₂, hs, hr₂⟩
    refine (Reached.punctuation hr₂).bind_token fun _ r₃ h₃ hts₃ hr₃ => ?_
    refine ((ih r₃ (h₃.trans (h₂.trans (h₁.trans h₀)))).exp hr₃ (follows_rparen _)).bind ?_
    rintro ⟨e, r₄, h₄⟩ ⟨us₂, hts₄, he, hr₄⟩
    refine (Reached.punctuation hr₄).bind_token fun _ r₅ h₅ hts₅ hr₅ => ?_
    refine ⟨_, ?_, .eseq hs he, hr₅⟩
    simp_all [ExpForm.keyword]
  case h_6 r htake =>
    -- `NAME l`
    obtain ⟨r₀, h₀⟩ := r
    obtain ⟨hts, hr₀⟩ := h.expForm htake
    refine (Reached.label hr₀).bind_token fun l r₁ h₁ hts₁ hr₁ => ?_
    refine ⟨_, ?_, .name l, hr₁⟩
    simp_all [ExpForm.keyword]
  case h_7 r htake =>
    -- `CONST n`
    obtain ⟨r₀, h₀⟩ := r
    obtain ⟨hts, hr₀⟩ := h.expForm htake
    refine (Reached.number hr₀).bind_token fun n r₁ h₁ hts₁ hr₁ => ?_
    refine ⟨_, ?_, .const n, hr₁⟩
    simp_all [ExpForm.keyword]
  case h_8 r htake =>
    -- `CALL(callee, arg, …)`
    obtain ⟨r₀, h₀⟩ := r
    obtain ⟨hts, hr₀⟩ := h.expForm htake
    refine (Reached.punctuation hr₀).bind_token fun _ r₁ h₁ hts₁ hr₁ => ?_
    refine ((ih r₁ (h₁.trans h₀)).exp hr₁ (follows_arguments _)).bind ?_
    rintro ⟨callee, r₂, h₂⟩ ⟨us₁, hts₂, hcallee, hr₂⟩
    refine ((ih r₂ (h₂.trans (h₁.trans h₀))).arguments hr₂).bind ?_
    rintro ⟨args, r₃, h₃⟩ ⟨_, hts₃, ⟨us₂, rfl, hargs⟩, hr₃⟩
    refine ⟨_, ?_, .call hcallee hargs, hr₃⟩
    simp_all [ExpForm.keyword]

theorem ReadsTrees.arguments_of_rest {ts : List Located}
    (ih : ∀ rest, rest.length < ts.length → ReadsTrees ctx whole rest)
    (h : Reached ctx.machine whole ts (.nonterminal .arguments :: Grammar.rparen :: σ)) :
    Right ctx whole ts σ (Closed (Exp.DerivesAll ctx.machine)) (Parser.arguments ctx ts) := by
  rw [Parser.arguments]
  split
  · next htake => exact h.mark rfl mark_iff htake
  · next r htake =>
      obtain ⟨hts, hrest⟩ := h.mark rfl mark_iff htake
      exact ⟨[.punctuation .rparen], hts, ⟨[], rfl, .nil⟩, hrest⟩
  · next r htake =>
      obtain ⟨r₀, h₀⟩ := r
      obtain ⟨hts, hr₀⟩ := h.mark rfl mark_iff htake
      refine ((ih r₀ h₀).exp hr₀ (follows_arguments _)).bind ?_
      rintro ⟨e, r₁, h₁⟩ ⟨us, hts₁, he, hr₁⟩
      refine ((ih r₁ (h₁.trans h₀)).arguments hr₁).bind ?_
      rintro ⟨es, r₂, h₂⟩ ⟨_, hts₂, ⟨vs, rfl, hes⟩, hr₂⟩
      refine ⟨_, ?_, ⟨_, rfl, .cons he hes⟩, hr₂⟩
      simp_all

theorem ReadsTrees.stm_of_rest {ts : List Located}
    (ih : ∀ rest, rest.length < ts.length → ReadsTrees ctx whole rest)
    (h : BeforeStm ctx whole ts σ) :
    Right ctx whole ts σ (Stm.Derives ctx.machine) (Parser.stm ctx ts) := by
  rw [Parser.stm]
  split
  case h_1 htake => exact h _ htake
  -- the keyword is read: what follows reads the symbols of its tail one after another
  case h_2 r htake =>
    -- `SEQ(a, b)`
    obtain ⟨r₀, h₀⟩ := r
    obtain ⟨hts, hr₀⟩ := h _ htake
    refine (Reached.punctuation hr₀).bind_token fun _ r₁ h₁ hts₁ hr₁ => ?_
    refine ((ih r₁ (h₁.trans h₀)).stm hr₁.beforeStm).bind ?_
    rintro ⟨a, r₂, h₂⟩ ⟨us₁, hts₂, ha, hr₂⟩
    refine (Reached.punctuation hr₂).bind_token fun _ r₃ h₃ hts₃ hr₃ => ?_
    refine ((ih r₃ (h₃.trans (h₂.trans (h₁.trans h₀)))).stm hr₃.beforeStm).bind ?_
    rintro ⟨b, r₄, h₄⟩ ⟨us₂, hts₄, hb, hr₄⟩
    refine (Reached.punctuation hr₄).bind_token fun _ r₅ h₅ hts₅ hr₅ => ?_
    refine ⟨_, ?_, .seq ha hb, hr₅⟩
    simp_all [StmForm.keyword]
  case h_3 r htake =>
    -- `LABEL l`
    obtain ⟨r₀, h₀⟩ := r
    obtain ⟨hts, hr₀⟩ := h _ htake
    refine (Reached.label hr₀).bind_token fun l r₁ h₁ hts₁ hr₁ => ?_
    refine ⟨_, ?_, .label l, hr₁⟩
    simp_all [StmForm.keyword]
  case h_4 r htake =>
    -- `JUMP(e, target, …)`
    obtain ⟨r₀, h₀⟩ := r
    obtain ⟨hts, hr₀⟩ := h _ htake
    refine (Reached.punctuation hr₀).bind_token fun _ r₁ h₁ hts₁ hr₁ => ?_
    refine ((ih r₁ (h₁.trans h₀)).exp hr₁ (follows_labels _)).bind ?_
    rintro ⟨e, r₂, h₂⟩ ⟨us₁, hts₂, he, hr₂⟩
    refine (Reached.labels hr₂).bind ?_
    rintro ⟨targets, r₃, h₃⟩ ⟨_, hts₃, ⟨us₂, rfl, htargets⟩, hr₃⟩
    refine ⟨_, ?_, .jump he htargets, hr₃⟩
    simp_all [StmForm.keyword]
  case h_5 r htake =>
    -- `CJUMP(op, left, right, ifTrue, ifFalse)`
    obtain ⟨r₀, h₀⟩ := r
    obtain ⟨hts, hr₀⟩ := h _ htake
    refine (Reached.punctuation hr₀).bind_token fun _ r₁ h₁ hts₁ hr₁ => ?_
    refine (Reached.relOp hr₁).bind_token fun op r₂ h₂ hts₂ hr₂ => ?_
    refine (Reached.punctuation hr₂).bind_token fun _ r₃ h₃ hts₃ hr₃ => ?_
    have hlt₃ : r₃.length < ts.length := h₃.trans (h₂.trans (h₁.trans h₀))
    refine ((ih r₃ hlt₃).exp hr₃ (follows_comma _)).bind ?_
    rintro ⟨left, r₄, h₄⟩ ⟨us₁, hts₄, hleft, hr₄⟩
    refine (Reached.punctuation hr₄).bind_token fun _ r₅ h₅ hts₅ hr₅ => ?_
    refine ((ih r₅ (h₅.trans (h₄.trans hlt₃))).exp hr₅ (follows_comma _)).bind ?_
    rintro ⟨right, r₆, h₆⟩ ⟨us₂, hts₆, hright, hr₆⟩
    refine (Reached.punctuation hr₆).bind_token fun _ r₇ h₇ hts₇ hr₇ => ?_
    refine (Reached.label hr₇).bind_token fun ifTrue r₈ h₈ hts₈ hr₈ => ?_
    refine (Reached.punctuation hr₈).bind_token fun _ r₉ h₉ hts₉ hr₉ => ?_
    refine (Reached.label hr₉).bind_token fun ifFalse r₁₀ h₁₀ hts₁₀ hr₁₀ => ?_
    refine (Reached.punctuation hr₁₀).bind_token fun _ r₁₁ h₁₁ hts₁₁ hr₁₁ => ?_
    refine ⟨_, ?_, .cjump hleft hright, hr₁₁⟩
    simp_all [StmForm.keyword]
  case h_6 r htake =>
    -- `MOVE(d, s)`
    obtain ⟨r₀, h₀⟩ := r
    obtain ⟨hts, hr₀⟩ := h _ htake
    refine (Reached.punctuation hr₀).bind_token fun _ r₁ h₁ hts₁ hr₁ => ?_
    refine ((ih r₁ (h₁.trans h₀)).exp hr₁ (follows_comma _)).bind ?_
    rintro ⟨d, r₂, h₂⟩ ⟨us₁, hts₂, hd, hr₂⟩
    refine (Reached.punctuation hr₂).bind_token fun _ r₃ h₃ hts₃ hr₃ => ?_
    refine ((ih r₃ (h₃.trans (h₂.trans (h₁.trans h₀)))).exp hr₃ (follows_rparen _)).bind ?_
    rintro ⟨s, r₄, h₄⟩ ⟨us₂, hts₄, hs, hr₄⟩
    refine (Reached.punctuation hr₄).bind_token fun _ r₅ h₅ hts₅ hr₅ => ?_
    refine ⟨_, ?_, .move hd hs, hr₅⟩
    simp_all [StmForm.keyword]
  case h_7 r htake =>
    -- `EXP(e)`
    obtain ⟨r₀, h₀⟩ := r
    obtain ⟨hts, hr₀⟩ := h _ htake
    refine (Reached.punctuation hr₀).bind_token fun _ r₁ h₁ hts₁ hr₁ => ?_
    refine ((ih r₁ (h₁.trans h₀)).exp hr₁ (follows_rparen _)).bind ?_
    rintro ⟨e, r₂, h₂⟩ ⟨us, hts₂, he, hr₂⟩
    refine (Reached.punctuation hr₂).bind_token fun _ r₃ h₃ hts₃ hr₃ => ?_
    refine ⟨_, ?_, .exp he, hr₃⟩
    simp_all [StmForm.keyword]

theorem readsTrees (ctx : Context) (whole ts : List Located) : ReadsTrees ctx whole ts := by
  -- the parts call each other, each on fewer tokens than it was given
  induction hn : ts.length using Nat.strong_induction_on generalizing ts with
  | _ n ih =>
  subst hn
  have ih : ∀ rest, rest.length < ts.length → ReadsTrees ctx whole rest :=
    fun rest hlt => ih _ hlt rest rfl
  exact ⟨ReadsTrees.exp_of_rest ih, ReadsTrees.arguments_of_rest ih, ReadsTrees.stm_of_rest ih⟩

/-! ## Procedures -/

/-- A statement in front of further statements: any keyword but the brace begins one. -/
theorem Reached.beforeStm_of_isSome {t : Located}
    (h : Reached ctx.machine whole (t :: rest)
      (.nonterminal .statements :: Grammar.rbrace :: σ))
    (hform : (StmForm.ofToken? t.token).isSome) :
    BeforeStm ctx whole (t :: rest) (.nonterminal .statements :: Grammar.rbrace :: σ) := by
  rintro r rfl
  obtain ⟨f, hf⟩ := Option.isSome_iff_exists.1 hform
  have ht : t.token = .keyword f.keyword := StmForm.ofToken?_eq_some.1 hf
  simp only [Parser.take, hf]
  refine ⟨by simp [ht], h.step ?_ fun w => ?_⟩
  · exact not_misnames (by simp [ht, Token.terminal?]) (by simp [ht, Token.terminal?])
  · cases f <;> simp [ht, Token.terminal?, expands_nonterminal_iff, bodies, StmForm.keyword,
      StmForm.tail]

theorem expects_statements (σ : List Sym) :
    Expects (rbrace :: stmStarters) (.nonterminal .statements :: Grammar.rbrace :: σ) := by
  intro x
  simp [begins_nonterminal_iff, bodies, rbrace, stmStarters]

theorem Reached.body {ts : List Located}
    (h : Reached ctx.machine whole ts (.nonterminal .statements :: Grammar.rbrace :: σ)) :
    Right ctx whole ts σ
      (fun us ss => ∃ vs, us = vs ++ [.punctuation .rbrace] ∧ Stm.DerivesAll ctx.machine vs ss)
      (Parser.body ctx ts) := by
  induction hn : ts.length using Nat.strong_induction_on generalizing ts with
  | _ n ih =>
  subst hn
  have hend : ts = [] → ¬ Expands (.nonterminal .statements :: Grammar.rbrace :: σ) [] := by
    simp [expands_nonterminal_iff, bodies]
  cases ts with
  | nil =>
      rw [Parser.body]
      exact h.firstFault (expects_statements σ) hend (by simp)
  | cons t ts =>
      rw [Parser.body]
      split
      · next hbrace =>
          -- the brace ends the body
          have ht : t.token = .punctuation .rbrace := eq_punctuation hbrace
          refine ⟨[.punctuation .rbrace], by simp [ht], ⟨[], rfl, .nil⟩, h.step ?_ fun w => ?_⟩
          · exact not_misnames (by simp [ht, Token.terminal?]) (by simp [ht, Token.terminal?])
          · simp [ht, Token.terminal?, expands_nonterminal_iff, bodies]
      · next hbrace =>
          split
          · next hform =>
              -- neither the brace nor the keyword of a statement
              refine h.firstFault (expects_statements σ) hend ?_
              rintro _ ⟨⟩ x hx hterminal
              rcases List.mem_cons.1 hx with rfl | hx
              · exact hbrace hterminal
              · obtain ⟨f, -, rfl⟩ : ∃ f ∈ StmForm.all, .keyword f.keyword = x :=
                  List.mem_map.1 hx
                rw [eq_keyword hterminal, StmForm.ofToken?_eq_some.2 rfl] at hform
                cases hform
          · next hform =>
              -- a statement with the rest of the body behind it, which is shorter
              have hstm := h.beforeStm_of_isSome (by simpa [Option.isSome_iff_ne_none] using hform)
              refine ((readsTrees ctx whole (t :: ts)).stm hstm).bind ?_
              rintro ⟨s, r₁, h₁⟩ ⟨us, hts₁, hs, hr₁⟩
              refine (ih _ h₁ hr₁ rfl).bind ?_
              rintro ⟨ss, r₂, h₂⟩ ⟨_, hts₂, ⟨vs, rfl, hss⟩, hr₂⟩
              refine ⟨_, ?_, ⟨_, rfl, .cons hs hss⟩, hr₂⟩
              simp_all

theorem Reached.procedures {ts : List Located}
    (h : Reached ctx.machine whole ts [.nonterminal .program]) :
    Outcome (Procedure.DerivesAll ctx.machine (tokens ts))
      (FirstFault ctx.machine ctx.eof whole) (Parser.procedures ctx ts) := by
  induction hn : ts.length using Nat.strong_induction_on generalizing ts with
  | _ n ih =>
  subst hn
  cases ts with
  | nil =>
      rw [Parser.procedures]
      exact .nil
  | cons t ts =>
      rw [Parser.procedures]
      have hexpected : Expects [.keyword .proc] [.nonterminal .program] := by
        intro x
        simp [begins_nonterminal_iff, bodies]
      refine Outcome.bind (h.read (g := fun _ => [Grammar.label, Grammar.word .frame,
        Grammar.number, Grammar.lbrace, .nonterminal .statements, Grammar.rbrace,
        .nonterminal .program]) hexpected (by simp) ?_ ?_) ?_
      · intro u hu x hx hterminal
        obtain rfl := List.mem_singleton.1 hx
        simp [hterminal] at hu
      · intro u _ hu
        obtain rfl := eq_keyword (terminal_of_expect hu)
        simp [Token.terminal?, expands_nonterminal_iff, bodies]
      rintro ⟨_, r₀, h₀⟩ ⟨u, hts₀, hu, hr₀⟩
      obtain rfl := eq_keyword (terminal_of_expect hu)
      -- `proc name frame size { statements }`
      refine (Reached.label hr₀).bind_token fun name r₁ h₁ hts₁ hr₁ => ?_
      refine (Reached.keyword hr₁).bind_token fun _ r₂ h₂ hts₂ hr₂ => ?_
      refine (Reached.number hr₂).bind_token fun size r₃ h₃ hts₃ hr₃ => ?_
      refine (Reached.punctuation hr₃).bind_token fun _ r₄ h₄ hts₄ hr₄ => ?_
      refine (Reached.body hr₄).bind ?_
      rintro ⟨ss, r₅, h₅⟩ ⟨_, hts₅, ⟨us, rfl, hss⟩, hr₅⟩
      have hlt : r₅.length < (t :: ts).length :=
        h₅.trans (h₄.trans (h₃.trans (h₂.trans (h₁.trans h₀))))
      refine (ih _ hlt hr₅ rfl).bind ?_
      intro ps hps
      have htokens : tokens (t :: ts) = (.keyword .proc :: .ident name :: .keyword .frame ::
          .number size :: .punctuation .lbrace :: us ++ [.punctuation .rbrace]) ++ tokens r₅ := by
        simp_all
      rw [htokens]
      exact .cons (.mk hss) hps

/-- `procedures` reads all tokens as procedures, or fails at the first one that nothing fits. -/
theorem procedures_outcome (ctx : Context) (ts : List Located) :
    Outcome (Procedure.DerivesAll ctx.machine (tokens ts)) (FirstFault ctx.machine ctx.eof ts)
      (Parser.procedures ctx ts) :=
  (Reached.start ctx.machine ts).procedures

end Parser

end TreeCompiler
