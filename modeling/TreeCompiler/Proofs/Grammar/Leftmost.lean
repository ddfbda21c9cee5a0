import TreeCompiler.Proofs.Grammar.Basic

/-!
# Leftmost — words of the grammar read from the left

A list of symbols expands to a list of kinds of tokens when each terminal is read off and each
nonterminal in front is replaced (`Expands`).  So what can still come is again a list of symbols: it
expands to the rest of the word.  The words of the grammar are what the initial nonterminal expands
to (`sentence_iff`), and every list of symbols expands to something (`exists_expands`), so that
tokens can be continued as long as symbols are left for them.
-/

namespace TreeCompiler

namespace Grammar

/-- Kinds of tokens; an error token is of no kind. -/
abbrev kinds (ts : List Token) : List (Option Terminal) := ts.map Token.terminal?

/-- Symbols expand to kinds of tokens, from left to right. -/
inductive Expands : List Sym → List (Option Terminal) → Prop
  | nil : Expands [] []
  | read {x : Terminal} {σ : List Sym} {w : List (Option Terminal)} (h : Expands σ w) :
      Expands (.terminal x :: σ) (some x :: w)
  | replace {n : Nonterminal} {b σ : List Sym} {w : List (Option Terminal)}
      (hbody : b ∈ bodies n) (h : Expands (b ++ σ) w) : Expands (.nonterminal n :: σ) w

variable {σ τ : List Sym} {v w : List (Option Terminal)} {x : Terminal} {y : Option Terminal}
  {n : Nonterminal}

/-! ## One symbol -/

@[simp] theorem expands_nil_iff : Expands [] w ↔ w = [] := by
  constructor
  · intro h
    cases h
    rfl
  · rintro rfl
    exact .nil

@[simp] theorem expands_terminal_cons_iff :
    Expands (.terminal x :: σ) (y :: w) ↔ y = some x ∧ Expands σ w := by
  constructor
  · intro h
    cases h with
    | read h => exact ⟨rfl, h⟩
  · rintro ⟨rfl, h⟩
    exact .read h

@[simp] theorem not_expands_terminal_nil : ¬ Expands (.terminal x :: σ) [] := nofun

theorem expands_nonterminal_iff :
    Expands (.nonterminal n :: σ) w ↔ ∃ body ∈ bodies n, Expands (body ++ σ) w := by
  constructor
  · intro h
    cases h with
    | replace hbody h => exact ⟨_, hbody, h⟩
  · rintro ⟨body, hbody, h⟩
    exact .replace hbody h

/-! ## Every list of symbols expands -/

/-- The shortest expansion of a nonterminal. -/
def shortest : Nonterminal → List Terminal
  | .program => []
  | .procedure => [.keyword .proc, .ident, .keyword .frame, .number, .punctuation .lbrace,
      .punctuation .rbrace]
  | .statements => []
  | .statement => [.keyword .label, .ident]
  | .labels => []
  | .expression => [.keyword .const, .number]
  | .arguments => []
  | .reference => [.temp]
  | .binOp => [.binOp .plus]
  | .relOp => [.relOp .eq]

theorem expands_shortest (n : Nonterminal) (h : Expands σ w) :
    Expands (.nonterminal n :: σ) ((shortest n).map some ++ w) := by
  cases n <;>
    simp [expands_nonterminal_iff, bodies, shortest, BinOp.all, RelOp.all, h]

theorem exists_expands (σ : List Sym) : ∃ w, Expands σ w := by
  induction σ with
  | nil => exact ⟨[], .nil⟩
  | cons s σ ih =>
      rcases ih with ⟨w, hw⟩
      cases s with
      | terminal x => exact ⟨some x :: w, .read hw⟩
      | nonterminal n => exact ⟨_, expands_shortest n hw⟩

/-! ## Words of the grammar -/

/-- Expansions of two lists of symbols, one behind the other. -/
theorem expands_append_iff :
    Expands (σ ++ τ) w ↔ ∃ u v, w = u ++ v ∧ Expands σ u ∧ Expands τ v := by
  constructor
  · -- each step works on the first symbol, which is one of the second list only if the first is
    -- done
    intro h
    generalize hρ : σ ++ τ = ρ at h
    induction h generalizing σ with
    | nil =>
        obtain ⟨rfl, rfl⟩ := List.append_eq_nil_iff.1 hρ
        exact ⟨[], [], rfl, .nil, .nil⟩
    | @read x ρ w h ih =>
        cases σ with
        | nil =>
            obtain rfl : τ = _ := hρ
            exact ⟨[], _, rfl, .nil, .read h⟩
        | cons s σ =>
            obtain ⟨rfl, hrest⟩ := List.cons_eq_cons.1 hρ
            obtain ⟨u, v, rfl, hu, hv⟩ := ih hrest
            exact ⟨some x :: u, v, rfl, .read hu, hv⟩
    | @replace n body ρ w hbody h ih =>
        cases σ with
        | nil =>
            obtain rfl : τ = _ := hρ
            exact ⟨[], _, rfl, .nil, .replace hbody h⟩
        | cons s σ =>
            obtain ⟨rfl, rfl⟩ := List.cons_eq_cons.1 hρ
            obtain ⟨u, v, rfl, hu, hv⟩ := ih (List.append_assoc body σ τ)
            exact ⟨u, v, rfl, .replace hbody hu, hv⟩
  · rintro ⟨u, v, rfl, hu, hv⟩
    induction hu with
    | nil => exact hv
    | read _ ih => exact .read ih
    | replace hbody _ ih => exact .replace hbody (by rwa [List.append_assoc] at ih)

/-- There are tokens of every kind. -/
theorem exists_token (x : Terminal) : ∃ t : Token, t.terminal? = some x := by
  cases x with
  | ident => exact ⟨.ident "", rfl⟩
  | temp => exact ⟨.temp 0, rfl⟩
  | register => exact ⟨.register "", rfl⟩
  | number => exact ⟨.number 0, rfl⟩
  | punctuation p => exact ⟨.punctuation p, rfl⟩
  | keyword k => exact ⟨.keyword k, rfl⟩
  | binOp op => exact ⟨.binOp op, rfl⟩
  | relOp op => exact ⟨.relOp op, rfl⟩

/-- Symbols expand to kinds of tokens only, and tokens can be given for these. -/
theorem Expands.exists_tokens (h : Expands σ w) : ∃ ts : List Token, kinds ts = w := by
  induction h with
  | nil => exact ⟨[], rfl⟩
  | @read x σ w _ ih =>
      obtain ⟨ts, rfl⟩ := ih
      obtain ⟨t, ht⟩ := exists_token x
      exact ⟨t :: ts, by simp [ht]⟩
  | replace _ _ ih => exact ih

/-- What symbols expand to is derived from them. -/
theorem Expands.derives (h : Expands σ w) :
    ∃ u : List Terminal, w = u.map some ∧ grammar.Derives σ (u.map Symbol.terminal) := by
  induction h with
  | nil => exact ⟨[], rfl, .refl _⟩
  | @read x σ w _ ih =>
      obtain ⟨u, rfl, hu⟩ := ih
      exact ⟨x :: u, rfl, hu.append_left [.terminal x]⟩
  | @replace n body σ w hbody _ ih =>
      obtain ⟨u, rfl, hu⟩ := ih
      refine ⟨u, rfl, hu.head ⟨⟨n, body⟩, List.mem_toFinset.2 (mem_rules.2 hbody), .head σ⟩⟩

/-- A word that is derived from symbols is what they expand to. -/
theorem expands_of_derives {u : List Terminal}
    (h : grammar.Derives σ (u.map Symbol.terminal)) : Expands σ (u.map some) := by
  induction h using Relation.ReflTransGen.head_induction_on with
  | refl =>
      induction u with
      | nil => exact .nil
      | cons x u ih => exact .read ih
  | head hstep _ ih =>
      obtain ⟨r, hr, hrewrites⟩ := hstep
      obtain ⟨p, q, rfl, rfl⟩ := hrewrites.exists_parts
      have hbody : r.output ∈ bodies r.input := mem_rules.1 (List.mem_toFinset.1 hr)
      rw [List.append_assoc, expands_append_iff] at ih ⊢
      obtain ⟨v, w, hvw, hv, hw⟩ := ih
      exact ⟨v, w, hvw, hv, .replace hbody hw⟩

theorem sentence_iff {ts : List Token} :
    Sentence ts ↔ Expands [.nonterminal .program] (kinds ts) := by
  constructor
  · rintro ⟨u, hu, hkinds⟩
    rw [kinds, hkinds]
    exact expands_of_derives hu
  · intro h
    obtain ⟨u, hkinds, hu⟩ := h.derives
    exact ⟨u, hu, hkinds⟩

/-! ## What can come next -/

/-- Symbols that expand to something with the terminal in front. -/
def Begins (σ : List Sym) (x : Terminal) : Prop := ∃ w, Expands σ (some x :: w)

@[simp] theorem not_begins_nil : ¬ Begins [] x := by
  rintro ⟨w, hw⟩
  cases hw

@[simp] theorem begins_terminal_cons_iff {z : Terminal} :
    Begins (.terminal z :: σ) x ↔ x = z := by
  constructor
  · rintro ⟨w, hw⟩
    exact Option.some.inj (expands_terminal_cons_iff.1 hw).1
  · rintro rfl
    obtain ⟨w, hw⟩ := exists_expands σ
    exact ⟨w, .read hw⟩

theorem begins_nonterminal_iff :
    Begins (.nonterminal n :: σ) x ↔ ∃ body ∈ bodies n, Begins (body ++ σ) x := by
  constructor
  · rintro ⟨w, hw⟩
    obtain ⟨body, hbody, h⟩ := expands_nonterminal_iff.1 hw
    exact ⟨body, hbody, w, h⟩
  · rintro ⟨body, hbody, w, hw⟩
    exact ⟨w, .replace hbody hw⟩

/-- Behind the tokens, a sentence goes on with what the symbols expand to. -/
def Continues (ts : List Token) (σ : List Sym) : Prop :=
  ∀ w, Expands [.nonterminal .program] (kinds ts ++ w) ↔ Expands σ w

theorem continues_nil : Continues [] [.nonterminal .program] := fun _ => Iff.rfl

namespace Continues

variable {ts : List Token} {t : Token}

/-- One more token of a kind that `σ` begins with. -/
theorem snoc (h : Continues ts σ) (hread : ∀ w, Expands σ (t.terminal? :: w) ↔ Expands τ w) :
    Continues (ts ++ [t]) τ := by
  intro w
  have hkinds : kinds (ts ++ [t]) ++ w = kinds ts ++ t.terminal? :: w := by simp
  rw [hkinds, h, hread]

theorem sentence_iff (h : Continues ts σ) : Sentence ts ↔ Expands σ [] := by
  rw [Grammar.sentence_iff, ← h, List.append_nil]

theorem viable (h : Continues ts σ) : Viable ts := by
  obtain ⟨w, hw⟩ := exists_expands σ
  obtain ⟨us, rfl⟩ := hw.exists_tokens
  refine ⟨us, Grammar.sentence_iff.2 ?_⟩
  rw [kinds, List.map_append]
  exact (h _).2 hw

theorem viable_snoc_iff (h : Continues ts σ) :
    Viable (ts ++ [t]) ↔ ∃ x, t.terminal? = some x ∧ Begins σ x := by
  constructor
  · rintro ⟨us, hus⟩
    have hkinds : kinds (ts ++ [t] ++ us) = kinds ts ++ t.terminal? :: kinds us := by simp
    rw [Grammar.sentence_iff, hkinds, h] at hus
    obtain ⟨_, hu, -⟩ := hus.derives
    obtain ⟨x, _, -, hx, -⟩ := List.map_eq_cons_iff.1 hu.symm
    rw [← hx] at hus
    exact ⟨x, hx.symm, kinds us, hus⟩
  · rintro ⟨x, hx, w, hw⟩
    obtain ⟨_, hus⟩ := hw.exists_tokens
    obtain ⟨u, us, rfl, -, rfl⟩ := List.map_eq_cons_iff.1 hus
    refine ⟨us, Grammar.sentence_iff.2 ?_⟩
    have hkinds : kinds (ts ++ [t] ++ us) = kinds ts ++ some x :: kinds us := by simp [hx]
    rw [hkinds]
    exact (h _).2 hw

theorem canFollow_iff (h : Continues ts σ) : CanFollow ts x ↔ Begins σ x := by
  constructor
  · rintro ⟨t, ht, hviable⟩
    obtain ⟨y, hy, hbegins⟩ := h.viable_snoc_iff.1 hviable
    obtain rfl : x = y := Option.some.inj (ht.symm.trans hy)
    exact hbegins
  · intro hbegins
    obtain ⟨t, ht⟩ := exists_token x
    exact ⟨t, ht, h.viable_snoc_iff.2 ⟨x, ht, hbegins⟩⟩

end Continues

end Grammar

end TreeCompiler
