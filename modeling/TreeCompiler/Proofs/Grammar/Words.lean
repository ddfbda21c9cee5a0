import Mathlib.Data.List.TakeWhile
import TreeCompiler.Token.Lexer

/-!
# Words — the tokens of a text and their spellings

Offsets apart, a text has a list of tokens (`words`).  A token of a text is well-spelled
(`spelled_of_mem_words`), and the spelling of a well-spelled token reads as that token in front of
any text that does not go on with a character of a word (`words_spelling`).
-/

namespace TreeCompiler

namespace Token

/-! ## Tokens without offsets -/

/-- The tokens of a text, without their offsets. -/
def words (cs : List Char) : List Token := (scanFrom 0 cs).map Located.token

/-- What is left behind some of the rest of a text is shorter than the text. -/
theorem length_drop_lt (c : Char) (rest : List Char) (n : Nat) :
    (rest.drop n).length < (c :: rest).length :=
  Nat.lt_succ_of_le (List.drop_suffix n rest).length_le

theorem map_token_scanFrom (offset : Nat) (cs : List Char) :
    (scanFrom offset cs).map Located.token = words cs := by
  rw [words]
  generalize 0 = start
  induction hn : cs.length using Nat.strong_induction_on generalizing cs offset start with
  | _ n ih =>
  subst hn
  cases cs with
  | nil => simp [scanFrom]
  | cons c rest =>
      rw [scanFrom, scanFrom]
      split
      · exact ih _ (by simp) _ _ _ rfl
      · split
        · exact ih _ (length_drop_lt ..) _ _ _ rfl
        · simp only [List.map_cons, List.cons.injEq, true_and]
          exact ih _ (length_drop_lt ..) _ _ _ rfl

@[simp] theorem words_nil : words [] = [] := by
  simp [words, scanFrom]

theorem words_blank {c : Char} (h : isBlank c = true) (rest : List Char) :
    words (c :: rest) = words rest := by
  rw [words, scanFrom, if_pos h, map_token_scanFrom]

theorem words_comment (rest : List Char) :
    words ('#' :: rest) = words (rest.drop (rest.takeWhile (· ≠ '\n')).length) := by
  rw [words, scanFrom, if_neg (by decide), if_pos rfl, map_token_scanFrom]

theorem words_cons {c : Char} (hblank : isBlank c = false) (hcomment : c ≠ '#')
    (rest : List Char) :
    words (c :: rest) = (read c rest).1 :: words (rest.drop (read c rest).2) := by
  rw [words, scanFrom, if_neg (by simp [hblank]), if_neg hcomment, List.map_cons,
    map_token_scanFrom]

/-! ## Well-spelled tokens -/

/-- A letter or `_`, and more characters of words. -/
def isWord : List Char → Bool
  | [] => false
  | c :: more => isWordStart c && more.all isWordChar

/-- A text can spell the token. -/
def Spelled : Token → Prop
  | .ident name => isWord name.toList = true ∧ ofWord name.toList = .ident name
  | .temp n => n < tempBound
  | .register name => ∃ d more, name.toList = d :: more ∧ d.isAlpha = true ∧
      ∀ c ∈ more, c.isAlphanum = true
  | .number n => minConst ≤ n ∧ n ≤ maxConst
  | .error => False
  | _ => True

/-- The text does not go on with a character of a word. -/
def Delimited (cs : List Char) : Prop := ∀ c ∈ cs.head?, isWordChar c = false

theorem delimited_cons {c : Char} {cs : List Char} :
    Delimited (c :: cs) ↔ isWordChar c = false := by
  simp [Delimited]

@[simp] theorem delimited_nil : Delimited [] := by
  simp [Delimited]

@[simp] theorem delimited_lparen (cs : List Char) : Delimited ('(' :: cs) :=
  delimited_cons.2 (by decide)

@[simp] theorem delimited_rparen (cs : List Char) : Delimited (')' :: cs) :=
  delimited_cons.2 (by decide)

@[simp] theorem delimited_comma (cs : List Char) : Delimited (',' :: cs) :=
  delimited_cons.2 (by decide)

@[simp] theorem delimited_space (cs : List Char) : Delimited (' ' :: cs) :=
  delimited_cons.2 (by decide)

@[simp] theorem delimited_newline (cs : List Char) : Delimited ('\n' :: cs) :=
  delimited_cons.2 (by decide)

/-! ### Words with a fixed spelling -/

theorem isWord_reserved : ∀ p ∈ reserved, isWord p.1.toList = true := by
  decide

theorem ofWord_reserved : ∀ p ∈ reserved, ofWord p.1.toList = p.2 := by
  decide

theorem head_reserved : ∀ p ∈ reserved, p.1.toList.head? ≠ some 't' := by
  decide

/-- A token with a fixed spelling. -/
def IsFixed : Token → Prop
  | .keyword _ | .binOp _ | .relOp _ => True
  | _ => False

theorem isFixed_reserved {p : String × Token} (hp : p ∈ reserved) : p.2.IsFixed := by
  simp only [reserved, List.mem_append, List.mem_map] at hp
  rcases hp with (⟨_, _, rfl⟩ | ⟨_, _, rfl⟩) | ⟨_, _, rfl⟩ <;> trivial

theorem spelling_mem_reserved {t : Token} (h : t.IsFixed) : (t.spelling, t) ∈ reserved := by
  cases t with
  | keyword k => cases k <;> decide
  | binOp op => cases op <;> decide
  | relOp op => cases op <;> decide
  | _ => cases h

/-! ### Characters -/

theorem isWordChar_of_isWordStart {c : Char} (h : isWordStart c = true) : isWordChar c = true := by
  simp only [isWordStart, Bool.or_eq_true] at h
  rcases h with h | h <;> simp [isWordChar, Char.isAlphanum, h]

theorem isWordChar_of_isDigit {c : Char} (h : c.isDigit = true) : isWordChar c = true := by
  simp [isWordChar, Char.isAlphanum, h]

/-- A character of a word separates nothing. -/
theorem not_blank_of_isWordChar {c : Char} (h : isWordChar c = true) :
    isBlank c = false ∧ c ≠ '#' := by
  constructor
  · by_contra hblank
    simp only [isBlank, Bool.not_eq_false, decide_eq_true_eq, List.mem_cons, List.not_mem_nil,
      or_false] at hblank
    rcases hblank with rfl | rfl | rfl | rfl | rfl | rfl <;> revert h <;> decide
  · rintro rfl
    revert h
    decide

theorem le_toNat_of_isAlpha {c : Char} (h : c.isAlpha = true) : 65 ≤ c.toNat := by
  rcases Bool.or_eq_true_iff.1 h with hupper | hlower
  · exact UInt32.le_iff_toNat_le.1 (of_decide_eq_true hupper).1
  · have hle := UInt32.le_iff_toNat_le.1 (of_decide_eq_true (Bool.and_eq_true_iff.1 hlower).1)
    exact Nat.le_trans (by decide) hle

theorem toNat_of_isDigit {c : Char} (h : c.isDigit = true) : c.toNat ≤ 57 :=
  UInt32.le_iff_toNat_le.1 (of_decide_eq_true (Bool.and_eq_true_iff.1 h).2)

/-- Digits come before the letters. -/
theorem not_isWordStart_of_isDigit {c : Char} (h : c.isDigit = true) : isWordStart c = false := by
  have hdigit := toNat_of_isDigit h
  refine (Bool.or_eq_false_iff ..).2 ⟨Bool.eq_false_iff.2 fun halpha => ?_, decide_eq_false ?_⟩
  · have hletter := le_toNat_of_isAlpha halpha
    omega
  · rintro rfl
    revert hdigit
    decide

theorem takeWhile_append_of_delimited {p : Char → Bool} {cs rest : List Char}
    (hcs : ∀ c ∈ cs, p c = true) (hp : ∀ c, p c = true → isWordChar c = true)
    (hrest : Delimited rest) : (cs ++ rest).takeWhile p = cs := by
  rw [List.takeWhile_append_of_pos hcs]
  cases rest with
  | nil => simp
  | cons d rest =>
      have hd : p d = false := by
        by_contra hd
        have := hp d (by simpa using hd)
        have := hrest d rfl
        simp_all
      simp [hd]

/-! ## Spellings read back -/

theorem words_of_read {t : Token} {c : Char} {m rest : List Char} (hblank : isBlank c = false)
    (hcomment : c ≠ '#') (hread : read c (m ++ rest) = (t, m.length)) :
    words (c :: m ++ rest) = t :: words rest := by
  rw [List.cons_append, words_cons hblank hcomment, hread, List.drop_left]

theorem isWordChar_of_isWord {cs : List Char} (h : isWord cs = true) :
    ∀ c ∈ cs, isWordChar c = true := by
  cases cs with
  | nil => cases h
  | cons c more =>
      rw [isWord, Bool.and_eq_true] at h
      exact List.forall_mem_cons.2 ⟨isWordChar_of_isWordStart h.1, List.all_eq_true.1 h.2⟩

/-- A word reads as its token. -/
theorem words_word {cs rest : List Char} (hcs : isWord cs = true) (hrest : Delimited rest) :
    words (cs ++ rest) = ofWord cs :: words rest := by
  cases cs with
  | nil => cases hcs
  | cons c more =>
      obtain ⟨hstart, hmore⟩ : isWordStart c = true ∧ more.all isWordChar = true := by
        simpa [isWord] using hcs
      obtain ⟨hblank, hcomment⟩ := not_blank_of_isWordChar (isWordChar_of_isWordStart hstart)
      refine words_of_read hblank hcomment ?_
      rw [read.eq_def, if_pos hstart,
        takeWhile_append_of_delimited (List.all_eq_true.1 hmore) (fun _ h => h) hrest]

theorem words_fixed {t : Token} {rest : List Char} (ht : t.IsFixed) (hrest : Delimited rest) :
    words (t.spelling.toList ++ rest) = t :: words rest := by
  have hmem := spelling_mem_reserved ht
  rw [words_word (isWord_reserved _ hmem) hrest, ofWord_reserved _ hmem]

/-! ### Decimal numbers -/

theorem digitsValue_toDigits (n : Nat) : digitsValue (Nat.toDigits 10 n) = n := by
  rw [digitsValue]
  have h := Nat.ofDigitChars_ten_toDigits (n := n)
  rw [Nat.ofDigitChars_eq_foldl] at h
  exact h

theorem isDigit_toDigits {n : Nat} : ∀ c ∈ Nat.toDigits 10 n, c.isDigit = true :=
  fun _ hc => Nat.isDigit_of_mem_toDigits (b := 10) (by decide) (by decide) hc

theorem toList_toString (n : Nat) : (toString n).toList = Nat.toDigits 10 n := by
  rw [Nat.toString_eq_ofList_toDigits, String.toList_ofList]

/-- No reserved word begins with a small `t`. -/
theorem lookup_reserved_temp (ds : List Char) :
    reserved.lookup (String.ofList ('t' :: ds)) = none := by
  rw [List.lookup_eq_none_iff]
  intro p hp
  refine bne_iff_ne.2 fun heq => head_reserved p hp ?_
  rw [← heq, String.toList_ofList, List.head?_cons]

theorem ofWord_temp {d : Char} {ds : List Char} (h : ∀ c ∈ d :: ds, c.isDigit = true) :
    ofWord ('t' :: d :: ds) = ofTempDigits (d :: ds) := by
  simp only [ofWord, lookup_reserved_temp, List.all_eq_true.2 h, if_true]

theorem words_temp {n : Nat} {rest : List Char} (hn : n < tempBound) (hrest : Delimited rest) :
    words ((Token.temp n).spelling.toList ++ rest) = .temp n :: words rest := by
  have hspelling : (Token.temp n).spelling.toList = 't' :: Nat.toDigits 10 n := by
    rw [spelling, String.toList_append, toList_toString]
    rfl
  have hword : isWord ('t' :: Nat.toDigits 10 n) = true := by
    simp only [isWord, Bool.and_eq_true, List.all_eq_true]
    exact ⟨by decide, fun c hc => isWordChar_of_isDigit (isDigit_toDigits c hc)⟩
  have hread : ofWord ('t' :: Nat.toDigits 10 n) = ofTempDigits (Nat.toDigits 10 n) := by
    have hdigits := isDigit_toDigits (n := n)
    obtain ⟨d, ds, hds⟩ := List.exists_cons_of_ne_nil (Nat.toDigits_ne_nil (b := 10) (n := n))
    rw [hds] at hdigits ⊢
    exact ofWord_temp hdigits
  rw [hspelling, words_word hword hrest, hread, ofTempDigits, digitsValue_toDigits, if_pos hn]

theorem read_digits {c : Char} {more rest : List Char} (hc : c.isDigit = true)
    (hmore : ∀ d ∈ more, d.isDigit = true) (hrest : Delimited rest) :
    read c (more ++ rest) = (ofNumber (digitsValue (c :: more)), more.length) := by
  rw [read.eq_def, if_neg (by simp [not_isWordStart_of_isDigit hc]), if_pos hc,
    takeWhile_append_of_delimited hmore (fun _ => isWordChar_of_isDigit) hrest]

theorem read_minus {more rest : List Char} (hne : more ≠ [])
    (hmore : ∀ d ∈ more, d.isDigit = true) (hrest : Delimited rest) :
    read '-' (more ++ rest) = (ofNumber (-(digitsValue more)), more.length) := by
  rw [read.eq_def, if_neg (by decide), if_neg (by decide), if_pos rfl,
    takeWhile_append_of_delimited hmore (fun _ => isWordChar_of_isDigit) hrest, if_neg hne]

theorem words_number {n : Int} {rest : List Char} (hn : minConst ≤ n ∧ n ≤ maxConst)
    (hrest : Delimited rest) :
    words ((Token.number n).spelling.toList ++ rest) = .number n :: words rest := by
  cases n with
  | ofNat n =>
      obtain ⟨d, ds, hds⟩ := List.exists_cons_of_ne_nil (Nat.toDigits_ne_nil (b := 10) (n := n))
      have hspelling : (Token.number (.ofNat n)).spelling.toList = d :: ds := by
        rw [← hds, ← toList_toString]
        rfl
      have hdigits : ∀ c ∈ d :: ds, c.isDigit = true := hds ▸ isDigit_toDigits
      have hd : d.isDigit = true := hdigits d List.mem_cons_self
      obtain ⟨hblank, hcomment⟩ := not_blank_of_isWordChar (isWordChar_of_isDigit hd)
      rw [hspelling]
      refine words_of_read hblank hcomment ?_
      rw [read_digits hd (fun c hc => hdigits c (List.mem_cons_of_mem d hc)) hrest, ← hds,
        digitsValue_toDigits]
      exact congrArg (·, ds.length) (if_pos hn)
  | negSucc n =>
      have hspelling : (Token.number (.negSucc n)).spelling.toList =
          '-' :: Nat.toDigits 10 (n + 1) := by
        have htext : (Token.number (.negSucc n)).spelling = "-" ++ toString (n + 1) := rfl
        rw [htext, String.toList_append, toList_toString]
        rfl
      rw [hspelling]
      refine words_of_read (by decide) (by decide) ?_
      rw [read_minus Nat.toDigits_ne_nil isDigit_toDigits hrest, digitsValue_toDigits]
      exact congrArg (·, (Nat.toDigits 10 (n + 1)).length) (if_pos hn)

/-! ### Registers and punctuation -/

theorem words_register {name : String} {rest : List Char} (hname : (Token.register name).Spelled)
    (hrest : Delimited rest) :
    words ((Token.register name).spelling.toList ++ rest) = .register name :: words rest := by
  obtain ⟨d, more, htext, hd, hmore⟩ := hname
  have hspelling : (Token.register name).spelling.toList = '%' :: d :: more := by
    rw [spelling, String.toList_append, htext]
    rfl
  have hname : String.ofList (d :: more) = name := by
    rw [← htext, String.ofList_toList]
  have htake : (more ++ rest).takeWhile Char.isAlphanum = more :=
    takeWhile_append_of_delimited hmore (fun c hc => by simp [isWordChar, hc]) hrest
  rw [hspelling]
  refine words_of_read (by decide) (by decide) ?_
  rw [read.eq_def, if_neg (by decide), if_neg (by decide), if_neg (by decide), if_pos rfl]
  simp only [List.cons_append, hd, if_true, htake, hname]

theorem words_punctuation (p : Punctuation) (rest : List Char) :
    words (p.spelling.toList ++ rest) = .punctuation p :: words rest := by
  cases p <;> exact words_of_read (m := []) (by decide) (by decide) rfl

@[simp] theorem words_lparen (rest : List Char) :
    words ('(' :: rest) = .punctuation .lparen :: words rest := words_punctuation .lparen rest

@[simp] theorem words_rparen (rest : List Char) :
    words (')' :: rest) = .punctuation .rparen :: words rest := words_punctuation .rparen rest

@[simp] theorem words_lbrace (rest : List Char) :
    words ('{' :: rest) = .punctuation .lbrace :: words rest := words_punctuation .lbrace rest

@[simp] theorem words_rbrace (rest : List Char) :
    words ('}' :: rest) = .punctuation .rbrace :: words rest := words_punctuation .rbrace rest

@[simp] theorem words_comma (rest : List Char) :
    words (',' :: rest) = .punctuation .comma :: words rest := words_punctuation .comma rest

@[simp] theorem words_space (rest : List Char) : words (' ' :: rest) = words rest :=
  words_blank (by decide) rest

@[simp] theorem words_newline (rest : List Char) : words ('\n' :: rest) = words rest :=
  words_blank (by decide) rest

/-- The spelling of a token reads as the token. -/
theorem words_spelling {t : Token} {rest : List Char} (ht : t.Spelled) (hrest : Delimited rest) :
    words (t.spelling.toList ++ rest) = t :: words rest := by
  cases t with
  | ident name => rw [spelling, words_word ht.1 hrest, ht.2]
  | temp n => exact words_temp ht hrest
  | register name => exact words_register ht hrest
  | number n => exact words_number ht hrest
  | punctuation p => exact words_punctuation p rest
  | error => cases ht
  | _ => exact words_fixed trivial hrest

/-! ## Tokens of a text are well-spelled -/

theorem ofWord_cases (cs : List Char) :
    (ofWord cs).IsFixed ∨ (∃ ds, ofWord cs = ofTempDigits ds) ∨
      ofWord cs = .ident (String.ofList cs) := by
  rw [ofWord.eq_def]
  cases hlookup : reserved.lookup (String.ofList cs) with
  | some t =>
      obtain ⟨l, r, hreserved, -⟩ := List.lookup_eq_some_iff.1 hlookup
      have hmem : (String.ofList cs, t) ∈ reserved := by simp [hreserved]
      exact .inl (isFixed_reserved hmem)
  | none =>
      dsimp only
      split
      · split
        · exact .inr (.inl ⟨_, rfl⟩)
        · exact .inr (.inr rfl)
      · exact .inr (.inr rfl)

theorem spelled_ofWord {cs : List Char} (hcs : isWord cs = true) (hne : ofWord cs ≠ .error) :
    (ofWord cs).Spelled := by
  rcases ofWord_cases cs with hfixed | ⟨ds, hds⟩ | hident
  · generalize ofWord cs = t at hfixed
    cases t <;> trivial
  · rw [hds, ofTempDigits] at hne ⊢
    split
    · next hlt => exact hlt
    · next hlt => exact absurd (if_neg hlt) hne
  · rw [hident]
    refine ⟨?_, ?_⟩
    · rwa [String.toList_ofList]
    · rwa [String.toList_ofList]

theorem spelled_ofNumber {n : Int} (hne : ofNumber n ≠ .error) : (ofNumber n).Spelled := by
  rw [ofNumber] at hne ⊢
  split
  · next hn => exact hn
  · next hn => exact absurd (if_neg hn) hne

theorem spelled_read {c : Char} {rest : List Char} {t : Token} {n : Nat}
    (h : read c rest = (t, n)) (hne : t ≠ .error) : t.Spelled := by
  -- by the first character: a word, a number, a number with a sign, a register, or punctuation
  rw [read.eq_def] at h
  split at h
  · next hstart =>
      obtain ⟨rfl, -⟩ := Prod.mk.inj h
      refine spelled_ofWord ?_ hne
      simp only [isWord, hstart, Bool.true_and, List.all_eq_true]
      exact fun d hd => List.mem_takeWhile_imp hd
  split at h
  · obtain ⟨rfl, -⟩ := Prod.mk.inj h
    exact spelled_ofNumber hne
  split at h
  · by_cases hdigits : rest.takeWhile Char.isDigit = []
    · rw [if_pos hdigits] at h
      exact absurd (Prod.mk.inj h).1.symm hne
    · rw [if_neg hdigits] at h
      obtain ⟨rfl, -⟩ := Prod.mk.inj h
      exact spelled_ofNumber hne
  split at h
  · split at h
    · next d more =>
        split at h
        · next hd =>
            obtain ⟨rfl, -⟩ := Prod.mk.inj h
            refine ⟨d, _, String.toList_ofList, hd, fun c hc => ?_⟩
            exact List.mem_takeWhile_imp hc
        · exact absurd (Prod.mk.inj h).1.symm hne
    · exact absurd (Prod.mk.inj h).1.symm hne
  split at h
  · obtain ⟨rfl, -⟩ := Prod.mk.inj h
    trivial
  · exact absurd (Prod.mk.inj h).1.symm hne

/-- The tokens of a text are well-spelled, but for the error tokens. -/
theorem spelled_of_mem_words {cs : List Char} {t : Token} (ht : t ∈ words cs) (hne : t ≠ .error) :
    t.Spelled := by
  induction hn : cs.length using Nat.strong_induction_on generalizing cs with
  | _ n ih =>
  subst hn
  cases cs with
  | nil => simp at ht
  | cons c rest =>
      by_cases hblank : isBlank c = true
      · rw [words_blank hblank] at ht
        exact ih _ (by simp) ht rfl
      · by_cases hcomment : c = '#'
        · subst hcomment
          rw [words_comment] at ht
          exact ih _ (length_drop_lt ..) ht rfl
        · rw [words_cons (by simpa using hblank) hcomment] at ht
          rcases List.mem_cons.1 ht with rfl | ht
          · exact spelled_read rfl hne
          · exact ih _ (length_drop_lt ..) ht rfl

end Token

end TreeCompiler
