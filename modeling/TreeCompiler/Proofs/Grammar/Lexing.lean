import Mathlib.Algebra.GroupWithZero.Nat
import Mathlib.Algebra.Ring.Int.Defs
import Mathlib.Data.String.Basic
import TreeCompiler.Proofs.Grammar.Words

/-!
# Lexing — the spans of tokens, and texts written out of tokens

A text is a sequence of lexemes with gaps between them (`layout_scanFrom`): a lexeme alone reads as
its token, and a gap is made of blanks and comments.  So the spans of the tokens lie behind each
other on character boundaries, and nothing but gaps is left out (`Covered`).

The other way, well-formed tokens are read back from any text that spells them with a gap between
each two of them (`words_written`), since behind each of them stands a character that no word goes
on with.
-/

namespace TreeCompiler

namespace Token

/-! ## Gaps -/

/-- Text between two tokens: blanks, and comments that end with their line. -/
inductive Gap : List Char → Prop
  | nil : Gap []
  | blank {c : Char} {cs : List Char} : isBlank c = true → Gap cs → Gap (c :: cs)
  | comment {body cs : List Char} : '\n' ∉ body → Gap cs → Gap ('#' :: (body ++ '\n' :: cs))

/-- Text behind the last token: there a comment may also run to the end of the text. -/
def Closing (cs : List Char) : Prop :=
  Gap cs ∨ ∃ gap body, cs = gap ++ '#' :: body ∧ Gap gap ∧ '\n' ∉ body

theorem Gap.append {cs ds : List Char} (hcs : Gap cs) (hds : Gap ds) : Gap (cs ++ ds) := by
  induction hcs with
  | nil => exact hds
  | blank hc _ ih => exact .blank hc ih
  | comment hbody _ ih =>
      rw [List.cons_append, List.append_assoc, List.cons_append]
      exact .comment hbody ih

theorem Gap.append_closing {cs ds : List Char} (hcs : Gap cs) (hds : Closing ds) :
    Closing (cs ++ ds) := by
  rcases hds with hds | ⟨gap, body, rfl, hgap, hbody⟩
  · exact .inl (hcs.append hds)
  · exact .inr ⟨cs ++ gap, body, (List.append_assoc ..).symm, hcs.append hgap, hbody⟩

theorem takeWhile_line {body rest : List Char} (hbody : '\n' ∉ body) :
    (body ++ '\n' :: rest).takeWhile (· ≠ '\n') = body := by
  rw [List.takeWhile_append_of_pos fun c hc => by
    simpa using fun h : c = '\n' => hbody (h ▸ hc)]
  simp

theorem takeWhile_last_line {body : List Char} (hbody : '\n' ∉ body) :
    body.takeWhile (· ≠ '\n') = body :=
  List.takeWhile_eq_self_iff.2 fun c hc => by simpa using fun h : c = '\n' => hbody (h ▸ hc)

/-- A gap holds no token. -/
theorem words_gap {gap : List Char} (hgap : Gap gap) (rest : List Char) :
    words (gap ++ rest) = words rest := by
  induction hgap with
  | nil => rfl
  | blank hc _ ih => rw [List.cons_append, words_blank hc, ih]
  | comment hbody _ ih =>
      rw [List.cons_append, List.append_assoc, List.cons_append, words_comment,
        takeWhile_line hbody, List.drop_left, words_newline, ih]

theorem words_closing {cs : List Char} (hcs : Closing cs) : words cs = [] := by
  rcases hcs with hgap | ⟨gap, body, rfl, hgap, hbody⟩
  · have h := words_gap hgap []
    rwa [List.append_nil, words_nil] at h
  · rw [words_gap hgap, words_comment, takeWhile_last_line hbody, List.drop_length, words_nil]

/-! ## Lexemes

What is read depends on the characters that it takes only. -/

theorem take_takeWhile (p : Char → Bool) (cs : List Char) :
    cs.take (cs.takeWhile p).length = cs.takeWhile p :=
  (List.prefix_iff_eq_take.1 (List.takeWhile_prefix p)).symm

theorem takeWhile_take_takeWhile (p : Char → Bool) (cs : List Char) :
    (cs.take (cs.takeWhile p).length).takeWhile p = cs.takeWhile p := by
  rw [take_takeWhile, List.takeWhile_idem]

theorem read_take {c : Char} {rest : List Char} {t : Token} {n : Nat} (h : read c rest = (t, n)) :
    read c (rest.take n) = (t, n) := by
  -- one case for each test of the first character, in the order of the tests
  rw [read.eq_def] at h ⊢
  split at h
  · next hstart =>
      obtain ⟨rfl, rfl⟩ := Prod.mk.inj h
      rw [if_pos hstart, takeWhile_take_takeWhile]
  rename_i hstart
  rw [if_neg hstart]
  split at h
  · next hdigit =>
      obtain ⟨rfl, rfl⟩ := Prod.mk.inj h
      rw [if_pos hdigit, takeWhile_take_takeWhile]
  rename_i hdigit
  rw [if_neg hdigit]
  split at h
  · next hminus =>
      rw [if_pos hminus]
      dsimp only at h ⊢
      split at h
      · obtain ⟨rfl, rfl⟩ := Prod.mk.inj h
        rfl
      · next hne =>
          obtain ⟨rfl, rfl⟩ := Prod.mk.inj h
          rw [takeWhile_take_takeWhile, if_neg hne]
  rename_i hminus
  rw [if_neg hminus]
  split at h
  · next hregister =>
      rw [if_pos hregister]
      split at h
      · next d more =>
          -- the character behind the first one is taken too, if it is one of a name
          split at h
          · next hd =>
              obtain ⟨rfl, rfl⟩ := Prod.mk.inj h
              simp only [List.length_cons, List.take_succ_cons, hd, if_true,
                takeWhile_take_takeWhile]
          · obtain ⟨rfl, rfl⟩ := Prod.mk.inj h
            rfl
      · obtain ⟨rfl, rfl⟩ := Prod.mk.inj h
        rfl
  · next hregister =>
      rw [if_neg hregister]
      exact h

/-- The characters that a token takes read as this token alone. -/
theorem words_lexeme {c : Char} (hblank : isBlank c = false) (hcomment : c ≠ '#')
    (rest : List Char) : words (c :: rest.take (read c rest).2) = [(read c rest).1] := by
  have hread : read c (rest.take (read c rest).2) = read c rest := read_take rfl
  rw [words_cons hblank hcomment, hread, List.drop_eq_nil_of_le (List.length_take_le _ _),
    words_nil]

/-! ## Layouts -/

@[simp] theorem byteLength_nil : byteLength [] = 0 := rfl

theorem byteLength_eq_sum (cs : List Char) : byteLength cs = (cs.map Char.utf8Size).sum := by
  rw [byteLength, List.sum_eq_foldl, List.foldl_map]

@[simp] theorem byteLength_cons (c : Char) (cs : List Char) :
    byteLength (c :: cs) = c.utf8Size + byteLength cs := by
  simp [byteLength_eq_sum]

@[simp] theorem byteLength_append (cs ds : List Char) :
    byteLength (cs ++ ds) = byteLength cs + byteLength ds := by
  simp [byteLength_eq_sum]

theorem byteLength_pos {cs : List Char} (h : cs ≠ []) : 0 < byteLength cs := by
  cases cs with
  | nil => exact absurd rfl h
  | cons c cs =>
      rw [byteLength_cons]
      exact Nat.add_pos_left c.utf8Size_pos _

/-- A text that starts at a byte offset is the lexemes of some tokens with gaps between them. -/
inductive Layout : Nat → List Char → List Located → Prop
  | last {offset : Nat} {cs : List Char} : Closing cs → Layout offset cs []
  | token {offset : Nat} {gap lexeme rest : List Char} {t : Located} {ts : List Located} :
      Gap gap → words lexeme = [t.token] → t.start = offset + byteLength gap →
      t.stop = t.start + byteLength lexeme → Layout t.stop rest ts →
      Layout offset (gap ++ (lexeme ++ rest)) (t :: ts)

theorem Layout.gap_append {offset : Nat} {gap cs : List Char} {ts : List Located} (hgap : Gap gap)
    (h : Layout (offset + byteLength gap) cs ts) : Layout offset (gap ++ cs) ts := by
  cases h with
  | last hcs => exact .last (hgap.append_closing hcs)
  | token hgap' hlexeme hstart hstop hrest =>
      rw [← List.append_assoc]
      refine .token (hgap.append hgap') hlexeme ?_ hstop hrest
      rw [hstart, byteLength_append, Nat.add_assoc]

/-- A comment ends with its line, or with the text. -/
theorem rest_of_comment (rest : List Char) :
    (∃ cs, rest = rest.takeWhile (· ≠ '\n') ++ '\n' :: cs) ∨
      rest.takeWhile (· ≠ '\n') = rest := by
  cases hrest : rest.dropWhile (· ≠ '\n') with
  | nil =>
      have h := List.takeWhile_append_dropWhile (p := (· ≠ '\n')) (l := rest)
      rw [hrest, List.append_nil] at h
      exact .inr h
  | cons c cs =>
      have hc := List.head?_dropWhile_not (p := (· ≠ '\n')) (l := rest)
      rw [hrest] at hc
      have hc : c = '\n' := by simpa using hc
      refine .inl ⟨cs, ?_⟩
      have h := List.takeWhile_append_dropWhile (p := (· ≠ '\n')) (l := rest)
      rw [hrest, hc] at h
      exact h.symm

theorem newline_not_mem_comment (rest : List Char) : '\n' ∉ rest.takeWhile (· ≠ '\n') :=
  fun h => absurd (List.mem_takeWhile_imp h) (by decide)

/-- The tokens of a text are laid out in it. -/
theorem layout_scanFrom (offset : Nat) (cs : List Char) :
    Layout offset cs (scanFrom offset cs) := by
  induction hn : cs.length using Nat.strong_induction_on generalizing offset cs with
  | _ n ih =>
  subst hn
  cases cs with
  | nil =>
      rw [scanFrom]
      exact .last (.inl .nil)
  | cons c rest =>
      rw [scanFrom]
      split
      · next hblank =>
          -- a blank is a gap of its own
          have h := ih rest.length (by simp) (offset + c.utf8Size) rest rfl
          have hgap : Gap [c] := .blank hblank .nil
          exact Layout.gap_append hgap (by simpa using h)
      · split
        · next hcomment =>
            -- a comment is a gap with the rest of its line, or closes the text
            subst hcomment
            dsimp only
            have hbody := newline_not_mem_comment rest
            generalize hline : rest.takeWhile (· ≠ '\n') = body at hbody ⊢
            rcases rest_of_comment rest with ⟨cs, hrest⟩ | hrest
            · -- the newline behind the comment belongs to the same gap
              rw [hline] at hrest
              subst hrest
              rw [List.drop_left, scanFrom, if_pos (by decide)]
              have h := ih cs.length (by simp; omega)
                (offset + byteLength ('#' :: body) + '\n'.utf8Size) cs rfl
              have hgap : Gap ('#' :: (body ++ ['\n'])) := .comment hbody .nil
              have hsize : offset + byteLength ('#' :: (body ++ ['\n'])) =
                  offset + byteLength ('#' :: body) + '\n'.utf8Size := by
                simp [Nat.add_assoc]
              rw [← hsize] at h
              have hlayout := Layout.gap_append hgap h
              rwa [hsize, List.cons_append, List.append_assoc] at hlayout
            · rw [← hline, hrest, List.drop_length, scanFrom]
              refine .last (.inr ⟨[], rest, rfl, .nil, ?_⟩)
              rwa [← hrest, hline]
        · next hblank hcomment =>
            -- a token follows at once; what is read takes at least its first character
            have hblank : isBlank c = false := by simpa using hblank
            have hrest : (rest.drop (read c rest).2).length < (c :: rest).length :=
              length_drop_lt ..
            have htext : c :: rest =
                [] ++ ((c :: rest.take (read c rest).2) ++ rest.drop (read c rest).2) := by
              simp
            rw [htext]
            refine .token .nil (words_lexeme hblank hcomment rest) rfl rfl ?_
            exact ih _ hrest _ _ rfl

/-! ## Spans -/

/-- The text holds this part from byte `a` up to byte `b`, both on a boundary of characters. -/
def IsPart (text : String) (a b : Nat) (part : String) : Prop :=
  ∃ before after, text = before ++ part ++ after ∧ before.utf8ByteSize = a ∧
    (before ++ part).utf8ByteSize = b

/-- Where the last of some tokens stops; the start of the text if there is none. -/
def lastStop : Nat → List Located → Nat
  | offset, [] => offset
  | _, t :: ts => lastStop t.stop ts

/-- Where the first of some tokens starts; the end of the text if there is none. -/
def firstStart (final : Nat) : List Located → Nat
  | [] => final
  | t :: _ => t.start

/-- The spans of the tokens are non-empty parts of the text that lie behind each other, each reads
as its token, and between them, in front of the first and behind the last there are only gaps. -/
structure Covered (text : String) (ts : List Located) : Prop where
  lexeme : ∀ t ∈ ts, t.start < t.stop ∧ ∃ lexeme, IsPart text t.start t.stop lexeme ∧
    (scan lexeme).map Located.token = [t.token]
  ordered : ts.Pairwise fun t u => t.stop ≤ u.start
  gap : ∀ l r, ts = l ++ r → ∃ gap,
    IsPart text (lastStop 0 l) (firstStart text.utf8ByteSize r) gap ∧
    if r = [] then Closing gap.toList else Gap gap.toList

theorem utf8ByteSize_eq_byteLength (cs : List Char) :
    (String.ofList cs).utf8ByteSize = byteLength cs := by
  rw [String.utf8ByteSize_ofList]
  induction cs with
  | nil => rfl
  | cons c cs ih => rw [String.utf8Len_cons, ih, byteLength_cons, Nat.add_comm]

theorem isPart_ofList (front part rest : List Char) :
    IsPart (String.ofList (front ++ part ++ rest)) (byteLength front)
      (byteLength front + byteLength part) (String.ofList part) := by
  refine ⟨String.ofList front, String.ofList rest, ?_, utf8ByteSize_eq_byteLength front, ?_⟩
  · rw [← String.ofList_append, ← String.ofList_append]
  · rw [← String.ofList_append, utf8ByteSize_eq_byteLength, byteLength_append]

section Layout

variable {offset : Nat} {cs : List Char} {ts : List Located}

theorem Layout.lexeme (h : Layout offset cs ts) (front : List Char)
    (hfront : byteLength front = offset) {t : Located} (ht : t ∈ ts) :
    t.start < t.stop ∧ ∃ lexeme, IsPart (String.ofList (front ++ cs)) t.start t.stop lexeme ∧
      (scan lexeme).map Located.token = [t.token] := by
  induction h generalizing front with
  | last => cases ht
  | @token offset gap lexeme rest u ts hgap hlexeme hstart hstop hrest ih =>
      have hfront' : byteLength (front ++ gap) = u.start := by
        rw [byteLength_append, hfront, hstart]
      rcases List.mem_cons.1 ht with rfl | ht
      · have hne : lexeme ≠ [] := by
          rintro rfl
          simp at hlexeme
        refine ⟨hstop ▸ Nat.lt_add_of_pos_right (byteLength_pos hne), String.ofList lexeme, ?_, ?_⟩
        · have hpart := isPart_ofList (front ++ gap) lexeme rest
          rwa [hfront', ← hstop, List.append_assoc, List.append_assoc] at hpart
        · rw [scan, String.toList_ofList]
          exact hlexeme
      · have h := ih (front ++ gap ++ lexeme) (by rw [byteLength_append, hfront', hstop]) ht
        simpa only [List.append_assoc] using h

theorem Layout.start_le (h : Layout offset cs ts) : ∀ t ∈ ts, offset ≤ t.start := by
  induction h with
  | last => simp
  | token _ _ hstart hstop _ ih =>
      refine List.forall_mem_cons.2 ⟨hstart ▸ Nat.le_add_right .., fun t ht => ?_⟩
      have := ih t ht
      omega

theorem Layout.ordered (h : Layout offset cs ts) : ts.Pairwise fun t u => t.stop ≤ u.start := by
  induction h with
  | last => exact .nil
  | token _ _ _ _ hrest ih => exact .cons hrest.start_le ih

/-- Wherever the tokens are cut in two, there is only a gap between the two parts. -/
theorem Layout.gap (h : Layout offset cs ts) (front : List Char)
    (hfront : byteLength front = offset) {l r : List Located} (hts : ts = l ++ r) :
    ∃ gap, IsPart (String.ofList (front ++ cs)) (lastStop offset l)
        (firstStart (byteLength (front ++ cs)) r) gap ∧
      if r = [] then Closing gap.toList else Gap gap.toList := by
  -- the front is what the layout has passed; the cut is before its next token, or behind it
  induction h generalizing front l with
  | @last offset cs hcs =>
      obtain ⟨rfl, rfl⟩ := List.append_eq_nil_iff.1 hts.symm
      refine ⟨String.ofList cs, ?_, ?_⟩
      · have hpart := isPart_ofList front cs []
        rwa [List.append_nil, ← byteLength_append, hfront] at hpart
      · rwa [if_pos rfl, String.toList_ofList]
  | @token offset gap lexeme rest u ts hgap hlexeme hstart hstop hrest ih =>
      cases l with
      | nil =>
          obtain rfl : u :: ts = r := hts
          refine ⟨String.ofList gap, ?_, ?_⟩
          · have hpart := isPart_ofList front gap (lexeme ++ rest)
            rwa [hfront, ← hstart, List.append_assoc] at hpart
          · rwa [if_neg (List.cons_ne_nil u ts), String.toList_ofList]
      | cons v l =>
          obtain ⟨rfl, hrest⟩ : u = v ∧ ts = l ++ r := List.cons.inj hts
          have h := ih (front ++ gap ++ lexeme) (by
            rw [byteLength_append, byteLength_append, hfront, hstop, hstart]) hrest
          simpa only [List.append_assoc, lastStop] using h

end Layout

theorem covered_scan (text : String) : Covered text (scan text) := by
  have hlayout : Layout 0 text.toList (scan text) := layout_scanFrom 0 text.toList
  refine ⟨fun t ht => ?_, hlayout.ordered, fun l r hts => ?_⟩
  · simpa using hlayout.lexeme [] rfl ht
  · have hsize : byteLength text.toList = text.utf8ByteSize := by
      rw [← utf8ByteSize_eq_byteLength, String.ofList_toList]
    simpa [hsize] using hlayout.gap [] rfl hts

/-! ## Texts written out of tokens -/

/-- A token that a text can spell: an identifier is a word that is neither reserved nor `t` with
digits, a register is named by a letter and more letters or digits, a number fits 64 bits and a temp
32 bits. -/
def Wellformed : Token → Prop
  | .ident name => (∃ c more, name.toList = c :: more ∧ isWordStart c = true ∧
        ∀ d ∈ more, isWordChar d = true) ∧
      (∀ p ∈ reserved, p.1 ≠ name) ∧
      ∀ ds, ds ≠ [] → (∀ d ∈ ds, d.isDigit = true) → name.toList ≠ 't' :: ds
  | .temp n => n < 2 ^ 32
  | .register name => ∃ c more, name.toList = c :: more ∧ c.isAlpha = true ∧
      ∀ d ∈ more, d.isAlphanum = true
  | .number n => -2 ^ 63 ≤ n ∧ n < 2 ^ 63
  | .error => False
  | _ => True

/-- A word that is neither reserved nor a temp is an identifier. -/
theorem ofWord_eq_ident {cs : List Char} (hreserved : ∀ p ∈ reserved, p.1 ≠ String.ofList cs)
    (htemp : ∀ ds, ds ≠ [] → (∀ d ∈ ds, d.isDigit = true) → cs ≠ 't' :: ds) :
    ofWord cs = .ident (String.ofList cs) := by
  have hlookup : reserved.lookup (String.ofList cs) = none := by
    rw [List.lookup_eq_none_iff]
    exact fun p hp => bne_iff_ne.2 (hreserved p hp).symm
  rw [ofWord.eq_def, hlookup]
  dsimp only
  split
  · next d ds =>
      rw [if_neg]
      exact fun hdigits => htemp (d :: ds) (List.cons_ne_nil d ds) (List.all_eq_true.1 hdigits) rfl
  · rfl

theorem Wellformed.spelled {t : Token} (ht : t.Wellformed) : t.Spelled := by
  cases t with
  | ident name =>
      obtain ⟨⟨c, more, hname, hc, hmore⟩, hreserved, htemp⟩ := ht
      refine ⟨?_, ?_⟩
      · rw [hname, isWord, hc, Bool.true_and, List.all_eq_true]
        exact hmore
      · have h := ofWord_eq_ident (by rwa [String.ofList_toList]) htemp
        rwa [String.ofList_toList] at h
  | temp n => exact ht
  | register name => exact ht
  | number n =>
      have hn : -2 ^ 63 ≤ n ∧ n < 2 ^ 63 := ht
      show -0x8000000000000000 ≤ n ∧ n ≤ 0x7fffffffffffffff
      omega
  | error => exact ht
  | _ => trivial

/-- No word goes on with the first character of a gap. -/
theorem Gap.delimited {gap : List Char} (hgap : Gap gap) (hne : gap ≠ []) (rest : List Char) :
    Delimited (gap ++ rest) := by
  cases hgap with
  | nil => exact absurd rfl hne
  | @blank c _ hc _ =>
      refine delimited_cons.2 (Bool.eq_false_iff.2 fun hword => ?_)
      rw [(not_blank_of_isWordChar hword).1] at hc
      cases hc
  | comment => exact delimited_cons.2 (by decide)

theorem Closing.delimited {cs : List Char} (hcs : Closing cs) : Delimited cs := by
  rcases hcs with hgap | ⟨gap, body, rfl, hgap, -⟩
  · rcases eq_or_ne cs [] with rfl | hne
    · exact delimited_nil
    · simpa using hgap.delimited hne []
  · rcases eq_or_ne gap [] with rfl | hne
    · exact delimited_cons.2 (by decide)
    · exact hgap.delimited hne _

/-- Tokens spelled out, each behind some text, with more text behind the last. -/
def written (ps : List (List Char × Token)) (close : List Char) : List Char :=
  ps.flatMap (fun p => p.1 ++ p.2.spelling.toList) ++ close

theorem written_cons (p : List Char × Token) (ps : List (List Char × Token)) (close : List Char) :
    written (p :: ps) close = p.1 ++ (p.2.spelling.toList ++ written ps close) := by
  simp [written]

theorem delimited_written {ps : List (List Char × Token)} {close : List Char}
    (hgap : ∀ p ∈ ps, Gap p.1) (hne : ∀ p ∈ ps, p.1 ≠ []) (hclose : Closing close) :
    Delimited (written ps close) := by
  cases ps with
  | nil => exact hclose.delimited
  | cons p ps =>
      rw [written_cons]
      exact (hgap p List.mem_cons_self).delimited (hne p List.mem_cons_self) _

/-- Tokens that are spelled out with gaps between them are read back. -/
theorem words_written {ps : List (List Char × Token)} {close : List Char}
    (hgap : ∀ p ∈ ps, Gap p.1) (hne : ∀ p ∈ ps.tail, p.1 ≠ [])
    (htoken : ∀ p ∈ ps, p.2.Wellformed) (hclose : Closing close) :
    words (written ps close) = ps.map Prod.snd := by
  induction ps with
  | nil => exact words_closing hclose
  | cons p ps ih =>
      obtain ⟨hp, hgap⟩ := List.forall_mem_cons.1 hgap
      obtain ⟨ht, htoken⟩ := List.forall_mem_cons.1 htoken
      have hrest := delimited_written hgap hne hclose
      rw [written_cons, words_gap hp, words_spelling ht.spelled hrest, List.map_cons,
        ih hgap (fun q hq => hne q (List.mem_of_mem_tail hq)) htoken]

/-- Reading loses nothing and inverts spelling: the tokens of any text cover it but for gaps, and
well-formed tokens that are spelled out with gaps between them are read back. -/
theorem covered_scan_and_scan_written :
    (∀ text, Covered text (scan text)) ∧
    ∀ (ps : List (List Char × Token)) (close : List Char), (∀ p ∈ ps, Gap p.1) →
      (∀ p ∈ ps.tail, p.1 ≠ []) → (∀ p ∈ ps, p.2.Wellformed) → Closing close →
      (scan (String.ofList (written ps close))).map Located.token = ps.map Prod.snd := by
  refine ⟨covered_scan, fun ps close hgap hne htoken hclose => ?_⟩
  rw [scan, String.toList_ofList]
  exact words_written hgap hne htoken hclose

theorem covered_scan_and_scan_written_of_prefixes :
    Covered "t1x #MOVE\nt1 %t1-1 -" (scan "t1x #MOVE\nt1 %t1-1 -") ∧
    (scan (String.ofList (written [([], .ident "t1x"), ("#MOVE\n".toList, .temp 1),
      ("\t ".toList, .register "t1"), (" ".toList, .number (-1)),
      ("\n".toList, .keyword .move)] "# end".toList))).map Located.token =
      [.ident "t1x", .temp 1, .register "t1", .number (-1), .keyword .move] := by
  refine ⟨covered_scan_and_scan_written.1 _,
    covered_scan_and_scan_written.2 _ _ ?_ (by decide) ?_ ?_⟩
  · have hcomment : Gap ('#' :: ("MOVE".toList ++ ['\n'])) := .comment (by decide) .nil
    simp only [List.mem_cons, List.not_mem_nil, or_false, forall_eq_or_imp, forall_eq]
    exact ⟨.nil, hcomment, .blank (by decide) (.blank (by decide) .nil),
      .blank (by decide) .nil, .blank (by decide) .nil⟩
  · simp only [List.mem_cons, List.not_mem_nil, or_false, forall_eq_or_imp, forall_eq]
    refine ⟨⟨⟨'t', ['1', 'x'], by decide, by decide, List.all_eq_true.1 rfl⟩, by decide, ?_⟩, ?_,
      ?_, ?_, ?_⟩
    · rintro ds - hdigits hname
      obtain rfl : ['1', 'x'] = ds := (List.cons.inj hname).2
      exact absurd (hdigits 'x' (by decide)) (by decide)
    · show 1 < 2 ^ 32
      decide
    · exact ⟨'t', ['1'], by decide, by decide, List.all_eq_true.1 rfl⟩
    · show (-2 ^ 63 : Int) ≤ -1 ∧ (-1 : Int) < 2 ^ 63
      decide
    · trivial
  · exact .inr ⟨[], " end".toList, by decide, .nil, by decide⟩

end Token

end TreeCompiler
