import TreeCompiler.Machine.X86
import TreeCompiler.Proofs.Grammar.Acceptance
import TreeCompiler.Proofs.Grammar.Words
import TreeCompiler.Proofs.Trees
import TreeCompiler.Tree.Printer

/-!
# RoundTrip — printed trees read back

A printed tree reads as tokens that follow its constructors (`Exp.words_print`,
`Stm.words_print`, `Procedure.words_print`), as long as these tokens are well-spelled, which they
are for the trees of a text (`Procedure.printable_of_parseText`).  The tokens differ from those of
the text in the registers only, which are printed as temps by number.  So a tree without registers
is parsed again as itself, and one with registers is an error (`Procedure.parseText_print`).
-/

namespace TreeCompiler

open Token

/-! ## The tokens of a printed tree -/

section

open Punctuation

mutual

/-- The tokens that an expression is printed with. -/
def Exp.tokens : Exp → List Token
  | .binop op l r => keyword .binop :: punctuation lparen :: binOp op :: punctuation comma ::
      l.tokens ++ punctuation comma :: r.tokens ++ [punctuation rparen]
  | .mem a => keyword .mem :: punctuation lparen :: a.tokens ++ [punctuation rparen]
  | .temp t => [keyword .temp, temp t.id]
  | .eseq s e => keyword .eseq :: punctuation lparen :: s.tokens ++
      punctuation comma :: e.tokens ++ [punctuation rparen]
  | .name l => [keyword .name, ident l]
  | .const n => [keyword .const, number n]
  | .call f args => keyword .call :: punctuation lparen :: f.tokens ++ Exp.tokensAll args ++
      [punctuation rparen]

def Exp.tokensAll : List Exp → List Token
  | [] => []
  | e :: es => punctuation comma :: e.tokens ++ Exp.tokensAll es

/-- The tokens that a statement is printed with. -/
def Stm.tokens : Stm → List Token
  | .seq a b => keyword .seq :: punctuation lparen :: a.tokens ++ punctuation comma :: b.tokens ++
      [punctuation rparen]
  | .label l => [keyword .label, ident l]
  | .jump e ls => keyword .jump :: punctuation lparen :: e.tokens ++
      ls.flatMap (fun l => [punctuation comma, ident l]) ++ [punctuation rparen]
  | .cjump op l r t f => keyword .cjump :: punctuation lparen :: relOp op :: punctuation comma ::
      l.tokens ++ punctuation comma :: r.tokens ++
      [punctuation comma, ident t, punctuation comma, ident f, punctuation rparen]
  | .move d s => keyword .move :: punctuation lparen :: d.tokens ++ punctuation comma :: s.tokens ++
      [punctuation rparen]
  | .exp e => keyword .exp :: punctuation lparen :: e.tokens ++ [punctuation rparen]

end

/-- The tokens that a procedure is printed with. -/
def Procedure.tokens (p : Procedure) : List Token :=
  keyword .proc :: ident p.name :: keyword .frame :: number p.localsSize :: punctuation lbrace ::
    p.body.flatMap Stm.tokens ++ [punctuation rbrace]

end

/-! ## Printed text reads as these tokens -/

/-- Well-spelled, one and all. -/
abbrev AllSpelled (ts : List Token) : Prop := ∀ t ∈ ts, t.Spelled

theorem words_keyword (k : Keyword) {rest : List Char} (hrest : Delimited rest) :
    words (k.spelling.toList ++ rest) = .keyword k :: words rest :=
  words_fixed (t := .keyword k) trivial hrest

theorem words_binOp (op : BinOp) {rest : List Char} (hrest : Delimited rest) :
    words (op.name.toList ++ rest) = .binOp op :: words rest :=
  words_fixed (t := .binOp op) trivial hrest

theorem words_relOp (op : RelOp) {rest : List Char} (hrest : Delimited rest) :
    words (op.name.toList ++ rest) = .relOp op :: words rest :=
  words_fixed (t := .relOp op) trivial hrest

theorem words_ident {l : Label} {rest : List Char} (hl : (ident l).Spelled)
    (hrest : Delimited rest) : words (l.toList ++ rest) = .ident l :: words rest :=
  words_spelling hl hrest

/-- What follows the callee: a comma or the parenthesis. -/
theorem delimited_printArguments (es : List Exp) (rest : List Char) :
    Delimited ((Exp.printArguments es).toList ++ ')' :: rest) := by
  cases es <;> simp [Exp.printArguments]

theorem delimited_labels (ls : List Label) (rest : List Char) :
    Delimited ((ls.map (", " ++ ·)).flatMap String.toList ++ ')' :: rest) := by
  cases ls <;> simp

theorem words_labels {ls : List Label} {rest : List Char}
    (h : AllSpelled (ls.flatMap fun l => [punctuation .comma, ident l])) :
    words ((ls.map (", " ++ ·)).flatMap String.toList ++ ')' :: rest) =
      ls.flatMap (fun l => [punctuation .comma, ident l]) ++
        .punctuation .rparen :: words rest := by
  induction ls with
  | nil => simp
  | cons l ls ih =>
      have hl : (ident l).Spelled := h _ (by simp)
      have hls : AllSpelled (ls.flatMap fun l => [punctuation .comma, ident l]) :=
        fun t ht => h t (List.mem_append_right _ ht)
      have htext : ((l :: ls).map (", " ++ ·)).flatMap String.toList ++ ')' :: rest =
          ',' :: ' ' :: (l.toList ++
            ((ls.map (", " ++ ·)).flatMap String.toList ++ ')' :: rest)) := by
        simp
      rw [htext]
      simp [words_ident hl (delimited_labels ls rest), ih hls]

mutual

theorem Exp.words_print (e : Exp) {rest : List Char} (h : AllSpelled e.tokens)
    (hrest : Delimited rest) : words (e.print.toList ++ rest) = e.tokens ++ words rest := by
  -- the text is cut behind its keyword and behind each part, where a delimiter follows
  match e with
  | .binop op l r =>
      have hl : AllSpelled l.tokens := fun t ht => h t (by simp [Exp.tokens, ht])
      have hr : AllSpelled r.tokens := fun t ht => h t (by simp [Exp.tokens, ht])
      have htext : (Exp.binop op l r).print.toList ++ rest = Keyword.binop.spelling.toList ++
          '(' :: (op.name.toList ++ ',' :: ' ' :: (l.print.toList ++
            ',' :: ' ' :: (r.print.toList ++ ')' :: rest))) := by
        rw [Exp.print.eq_def]
        simp [Keyword.spelling]
      rw [htext]
      simp [words_keyword, words_binOp, l.words_print hl, r.words_print hr, Exp.tokens]
  | .mem a =>
      have ha : AllSpelled a.tokens := fun t ht => h t (by simp [Exp.tokens, ht])
      have htext : (Exp.mem a).print.toList ++ rest = Keyword.mem.spelling.toList ++
          '(' :: (a.print.toList ++ ')' :: rest) := by
        rw [Exp.print.eq_def]
        simp [Keyword.spelling]
      rw [htext]
      simp [words_keyword, a.words_print ha, Exp.tokens]
  | .temp t =>
      have ht : (Token.temp t.id).Spelled := h _ (by simp [Exp.tokens])
      have htext : (Exp.temp t).print.toList ++ rest = Keyword.temp.spelling.toList ++
          ' ' :: ((Token.temp t.id).spelling.toList ++ rest) := by
        rw [Exp.print.eq_def]
        simp [Keyword.spelling, Temp.display, Token.spelling]
      rw [htext]
      simp [words_keyword, words_spelling ht hrest, Exp.tokens]
  | .eseq s e =>
      have hs : AllSpelled s.tokens := fun t ht => h t (by simp [Exp.tokens, ht])
      have he : AllSpelled e.tokens := fun t ht => h t (by simp [Exp.tokens, ht])
      have htext : (Exp.eseq s e).print.toList ++ rest = Keyword.eseq.spelling.toList ++
          '(' :: (s.print.toList ++ ',' :: ' ' :: (e.print.toList ++ ')' :: rest)) := by
        rw [Exp.print.eq_def]
        simp [Keyword.spelling]
      rw [htext]
      simp [words_keyword, s.words_print hs, e.words_print he, Exp.tokens]
  | .name l =>
      have hl : (Token.ident l).Spelled := h _ (by simp [Exp.tokens])
      have htext : (Exp.name l).print.toList ++ rest = Keyword.name.spelling.toList ++
          ' ' :: (l.toList ++ rest) := by
        rw [Exp.print.eq_def]
        simp [Keyword.spelling]
      rw [htext]
      simp [words_keyword, words_ident hl hrest, Exp.tokens]
  | .const n =>
      have hn : (Token.number n).Spelled := h _ (by simp [Exp.tokens])
      have htext : (Exp.const n).print.toList ++ rest = Keyword.const.spelling.toList ++
          ' ' :: ((Token.number n).spelling.toList ++ rest) := by
        rw [Exp.print.eq_def]
        simp [Keyword.spelling, Token.spelling]
      rw [htext]
      simp [words_keyword, words_spelling hn hrest, Exp.tokens]
  | .call f args =>
      have hf : AllSpelled f.tokens := fun t ht => h t (by simp [Exp.tokens, ht])
      have hargs : AllSpelled (Exp.tokensAll args) := fun t ht => h t (by simp [Exp.tokens, ht])
      have htext : (Exp.call f args).print.toList ++ rest = Keyword.call.spelling.toList ++
          '(' :: (f.print.toList ++ ((Exp.printArguments args).toList ++ ')' :: rest)) := by
        rw [Exp.print.eq_def]
        simp [Keyword.spelling]
      rw [htext]
      simp [words_keyword, f.words_print hf (delimited_printArguments args rest),
        Exp.words_printArguments args hargs, Exp.tokens]

theorem Exp.words_printArguments (es : List Exp) {rest : List Char}
    (h : AllSpelled (Exp.tokensAll es)) :
    words ((Exp.printArguments es).toList ++ ')' :: rest) =
      Exp.tokensAll es ++ .punctuation .rparen :: words rest := by
  match es with
  | [] => simp [Exp.printArguments, Exp.tokensAll]
  | e :: es =>
      have he : AllSpelled e.tokens := fun t ht => h t (by simp [Exp.tokensAll, ht])
      have hes : AllSpelled (Exp.tokensAll es) := fun t ht => h t (by simp [Exp.tokensAll, ht])
      have htext : (Exp.printArguments (e :: es)).toList ++ ')' :: rest =
          ',' :: ' ' :: (e.print.toList ++ ((Exp.printArguments es).toList ++ ')' :: rest)) := by
        simp [Exp.printArguments]
      rw [htext]
      simp [e.words_print he (delimited_printArguments es rest), Exp.words_printArguments es hes,
        Exp.tokensAll]

theorem Stm.words_print (s : Stm) {rest : List Char} (h : AllSpelled s.tokens)
    (hrest : Delimited rest) : words (s.print.toList ++ rest) = s.tokens ++ words rest := by
  match s with
  | .seq a b =>
      have ha : AllSpelled a.tokens := fun t ht => h t (by simp [Stm.tokens, ht])
      have hb : AllSpelled b.tokens := fun t ht => h t (by simp [Stm.tokens, ht])
      have htext : (Stm.seq a b).print.toList ++ rest = Keyword.seq.spelling.toList ++
          '(' :: (a.print.toList ++ ',' :: ' ' :: (b.print.toList ++ ')' :: rest)) := by
        rw [Stm.print.eq_def]
        simp [Keyword.spelling]
      rw [htext]
      simp [words_keyword, a.words_print ha, b.words_print hb, Stm.tokens]
  | .label l =>
      have hl : (Token.ident l).Spelled := h _ (by simp [Stm.tokens])
      have htext : (Stm.label l).print.toList ++ rest = Keyword.label.spelling.toList ++
          ' ' :: (l.toList ++ rest) := by
        rw [Stm.print.eq_def]
        simp [Keyword.spelling]
      rw [htext]
      simp [words_keyword, words_ident hl hrest, Stm.tokens]
  | .jump e ls =>
      have he : AllSpelled e.tokens := fun t ht => h t (by simp [Stm.tokens, ht])
      have hls : AllSpelled (ls.flatMap fun l => [punctuation .comma, ident l]) :=
        fun t ht => h t (by simp only [Stm.tokens, List.mem_append]; exact .inl (.inr ht))
      have htext : (Stm.jump e ls).print.toList ++ rest = Keyword.jump.spelling.toList ++
          '(' :: (e.print.toList ++
            ((ls.map (", " ++ ·)).flatMap String.toList ++ ')' :: rest)) := by
        rw [Stm.print.eq_def]
        simp [Keyword.spelling]
      rw [htext]
      simp [words_keyword, e.words_print he (delimited_labels ls rest), words_labels hls,
        Stm.tokens]
  | .cjump op l r t f =>
      have hl : AllSpelled l.tokens := fun t ht => h t (by simp [Stm.tokens, ht])
      have hr : AllSpelled r.tokens := fun t ht => h t (by simp [Stm.tokens, ht])
      have ht : (Token.ident t).Spelled := h _ (by simp [Stm.tokens])
      have hf : (Token.ident f).Spelled := h _ (by simp [Stm.tokens])
      have htext : (Stm.cjump op l r t f).print.toList ++ rest = Keyword.cjump.spelling.toList ++
          '(' :: (op.name.toList ++ ',' :: ' ' :: (l.print.toList ++
            ',' :: ' ' :: (r.print.toList ++ ',' :: ' ' :: (t.toList ++
              ',' :: ' ' :: (f.toList ++ ')' :: rest))))) := by
        rw [Stm.print.eq_def]
        simp [Keyword.spelling]
      rw [htext]
      simp [words_keyword, words_relOp, l.words_print hl, r.words_print hr, words_ident ht,
        words_ident hf, Stm.tokens]
  | .move d s =>
      have hd : AllSpelled d.tokens := fun t ht => h t (by simp [Stm.tokens, ht])
      have hs : AllSpelled s.tokens := fun t ht => h t (by simp [Stm.tokens, ht])
      have htext : (Stm.move d s).print.toList ++ rest = Keyword.move.spelling.toList ++
          '(' :: (d.print.toList ++ ',' :: ' ' :: (s.print.toList ++ ')' :: rest)) := by
        rw [Stm.print.eq_def]
        simp [Keyword.spelling]
      rw [htext]
      simp [words_keyword, d.words_print hd, s.words_print hs, Stm.tokens]
  | .exp e =>
      have he : AllSpelled e.tokens := fun t ht => h t (by simp [Stm.tokens, ht])
      have htext : (Stm.exp e).print.toList ++ rest = Keyword.exp.spelling.toList ++
          '(' :: (e.print.toList ++ ')' :: rest) := by
        rw [Stm.print.eq_def]
        simp [Keyword.spelling]
      rw [htext]
      simp [words_keyword, e.words_print he, Stm.tokens]

end

theorem words_body {ss : List Stm} {rest : List Char} (h : AllSpelled (ss.flatMap Stm.tokens)) :
    words ((ss.map fun s => "  " ++ s.print ++ "\n").flatMap String.toList ++ rest) =
      ss.flatMap Stm.tokens ++ words rest := by
  induction ss with
  | nil => simp
  | cons s ss ih =>
      have hs : AllSpelled s.tokens := fun t ht => h t (by simp [ht])
      have hss : AllSpelled (ss.flatMap Stm.tokens) :=
        fun t ht => h t (List.mem_append_right _ ht)
      have htext : ((s :: ss).map fun s => "  " ++ s.print ++ "\n").flatMap String.toList ++ rest =
          ' ' :: ' ' :: (s.print.toList ++ '\n' ::
            ((ss.map fun s => "  " ++ s.print ++ "\n").flatMap String.toList ++ rest)) := by
        simp
      rw [htext]
      simp [s.words_print hs, ih hss]

/-- The text of a procedure reads as its tokens. -/
theorem Procedure.words_print {p : Procedure} (h : AllSpelled p.tokens) :
    words p.print.toList = p.tokens := by
  have hname : (Token.ident p.name).Spelled := h _ (by simp [Procedure.tokens])
  have hsize : (Token.number p.localsSize).Spelled := h _ (by simp [Procedure.tokens])
  have hbody : AllSpelled (p.body.flatMap Stm.tokens) :=
    fun t ht => h t (by simp only [Procedure.tokens, List.mem_append]; exact .inl (by simp_all))
  have htext : p.print.toList = Keyword.proc.spelling.toList ++ ' ' :: (p.name.toList ++
      ' ' :: (Keyword.frame.spelling.toList ++
        ' ' :: ((Token.number p.localsSize).spelling.toList ++ ' ' :: '{' :: '\n' ::
          ((p.body.map fun s => "  " ++ s.print ++ "\n").flatMap String.toList ++ ['}'])))) := by
    simp [Procedure.print, Keyword.spelling, Token.spelling]
  rw [htext]
  simp [words_keyword, words_ident hname, words_spelling hsize, words_body hbody, Procedure.tokens]

/-! ## The temps of a tree -/

mutual

/-- A printed expression has each of its temps as a number. -/
theorem Exp.mem_temps {t : Temp} : ∀ e : Exp, t ∈ e.temps ↔ Token.temp t.id ∈ e.tokens
  | .binop _ l r => by simp [Exp.temps, Exp.tokens, l.mem_temps, r.mem_temps]
  | .mem a => by simp [Exp.temps, Exp.tokens, a.mem_temps]
  | .temp u => by cases t; cases u; simp [Exp.temps, Exp.tokens]
  | .eseq s e => by simp [Exp.temps, Exp.tokens, s.mem_temps, e.mem_temps]
  | .name _ => by simp [Exp.temps, Exp.tokens]
  | .const _ => by simp [Exp.temps, Exp.tokens]
  | .call f args => by simp [Exp.temps, Exp.tokens, f.mem_temps, Exp.mem_tempsAll args]

theorem Exp.mem_tempsAll {t : Temp} :
    ∀ es : List Exp, t ∈ Exp.tempsAll es ↔ Token.temp t.id ∈ Exp.tokensAll es
  | [] => by simp [Exp.tempsAll, Exp.tokensAll]
  | e :: es => by simp [Exp.tempsAll, Exp.tokensAll, e.mem_temps, Exp.mem_tempsAll es]

theorem Stm.mem_temps {t : Temp} : ∀ s : Stm, t ∈ s.temps ↔ Token.temp t.id ∈ s.tokens
  | .seq a b => by simp [Stm.temps, Stm.tokens, a.mem_temps, b.mem_temps]
  | .label _ => by simp [Stm.temps, Stm.tokens]
  | .jump e ls => by simp [Stm.temps, Stm.tokens, e.mem_temps]
  | .cjump _ l r _ _ => by simp [Stm.temps, Stm.tokens, l.mem_temps, r.mem_temps]
  | .move d s => by simp [Stm.temps, Stm.tokens, d.mem_temps, s.mem_temps]
  | .exp e => by simp [Stm.temps, Stm.tokens, e.mem_temps]

end

theorem Procedure.mem_temps {t : Temp} {p : Procedure} :
    t ∈ p.temps ↔ Token.temp t.id ∈ p.tokens := by
  simp [Procedure.temps, Procedure.tokens, Stm.mem_temps]

/-! ## A printed tree without registers stands for itself -/

section

variable {m : Machine}

theorem Label.derivesAll_tokens (ls : List Label) :
    Label.DerivesAll (ls.flatMap fun l => [.punctuation .comma, .ident l]) ls := by
  induction ls with
  | nil => exact .nil
  | cons l ls ih => exact .cons ih

mutual

theorem Exp.derives_tokens :
    ∀ e : Exp, (∀ t ∈ e.temps, Temp.firstVirtual ≤ t.id) → Exp.Derives m e.tokens e
  | .binop op l r, h => .binop (l.derives_tokens fun t ht => h t (by simp [Exp.temps, ht]))
      (r.derives_tokens fun t ht => h t (by simp [Exp.temps, ht]))
  | .mem a, h => .mem (a.derives_tokens h)
  | .temp t, h => .temp (.temp (h t (by simp [Exp.temps])))
  | .eseq s e, h => .eseq (s.derives_tokens fun t ht => h t (by simp [Exp.temps, ht]))
      (e.derives_tokens fun t ht => h t (by simp [Exp.temps, ht]))
  | .name l, _ => .name l
  | .const n, _ => .const n
  | .call f args, h => .call (f.derives_tokens fun t ht => h t (by simp [Exp.temps, ht]))
      (Exp.derivesAll_tokens args fun t ht => h t (by simp [Exp.temps, ht]))

theorem Exp.derivesAll_tokens :
    ∀ es : List Exp, (∀ t ∈ Exp.tempsAll es, Temp.firstVirtual ≤ t.id) →
      Exp.DerivesAll m (Exp.tokensAll es) es
  | [], _ => .nil
  | e :: es, h => .cons (e.derives_tokens fun t ht => h t (by simp [Exp.tempsAll, ht]))
      (Exp.derivesAll_tokens es fun t ht => h t (by simp [Exp.tempsAll, ht]))

theorem Stm.derives_tokens :
    ∀ s : Stm, (∀ t ∈ s.temps, Temp.firstVirtual ≤ t.id) → Stm.Derives m s.tokens s
  | .seq a b, h => .seq (a.derives_tokens fun t ht => h t (by simp [Stm.temps, ht]))
      (b.derives_tokens fun t ht => h t (by simp [Stm.temps, ht]))
  | .label l, _ => .label l
  | .jump e ls, h => .jump (e.derives_tokens h) (Label.derivesAll_tokens ls)
  | .cjump op l r t f, h => .cjump (l.derives_tokens fun t ht => h t (by simp [Stm.temps, ht]))
      (r.derives_tokens fun t ht => h t (by simp [Stm.temps, ht]))
  | .move d s, h => .move (d.derives_tokens fun t ht => h t (by simp [Stm.temps, ht]))
      (s.derives_tokens fun t ht => h t (by simp [Stm.temps, ht]))
  | .exp e, h => .exp (e.derives_tokens h)

end

theorem Stm.derivesAll_tokens {ss : List Stm}
    (h : ∀ t ∈ ss.flatMap Stm.temps, Temp.firstVirtual ≤ t.id) :
    Stm.DerivesAll m (ss.flatMap Stm.tokens) ss := by
  induction ss with
  | nil => exact .nil
  | cons s ss ih =>
      refine .cons (s.derives_tokens fun t ht => h t ?_) (ih fun t ht => h t ?_)
      · exact List.mem_append_left _ ht
      · exact List.mem_append_right _ ht

theorem Procedure.derives_tokens {p : Procedure} (h : ∀ t ∈ p.temps, Temp.firstVirtual ≤ t.id) :
    Procedure.Derives m p.tokens p :=
  .mk (Stm.derivesAll_tokens h)

/-! ## The trees of a text -/

/-- A token that a tree of a text can be printed with. -/
def Token.Printable (m : Machine) (t : Token) : Prop :=
  t.Spelled ∧ ∀ n, t = .temp n → Temp.firstVirtual ≤ n ∨ m.isRegister ⟨n⟩ = true

namespace Token

@[simp] theorem printable_punctuation (p : Punctuation) : (punctuation p).Printable m :=
  ⟨trivial, nofun⟩

@[simp] theorem printable_keyword (k : Keyword) : (keyword k).Printable m := ⟨trivial, nofun⟩

@[simp] theorem printable_binOp (op : BinOp) : (binOp op).Printable m := ⟨trivial, nofun⟩

@[simp] theorem printable_relOp (op : RelOp) : (relOp op).Printable m := ⟨trivial, nofun⟩

@[simp] theorem printable_ident {l : Label} : (ident l).Printable m ↔ (ident l).Spelled :=
  ⟨And.left, fun h => ⟨h, nofun⟩⟩

@[simp] theorem printable_number {n : Int} : (number n).Printable m ↔ (number n).Spelled :=
  ⟨And.left, fun h => ⟨h, nofun⟩⟩

end Token

theorem Token.Refers.printable {t : Token} {a : Temp} (h : t.Refers m a) (ht : t.Spelled) :
    (Token.temp a.id).Printable m := by
  cases h with
  | temp hn =>
      refine ⟨ht, ?_⟩
      rintro _ ⟨⟩
      exact .inl hn
  | register hname =>
      obtain ⟨i, hi, rfl⟩ := Option.map_eq_some_iff.1 hname
      have hreg : m.isRegister ⟨i⟩ = true := by
        simpa [Machine.isRegister] using Machine.indexOf?_lt hi
      refine ⟨?_, ?_⟩
      · have hlt : i < m.colors + 2 := Machine.isRegister_iff.1 hreg
        exact hlt.trans (m.names_lt.trans (by decide))
      · rintro _ ⟨⟩
        exact .inr hreg

theorem Label.DerivesAll.printable {us : List Token} {ls : List Label}
    (h : Label.DerivesAll us ls) (hus : AllSpelled us) :
    ∀ t ∈ ls.flatMap fun l => [punctuation .comma, ident l], t.Printable m := by
  induction h with
  | nil => simp
  | cons _ ih =>
      simp only [AllSpelled, List.forall_mem_cons] at hus
      simpa [or_imp, forall_and, hus.2.1] using ih hus.2.2

mutual

theorem Exp.Derives.printable {us : List Token} {e : Exp} :
    Exp.Derives m us e → AllSpelled us → ∀ t ∈ e.tokens, t.Printable m
  | .binop hl hr, hus => by
      have hleft := hl.printable fun t ht => hus t (by simp [ht])
      have hright := hr.printable fun t ht => hus t (by simp [ht])
      simpa [Exp.tokens, or_imp, forall_and] using ⟨hleft, hright⟩
  | .mem ha, hus => by
      have haddress := ha.printable fun t ht => hus t (by simp [ht])
      simpa [Exp.tokens, or_imp, forall_and] using haddress
  | .temp ht, hus => by
      have href := ht.printable (hus _ (by simp))
      simpa [Exp.tokens] using href
  | .eseq hs he, hus => by
      have hstm := hs.printable fun t ht => hus t (by simp [ht])
      have hexp := he.printable fun t ht => hus t (by simp [ht])
      simpa [Exp.tokens, or_imp, forall_and] using ⟨hstm, hexp⟩
  | .name l, hus => by
      have hl := hus (ident l) (by simp)
      simpa [Exp.tokens] using hl
  | .const n, hus => by
      have hn := hus (number n) (by simp)
      simpa [Exp.tokens] using hn
  | .call hf hargs, hus => by
      have hcallee := hf.printable fun t ht => hus t (by simp [ht])
      have harguments := hargs.printable fun t ht => hus t (by simp [ht])
      simpa [Exp.tokens, or_imp, forall_and] using ⟨hcallee, harguments⟩

theorem Exp.DerivesAll.printable {us : List Token} {es : List Exp} :
    Exp.DerivesAll m us es → AllSpelled us → ∀ t ∈ Exp.tokensAll es, t.Printable m
  | .nil, _ => by simp [Exp.tokensAll]
  | .cons he hes, hus => by
      have hfirst := he.printable fun t ht => hus t (by simp [ht])
      have hmore := hes.printable fun t ht => hus t (by simp [ht])
      simpa [Exp.tokensAll, or_imp, forall_and] using ⟨hfirst, hmore⟩

theorem Stm.Derives.printable {us : List Token} {s : Stm} :
    Stm.Derives m us s → AllSpelled us → ∀ t ∈ s.tokens, t.Printable m
  | .seq ha hb, hus => by
      have hfirst := ha.printable fun t ht => hus t (by simp [ht])
      have hsecond := hb.printable fun t ht => hus t (by simp [ht])
      simpa [Stm.tokens, or_imp, forall_and] using ⟨hfirst, hsecond⟩
  | .label l, hus => by
      have hl := hus (ident l) (by simp)
      simpa [Stm.tokens] using hl
  | .jump he hls, hus => by
      have hexp := he.printable fun t ht => hus t (by simp [ht])
      have hlabels := hls.printable (m := m) fun t ht => hus t (by simp [ht])
      simp only [Stm.tokens, List.forall_mem_append, List.forall_mem_cons]
      exact ⟨⟨⟨printable_keyword _, printable_punctuation _, hexp⟩, hlabels⟩, by simp⟩
  | @Stm.Derives.cjump _ _ _ _ _ _ t f hl hr, hus => by
      have hleft := hl.printable fun t ht => hus t (by simp [ht])
      have hright := hr.printable fun t ht => hus t (by simp [ht])
      have ht := hus (ident t) (by simp)
      have hf := hus (ident f) (by simp)
      simpa [Stm.tokens, or_imp, forall_and] using ⟨hleft, hright, ht, hf⟩
  | .move hd hs, hus => by
      have hdestination := hd.printable fun t ht => hus t (by simp [ht])
      have hsource := hs.printable fun t ht => hus t (by simp [ht])
      simpa [Stm.tokens, or_imp, forall_and] using ⟨hdestination, hsource⟩
  | .exp he, hus => by
      have hexp := he.printable fun t ht => hus t (by simp [ht])
      simpa [Stm.tokens, or_imp, forall_and] using hexp

end

theorem Stm.DerivesAll.printable {us : List Token} {ss : List Stm} (h : Stm.DerivesAll m us ss)
    (hus : AllSpelled us) : ∀ t ∈ ss.flatMap Stm.tokens, t.Printable m := by
  induction h with
  | nil => simp
  | cons hs _ ih =>
      obtain ⟨hfirst, hmore⟩ := List.forall_mem_append.1 hus
      rw [List.flatMap_cons, List.forall_mem_append]
      exact ⟨hs.printable hfirst, ih hmore⟩

theorem Procedure.DerivesAll.printable {us : List Token} {ps : List Procedure}
    (h : Procedure.DerivesAll m us ps) (hus : AllSpelled us) :
    ∀ p ∈ ps, ∀ t ∈ p.tokens, t.Printable m := by
  induction h with
  | nil => simp
  | cons hp _ ih =>
      obtain ⟨hfirst, hmore⟩ := List.forall_mem_append.1 hus
      refine List.forall_mem_cons.2 ⟨?_, ih hmore⟩
      cases hp with
      | @mk name size _ _ hbody =>
          have hname := hfirst (ident name) (by simp)
          have hsize := hfirst (number size) (by simp)
          have hstms := hbody.printable fun t ht => hfirst t (by simp [ht])
          simp only [Procedure.tokens, List.forall_mem_append, List.forall_mem_cons]
          exact ⟨⟨printable_keyword _, printable_ident.2 hname, printable_keyword _,
            printable_number.2 hsize, printable_punctuation _, hstms⟩, by simp⟩

/-- The procedures of a text are printed with well-spelled tokens and refer to temps by numbers
that are no register's, or to registers. -/
theorem Procedure.printable_of_parseText {text : String} {ps : List Procedure}
    (h : parseText m text = .ok ps) : ∀ p ∈ ps, ∀ t ∈ p.tokens, t.Printable m := by
  have hderives : DerivesAll m (words text.toList) ps := (parse_eq_ok_iff m _ ps).1 h
  refine hderives.printable fun t ht => spelled_of_mem_words ht ?_
  rintro rfl
  obtain ⟨w, -, hw⟩ := hderives.sentence
  have hmem : none ∈ (words text.toList).map Token.terminal? := List.mem_map.2 ⟨_, ht, rfl⟩
  rw [hw] at hmem
  simp at hmem

/-- A printed procedure is parsed from its own tokens. -/
theorem Procedure.parseText_print_iff {p : Procedure} (h : AllSpelled p.tokens)
    {ps : List Procedure} : parseText m p.print = .ok ps ↔ DerivesAll m p.tokens ps := by
  rw [← Procedure.words_print h]
  exact parse_eq_ok_iff m _ ps

/-- Printing and parsing are inverse on the procedures of a text, except that a register has no
number to be printed with: it is an error to parse such a procedure again. -/
theorem Procedure.parseText_print (m : Machine) (text : String) (ps : List Procedure)
    (h : parseText m text = .ok ps) (p : Procedure) (hp : p ∈ ps) :
    ((∀ t ∈ p.temps, m.isRegister t = false) → parseText m p.print = .ok [p]) ∧
      ((∃ t ∈ p.temps, m.isRegister t = true) → ∃ e, parseText m p.print = .error e) := by
  have hprintable := printable_of_parseText h p hp
  have hspelled : AllSpelled p.tokens := fun t ht => (hprintable t ht).1
  constructor
  · intro hvirtual
    have htemps : ∀ t ∈ p.temps, Temp.firstVirtual ≤ t.id := by
      intro t ht
      have hreg := (hprintable _ (mem_temps.1 ht)).2 t.id rfl
      exact hreg.resolve_right (by simp [hvirtual t ht])
    rw [parseText_print_iff hspelled, ← List.append_nil p.tokens]
    exact .cons (derives_tokens htemps) .nil
  · rintro ⟨t, ht, hreg⟩
    cases hparse : parseText m p.print with
    | error e => exact ⟨e, rfl⟩
    | ok ps' =>
        have hnamed := ((parseText_print_iff hspelled).1 hparse).wellNamed _ (mem_temps.1 ht)
        have hlt : t.id < m.colors + 2 := Machine.isRegister_iff.1 hreg
        exact absurd (hlt.trans m.names_lt) (Nat.not_lt_of_le hnamed)

/-- A procedure without and one with a register, in one text. -/
theorem Procedure.parseText_print_pair :
    parseText .x86_64 "proc f.1 frame -8 { EXP(TEMP t100) } proc g frame 0 { EXP(TEMP %rbx) }" =
        .ok [⟨"f.1", -8, [.exp (.temp ⟨100⟩)]⟩, ⟨"g", 0, [.exp (.temp ⟨1⟩)]⟩] ∧
      parseText .x86_64 (print ⟨"f.1", -8, [.exp (.temp ⟨100⟩)]⟩) =
        .ok [⟨"f.1", -8, [.exp (.temp ⟨100⟩)]⟩] ∧
      ∃ e, parseText .x86_64 (print ⟨"g", 0, [.exp (.temp ⟨1⟩)]⟩) = .error e := by
  have hparse : parseText .x86_64
      "proc f.1 frame -8 { EXP(TEMP t100) } proc g frame 0 { EXP(TEMP %rbx) }" =
        .ok [⟨"f.1", -8, [.exp (.temp ⟨100⟩)]⟩, ⟨"g", 0, [.exp (.temp ⟨1⟩)]⟩] := by
    decide +kernel
  refine ⟨hparse, ?_, ?_⟩
  · exact (parseText_print .x86_64 _ _ hparse ⟨"f.1", -8, [.exp (.temp ⟨100⟩)]⟩ (by simp)).1
      (by decide)
  · exact (parseText_print .x86_64 _ _ hparse ⟨"g", 0, [.exp (.temp ⟨1⟩)]⟩ (by simp)).2
      (by decide)

end

end TreeCompiler
