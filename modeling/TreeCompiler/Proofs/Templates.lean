import TreeCompiler.Instr.Template
import TreeCompiler.Proofs.Grammar.Words
import TreeCompiler.Proofs.Selection.Assembly
import TreeCompiler.Proofs.Selection.Labels

/-!
# Templates — the holes of instruction texts, and what they are filled with

The text of an operation consists of literal parts and of holes (`Assembly.Line.pieces`), which is
how a template is cut up again (`Assembly.cut_print`).  Each hole is for a use, a definition or a
target that the instruction has (`Operation.exists_of_hole`).  So if these are named by texts in
which nothing is left open (`Assembly.Resolved`), nothing is left open in the filled line
(`Assembly.Line.resolved`).
-/

namespace TreeCompiler

namespace Assembly

/-! ## Texts in which nothing is left open -/

/-- The words of a text: its runs of letters, digits, `_` and `.`. -/
def wordsOf (cs : List Char) : List (List Char) := cs.splitOnP fun c => !Token.isWordChar c

/-- How a temp without a register is spelled. -/
def isTempWord : List Char → Bool
  | 't' :: d :: ds => (d :: ds).all Char.isDigit
  | _ => false

/-- A text without temps, without holes, and without marks for operands that do not exist. -/
structure Resolved (cs : List Char) : Prop where
  temps : ∀ w ∈ wordsOf cs, isTempWord w = false
  holes : '`' ∉ cs
  marks : '<' ∉ cs

instance (cs : List Char) : Decidable (Resolved cs) :=
  decidable_of_iff ((∀ w ∈ wordsOf cs, isTempWord w = false) ∧ '`' ∉ cs ∧ '<' ∉ cs)
    ⟨fun h => ⟨h.1, h.2.1, h.2.2⟩, fun h => ⟨h.temps, h.holes, h.marks⟩⟩

theorem isTempWord_display (t : Temp) : isTempWord t.display.toList = true := by
  have htext : t.display.toList = 't' :: Nat.toDigits 10 t.id := by
    rw [Temp.display, String.toList_append, Token.toList_toString]
    rfl
  obtain ⟨d, ds, hds⟩ := List.exists_cons_of_ne_nil (Nat.toDigits_ne_nil (b := 10) (n := t.id))
  rw [htext, hds, isTempWord, ← hds, List.all_eq_true]
  exact Token.isDigit_toDigits

/-- No word of a resolved text is what is written for a temp without a name. -/
theorem Resolved.display_not_mem {cs : List Char} (h : Resolved cs) (t : Temp) :
    t.display.toList ∉ wordsOf cs := fun hmem =>
  Bool.noConfusion ((isTempWord_display t).symm.trans (h.temps _ hmem))

/-- A character between words that leaves nothing open. -/
def isSeparator (c : Char) : Bool := !Token.isWordChar c && c ≠ '`' && c ≠ '<'

section Resolved

variable {c : Char} {cs xs ys : List Char}

theorem resolved_append_cons (hc : isSeparator c = true) :
    Resolved (xs ++ c :: ys) ↔ Resolved xs ∧ Resolved ys := by
  simp only [isSeparator, Bool.and_eq_true, decide_eq_true_eq] at hc
  obtain ⟨⟨hword, hhole⟩, hmark⟩ := hc
  have hwords : wordsOf (xs ++ c :: ys) = wordsOf xs ++ wordsOf ys :=
    List.splitOnP_append_cons xs ys hword
  constructor
  · intro h
    have htemps := h.temps
    have hholes := h.holes
    have hmarks := h.marks
    rw [hwords, List.forall_mem_append] at htemps
    simp only [List.mem_append, List.mem_cons, not_or] at hholes hmarks
    exact ⟨⟨htemps.1, hholes.1, hmarks.1⟩, htemps.2, hholes.2.2, hmarks.2.2⟩
  · rintro ⟨hx, hy⟩
    refine ⟨?_, ?_, ?_⟩
    · rw [hwords, List.forall_mem_append]
      exact ⟨hx.temps, hy.temps⟩
    · simp [hx.holes, hy.holes, Ne.symm hhole]
    · simp [hx.marks, hy.marks, Ne.symm hmark]

theorem resolved_nil : Resolved [] := by decide

theorem Resolved.append (hx : Resolved xs) (hy : Resolved ys) (hc : isSeparator c = true) :
    Resolved (xs ++ c :: ys) :=
  (resolved_append_cons hc).2 ⟨hx, hy⟩

theorem resolved_cons (hc : isSeparator c = true) : Resolved (c :: cs) ↔ Resolved cs :=
  (resolved_append_cons hc).trans (and_iff_right resolved_nil)

theorem Resolved.cons (h : Resolved cs) (hc : isSeparator c = true) : Resolved (c :: cs) :=
  (resolved_cons hc).2 h

/-- A word that is no temp. -/
theorem resolved_word (hword : ∀ c ∈ cs, Token.isWordChar c = true)
    (htemp : isTempWord cs = false) : Resolved cs where
  temps := by
    rw [wordsOf, List.splitOnP_eq_singleton fun c hc => by simp [hword c hc]]
    exact List.forall_mem_singleton.2 htemp
  holes h := absurd (hword _ h) (by decide)
  marks h := absurd (hword _ h) (by decide)

theorem resolved_digits {ds : List Char} (h : ∀ d ∈ ds, d.isDigit = true) : Resolved ds := by
  refine resolved_word (fun c hc => Token.isWordChar_of_isDigit (h c hc)) ?_
  cases ds with
  | nil => rfl
  | cons d ds =>
      have hd : d ≠ 't' := by
        rintro rfl
        exact absurd (h _ List.mem_cons_self) (by decide)
      unfold isTempWord
      split
      · rename_i heq
        exact absurd (List.cons.inj heq).1 hd
      · rfl

theorem resolved_nat (n : Nat) : Resolved (toString n).toList := by
  rw [Token.toList_toString]
  exact resolved_digits Token.isDigit_toDigits

theorem toList_toString_negSucc (n : Nat) :
    (toString (Int.negSucc n)).toList = '-' :: (toString (n + 1)).toList := by
  change ("-" ++ toString (n + 1)).toList = _
  rw [String.toList_append]
  rfl

theorem resolved_number (n : Int) : Resolved (toString n).toList := by
  cases n with
  | ofNat n => exact resolved_nat n
  | negSucc n =>
      rw [toList_toString_negSucc]
      exact (resolved_nat (n + 1)).cons (by decide)

theorem resolved_signed (h : Resolved cs) (n : Int) : Resolved (cs ++ (signed n).toList) := by
  unfold signed
  split
  · rw [String.toList_append]
    exact h.append (resolved_number n) (by decide)
  · cases n with
    | ofNat n => exact absurd (Int.natCast_nonneg n) ‹_›
    | negSucc n =>
        rw [toList_toString_negSucc]
        exact h.append (resolved_nat (n + 1)) (by decide)

/-- A label of a text is a word, and no temp. -/
theorem resolved_label {l : Label} (h : (Token.ident l).Spelled) : Resolved l.toList := by
  obtain ⟨hword, hident⟩ := h
  refine resolved_word (Token.isWordChar_of_isWord hword) ?_
  unfold isTempWord
  split
  · rename_i d ds htext
    refine Bool.eq_false_iff.2 fun hdigits => ?_
    rw [htext, Token.ofWord_temp (List.all_eq_true.1 hdigits), Token.ofTempDigits] at hident
    split at hident <;> cases hident
  · rfl

end Resolved

end Assembly

namespace Template

/-! ## Pieces of a text -/

/-- A text without holes, cut into pieces. -/
def literal (s : String) : List Piece := s.toList.map fun c => .text [c]

theorem pieces_cons {c : Char} (h : c ≠ '`') (rest : List Char) :
    pieces (c :: rest) = .text [c] :: pieces rest := by
  rw [pieces.eq_def]
  split
  · contradiction
  · rename_i heq
    exact absurd (List.cons.inj heq).1 h
  · rename_i heq
    cases heq
    rw [if_neg h]

theorem pieces_append {cs : List Char} (h : '`' ∉ cs) (rest : List Char) :
    pieces (cs ++ rest) = (cs.map fun c => .text [c]) ++ pieces rest := by
  induction cs with
  | nil => rfl
  | cons c cs ih =>
      rw [List.cons_append, pieces_cons (fun heq => h (heq ▸ List.mem_cons_self)),
        ih fun hmem => h (List.mem_cons_of_mem c hmem)]
      rfl

/-- The number of a hole ends where no more digits follow. -/
theorem pieces_hole (kind : Char) (n : Nat) {rest : List Char} (hrest : Token.Delimited rest) :
    pieces ('`' :: kind :: ((toString n).toList ++ rest)) =
      piece kind (toString n).toList :: pieces rest := by
  have hdigits : ∀ c ∈ (toString n).toList, c.isDigit = true := by
    rw [Token.toList_toString]
    exact Token.isDigit_toDigits
  have htake : ((toString n).toList ++ rest).takeWhile Char.isDigit = (toString n).toList :=
    Token.takeWhile_append_of_delimited hdigits (fun _ => Token.isWordChar_of_isDigit) hrest
  have hdrop : ((toString n).toList ++ rest).dropWhile Char.isDigit = rest := by
    have hwhole := List.takeWhile_append_dropWhile
      (p := Char.isDigit) (l := (toString n).toList ++ rest)
    rw [htake] at hwhole
    exact List.append_cancel_left hwhole
  rw [pieces.eq_def]
  simp only [if_pos, htake, hdrop]

theorem index_toString (n : Nat) : index (toString n).toList = n := by
  rw [Token.toList_toString]
  exact Token.digitsValue_toDigits n

/-! ### Texts that are cut into some pieces -/

/-- In front of anything but a word, a text is cut into these pieces. -/
def Cut (s : String) (ps : List Piece) : Prop :=
  ∀ rest, Token.Delimited rest → pieces (s.toList ++ rest) = ps ++ pieces rest

section Cut

variable {s s' : String} {ps qs : List Piece}

theorem Cut.pieces_eq (h : Cut s ps) : pieces s.toList = ps := by
  have hpieces := h [] Token.delimited_nil
  have hnil : pieces [] = [] := by rw [pieces]
  rwa [List.append_nil, hnil, List.append_nil] at hpieces

theorem Cut.of_eq (h : Cut s ps) (heq : s'.toList = s.toList) : Cut s' ps :=
  String.toList_injective heq ▸ h

theorem cut_literal (h : '`' ∉ s.toList) : Cut s (literal s) :=
  fun rest _ => pieces_append h rest

/-- A literal text does not depend on what follows it. -/
theorem Cut.literal_append (h : '`' ∉ s.toList) (h' : Cut s' ps) :
    Cut (s ++ s') (literal s ++ ps) := by
  intro rest hrest
  rw [String.toList_append, List.append_assoc, pieces_append h, h' rest hrest, List.append_assoc]
  rfl

theorem Cut.append (h : Cut s ps) (h' : Cut s' qs)
    (hrest : ∀ rest, Token.Delimited (s'.toList ++ rest)) : Cut (s ++ s') (ps ++ qs) := by
  intro rest hdelimited
  rw [String.toList_append, List.append_assoc, h _ (hrest rest), h' rest hdelimited,
    List.append_assoc]

/-- A hole is one piece. -/
theorem cut_hole {kind : Char} {n : Nat} (hs : s.toList = '`' :: kind :: (toString n).toList) :
    Cut s [piece kind (toString n).toList] := by
  intro rest hrest
  rw [hs, List.cons_append, List.cons_append, pieces_hole kind n hrest]
  rfl

theorem cut_use (n : Nat) : Cut (s!"`s{n}") [.hole (.use n)] := by
  have hcut : Cut (s!"`s{n}") [piece 's' (toString n).toList] := cut_hole (by simp [toString])
  rwa [piece, index_toString] at hcut

theorem cut_definition (n : Nat) : Cut (s!"`d{n}") [.hole (.definition n)] := by
  have hcut : Cut (s!"`d{n}") [piece 'd' (toString n).toList] := cut_hole (by simp [toString])
  rwa [piece, index_toString] at hcut

theorem cut_target (n : Nat) : Cut (s!"`j{n}") [.hole (.target n)] := by
  have hcut : Cut (s!"`j{n}") [piece 'j' (toString n).toList] := cut_hole (by simp [toString])
  rwa [piece, index_toString] at hcut

end Cut

end Template

namespace Assembly

open Template

/-! ## Pieces of a line -/

/-- What the hole of a register is filled with. -/
def Slot.hole : Slot → Template.Operand
  | .use n => .use n
  | .definition n => .definition n

/-- What stands before the base register of a memory operand. -/
def displacement : Option String → Int → String
  | some symbol, offset => symbol ++ (if offset = 0 then "" else signed offset)
  | none, offset => if offset = 0 then "" else toString offset

def Operand.pieces : Operand → List Piece
  | .slot s => [.hole s.hole]
  | .immediate c => literal ("$" ++ toString c)
  | .memory symbol offset base =>
      literal (displacement symbol offset) ++ (literal "(" ++ ([.hole base.hole] ++ literal ")"))

@[simp] theorem Operand.pieces_slot (s : Slot) : (Operand.slot s).pieces = [.hole s.hole] := rfl

@[simp] theorem Operand.pieces_immediate (c : Int) :
    (Operand.immediate c).pieces = literal ("$" ++ toString c) := rfl

/-- A mnemonic with one operand. -/
def unary (mnemonic : String) (operand : List Piece) : List Piece :=
  literal mnemonic ++ (literal " " ++ operand)

/-- A mnemonic with two operands. -/
def binary (mnemonic : String) (source destination : List Piece) : List Piece :=
  unary mnemonic (source ++ (literal ", " ++ destination))

/-- The pieces that a line is printed in. -/
def Line.pieces : Line → List Piece
  | .label l => literal (l ++ ":")
  | .move s d => binary "movq" s.pieces d.pieces
  | .loadAddress a d => binary "leaq" a.pieces [.hole d.hole]
  | .loadLabel l d => binary "leaq" (literal (l ++ "(%rip)")) [.hole d.hole]
  | .arith op s d => binary op.mnemonic s.pieces [.hole d.hole]
  | .multiply s => unary "imulq" [.hole s.hole]
  | .signExtend => literal "cqto"
  | .divide s => unary "idivq" [.hole s.hole]
  | .shift op c d => binary op.mnemonic (Operand.immediate c).pieces [.hole d.hole]
  | .shiftByCount op d => binary op.mnemonic (literal "%cl") [.hole d.hole]
  | .compare r l => binary "cmpq" r.pieces [.hole l.hole]
  | .branch op => unary op.jumpMnemonic [.hole (.target 0)]
  | .jump => unary "jmp" [.hole (.target 0)]
  | .jumpTo a => unary "jmp" (literal "*" ++ [.hole a.hole])
  | .call l => unary "callq" (literal l)
  | .callTo a => unary "callq" (literal "*" ++ [.hole a.hole])
  | .nothing => []

/-- The names in an operand that are not part of the notation. -/
def Operand.names : Operand → List String
  | .memory (some symbol) _ _ => [symbol]
  | _ => []

/-- The labels and symbols in a line. -/
def Line.names : Line → List String
  | .label l => [l]
  | .move s d => s.names ++ d.names
  | .loadAddress a _ => a.names
  | .loadLabel l _ => [l]
  | .arith _ s _ => s.names
  | .compare r _ => r.names
  | .call l => [l]
  | _ => []

/-! ### A printed line is cut into its pieces -/

theorem cut_slot (s : Slot) : Cut s.print [.hole s.hole] := by
  cases s with
  | use n => exact cut_use n
  | definition n => exact cut_definition n

theorem resolved_displacement {symbol : Option String} (h : ∀ s ∈ symbol, Resolved s.toList)
    (offset : Int) : Resolved (displacement symbol offset).toList := by
  cases symbol with
  | some symbol =>
      rw [displacement, String.toList_append]
      split
      · simpa using h symbol rfl
      · exact resolved_signed (h symbol rfl) offset
  | none =>
      rw [displacement]
      split
      · exact resolved_nil
      · exact resolved_number offset

theorem cut_operand {o : Operand} (h : ∀ name ∈ o.names, Resolved name.toList) :
    Cut o.print o.pieces := by
  cases o with
  | slot s => exact cut_slot s
  | immediate c =>
      refine cut_literal (s := "$" ++ toString c) ?_
      rw [String.toList_append]
      exact ((resolved_number c).cons (by decide)).holes
  | memory symbol offset base =>
      have hsymbol : ∀ s ∈ symbol, Resolved s.toList := by
        rintro s rfl
        exact h s (List.mem_singleton_self s)
      have hbase : Cut (base.print ++ ")") ([.hole base.hole] ++ literal ")") :=
        (cut_slot base).append (cut_literal (by decide)) fun rest => Token.delimited_rparen rest
      have hmemory := Cut.literal_append (resolved_displacement hsymbol offset).holes
        (Cut.literal_append (s := "(") (by decide) hbase)
      refine hmemory.of_eq ?_
      cases symbol <;> simp [Operand.print, displacement, toString]

section

variable {m : String} {o s d : String} {ps qs : List Piece}

theorem cut_unary (hm : '`' ∉ m.toList) (h : Cut o ps) : Cut (m ++ (" " ++ o)) (unary m ps) :=
  .literal_append hm (.literal_append (by decide) h)

theorem cut_binary (hm : '`' ∉ m.toList) (hs : Cut s ps) (hd : Cut d qs) :
    Cut (m ++ (" " ++ (s ++ (", " ++ d)))) (binary m ps qs) :=
  cut_unary hm (hs.append (.literal_append (by decide) hd) fun rest => by simp)

end

/-- The text of a line is cut into its pieces. -/
theorem cut_print {l : Line} (h : ∀ name ∈ l.names, Resolved name.toList) :
    Cut l.print l.pieces := by
  have hname : ∀ {name}, name ∈ l.names → '`' ∉ name.toList := fun hmem => (h _ hmem).holes
  cases l with
  | label l =>
      refine cut_literal (s := l ++ ":") ?_
      simpa using hname (List.mem_singleton_self l)
  | move s d =>
      obtain ⟨hs, hd⟩ := List.forall_mem_append.1 h
      exact (cut_binary (by decide) (cut_operand hs) (cut_operand hd)).of_eq
        (by simp [Line.print, toString])
  | loadAddress a d =>
      exact (cut_binary (by decide) (cut_operand h) (cut_slot d)).of_eq
        (by simp [Line.print, toString])
  | loadLabel l d =>
      have hl : '`' ∉ (l ++ "(%rip)").toList := by simpa using hname (List.mem_singleton_self l)
      exact (cut_binary (by decide) (cut_literal hl) (cut_slot d)).of_eq
        (by simp [Line.print, toString])
  | arith op s d =>
      exact (cut_binary (by cases op <;> decide) (cut_operand h) (cut_slot d)).of_eq
        (by simp [Line.print, toString])
  | multiply s =>
      exact (cut_unary (by decide) (cut_slot s)).of_eq (by simp [Line.print, toString])
  | signExtend => exact cut_literal (by decide)
  | divide s =>
      exact (cut_unary (by decide) (cut_slot s)).of_eq (by simp [Line.print, toString])
  | shift op c d =>
      exact (cut_binary (by cases op <;> decide) (cut_operand (o := .immediate c) h)
        (cut_slot d)).of_eq (by simp [Line.print, toString])
  | shiftByCount op d =>
      exact (cut_binary (by cases op <;> decide) (cut_literal (s := "%cl") (by decide))
        (cut_slot d)).of_eq (by simp [Line.print, toString])
  | compare r l =>
      exact (cut_binary (by decide) (cut_operand h) (cut_slot l)).of_eq
        (by simp [Line.print, toString])
  | branch op =>
      exact (cut_unary (by cases op <;> decide) (cut_target 0)).of_eq
        (by simp [Line.print, toString, Nat.toDigits_of_lt_base, Nat.digitChar])
  | jump =>
      exact (cut_unary (by decide) (cut_target 0)).of_eq
        (by simp [Line.print, toString, Nat.toDigits_of_lt_base, Nat.digitChar])
  | jumpTo a =>
      exact (cut_unary (by decide) (.literal_append (s := "*") (by decide) (cut_slot a))).of_eq
        (by simp [Line.print, toString])
  | call l =>
      exact (cut_unary (by decide) (cut_literal (hname (List.mem_singleton_self l)))).of_eq
        (by simp [Line.print, toString])
  | callTo a =>
      exact (cut_unary (by decide) (.literal_append (s := "*") (by decide) (cut_slot a))).of_eq
        (by simp [Line.print, toString])
  | nothing => exact cut_literal (s := "") (by decide)

/-! ### A line is filled without leaving anything open -/

/-- Nothing is left open in the pieces if nothing is in what their holes are filled with. -/
def Fillable (ps : List Piece) : Prop :=
  ∀ g : Piece → List Char, (∀ cs, g (.text cs) = cs) →
    (∀ h, .hole h ∈ ps → Resolved (g (.hole h))) → Resolved (ps.flatMap g)

section Fillable

variable {c : Char} {m s : String} {ps qs : List Piece}

theorem fillable_literal (h : Resolved s.toList) : Fillable (literal s) := by
  intro g htext _
  have hchars : (literal s).flatMap g = s.toList := by
    simp [literal, List.flatMap_map, htext]
  rwa [hchars]

theorem fillable_hole (h : Template.Operand) : Fillable [.hole h] := by
  intro g _ hholes
  simpa using hholes h (List.mem_singleton_self _)

theorem Fillable.append (hp : Fillable ps) (hq : Fillable qs) (hc : isSeparator c = true) :
    Fillable (ps ++ .text [c] :: qs) := by
  intro g htext hholes
  rw [List.flatMap_append, List.flatMap_cons, htext]
  refine Resolved.append (hp g htext fun h hh => hholes h ?_)
    (hq g htext fun h hh => hholes h ?_) hc
  · exact List.mem_append_left _ hh
  · exact List.mem_append_right _ (List.mem_cons_of_mem _ hh)

theorem Fillable.cons (h : Fillable ps) (hc : isSeparator c = true) :
    Fillable (.text [c] :: ps) := (fillable_literal (s := "") resolved_nil).append h hc

theorem fillable_unary (hm : Resolved m.toList) (h : Fillable ps) : Fillable (unary m ps) :=
  (fillable_literal hm).append h (by decide)

theorem fillable_binary (hm : Resolved m.toList) (hp : Fillable ps) (hq : Fillable qs) :
    Fillable (binary m ps qs) :=
  fillable_unary hm (hp.append (hq.cons (by decide)) (by decide))

theorem fillable_operand {o : Operand} (h : ∀ name ∈ o.names, Resolved name.toList) :
    Fillable o.pieces := by
  cases o with
  | slot s => exact fillable_hole _
  | immediate c =>
      refine fillable_literal (s := "$" ++ toString c) ?_
      rw [String.toList_append]
      exact (resolved_number c).cons (by decide)
  | memory symbol offset base =>
      have hsymbol : ∀ s ∈ symbol, Resolved s.toList := by
        rintro s rfl
        exact h s (List.mem_singleton_self s)
      exact (fillable_literal (resolved_displacement hsymbol offset)).append
        ((fillable_hole base.hole).append (fillable_literal (s := "") resolved_nil) (by decide))
        (by decide)

theorem fillable_line {l : Line} (h : ∀ name ∈ l.names, Resolved name.toList) :
    Fillable l.pieces := by
  cases l with
  | label l =>
      refine fillable_literal (s := l ++ ":") ?_
      rw [String.toList_append]
      exact (h l (List.mem_singleton_self l)).append resolved_nil (by decide)
  | move s d =>
      obtain ⟨hs, hd⟩ := List.forall_mem_append.1 h
      exact fillable_binary (by decide) (fillable_operand hs) (fillable_operand hd)
  | loadAddress a d => exact fillable_binary (by decide) (fillable_operand h) (fillable_hole _)
  | loadLabel l d =>
      have hl : Resolved (l.toList ++ "(%rip)".toList) :=
        (h l (List.mem_singleton_self l)).append (by decide : Resolved "%rip)".toList) (by decide)
      rw [← String.toList_append] at hl
      exact fillable_binary (by decide) (fillable_literal hl) (fillable_hole _)
  | arith op s d =>
      exact fillable_binary (by cases op <;> decide) (fillable_operand h) (fillable_hole _)
  | multiply s => exact fillable_unary (by decide) (fillable_hole _)
  | signExtend => exact fillable_literal (by decide)
  | divide s => exact fillable_unary (by decide) (fillable_hole _)
  | shift op c d =>
      exact fillable_binary (by cases op <;> decide) (fillable_operand (o := .immediate c) h)
        (fillable_hole _)
  | shiftByCount op d =>
      exact fillable_binary (by cases op <;> decide) (fillable_literal (by decide))
        (fillable_hole _)
  | compare r l => exact fillable_binary (by decide) (fillable_operand h) (fillable_hole _)
  | branch op => exact fillable_unary (by cases op <;> decide) (fillable_hole _)
  | jump => exact fillable_unary (by decide) (fillable_hole _)
  | jumpTo a => exact fillable_unary (by decide) ((fillable_hole _).cons (by decide))
  | call l => exact fillable_unary (by decide) (fillable_literal (h l (List.mem_singleton_self l)))
  | callTo a => exact fillable_unary (by decide) ((fillable_hole _).cons (by decide))
  | nothing => exact fillable_literal (s := "") resolved_nil

end Fillable

end Assembly

/-! ## Holes of operations -/

/-- What a hole is for exists. -/
def Template.Operand.Exists (i : Instr) : Template.Operand → Prop
  | .use n => n < i.uses.length
  | .definition n => n < i.defs.length
  | .target n => n < i.targets.length

namespace Operation

open Assembly Template

variable {symbol : String} {op : Operation}

theorem hole_mem_operand {h : Template.Operand} {n : Nat} {a : Address} :
    .hole h ∈ (a.operand symbol n).pieces ↔ h = .use n := by
  cases a <;> simp [Address.operand, Assembly.Operand.pieces, literal, Slot.hole]

/-- Each hole in the line of an operation is for something that the instruction has. -/
theorem exists_of_hole (hjump : op.isStray = false) : ∀ h : Template.Operand,
    .hole h ∈ (op.line symbol).pieces → h.Exists (op.instr (.x86_64 symbol)) := by
  have hliteral : ∀ h s, Piece.hole h ∉ literal s := by simp [literal]
  have hlabels : ∀ labels, op = .jump labels → 0 < labels.length := by
    rintro labels rfl
    refine List.length_pos_iff.2 fun hnil => ?_
    rw [hnil] at hjump
    cases hjump
  cases op with
  | arith op dst right =>
      cases right <;> simp [line, Line.pieces, unary, binary, hliteral, Slot.hole,
        Template.Operand.Exists, instr, Instr.plain, Instr.uses, Instr.defs]
  | compare left right =>
      cases right <;> simp [line, Line.pieces, unary, binary, hliteral, Slot.hole,
        Template.Operand.Exists, instr, Instr.plain, Instr.uses]
  | call callee arguments =>
      cases callee <;> simp [line, Line.pieces, unary, hliteral, Slot.hole,
        Template.Operand.Exists, instr, Instr.plain, Instr.uses]
  | jump labels =>
      simpa [line, Line.pieces, unary, hliteral, Template.Operand.Exists, instr, Instr.jump,
        Instr.targets, Instr.jumps?] using hlabels labels rfl
  | _ =>
      simp [line, Line.pieces, unary, binary, hole_mem_operand, hliteral, Slot.hole,
        Template.Operand.Exists, instr, Instr.plain, Instr.copy, Instr.branch, Instr.jump,
        Instr.uses, Instr.defs, Instr.targets, Instr.jumps?]

/-- A line names the symbol of the frame size, and labels of the operation. -/
theorem mem_names_line {name : String} (h : name ∈ (op.line symbol).names) :
    name = symbol ∨ name ∈ op.labels := by
  have haddress : ∀ {a : Address} {n : Nat}, name ∈ (a.operand symbol n).names → name = symbol := by
    intro a n hmem
    cases a with
    | frame offset => exact List.mem_singleton.1 hmem
    | base t offset => cases hmem
  cases op with
  | label l => exact .inr h
  | labelAddress dst l => exact .inr h
  | frameAddress dst offset => exact .inl (List.mem_singleton.1 h)
  | load dst a => exact .inl (haddress ((List.mem_append.1 h).resolve_right List.not_mem_nil))
  | store src a => exact .inl (haddress ((List.mem_append.1 h).resolve_left List.not_mem_nil))
  | storeConstant c a => exact .inl (haddress ((List.mem_append.1 h).resolve_left List.not_mem_nil))
  | arith op dst right => cases right <;> cases h
  | compare left right => cases right <;> cases h
  | call callee arguments =>
      cases callee with
      | direct l => exact .inr h
      | indirect t => cases h
  | _ => cases h

end Operation

/-! ## Instructions -/

namespace Instr

open Assembly Template

variable {i : Instr} {names : NameMap}

theorem toList_fill (h : i.label? = none) :
    (i.fill names).toList = (pieces i.text.toList).flatMap fun p =>
      (i.pieceText names p).toList := by
  cases i with
  | label => cases h
  | move | oper =>
      rw [fill.eq_def]
      simp [List.flatMap_map]

/-- Each hole that is for something is filled with the name of a temp or with a label. -/
theorem resolved_pieceText (hnames : ∀ t ∈ i.defs ++ i.uses, Resolved (names.lookup t).toList)
    (htargets : ∀ l ∈ i.targets, Resolved l.toList) {h : Template.Operand} (hh : h.Exists i) :
    Resolved (i.pieceText names (.hole h)).toList := by
  cases h with
  | use n =>
      have hn : i.uses[n]? = some i.uses[n] := List.getElem?_eq_getElem hh
      simp only [pieceText, operandText, hn]
      exact hnames _ (List.mem_append_right _ (List.getElem_mem hh))
  | definition n =>
      have hn : i.defs[n]? = some i.defs[n] := List.getElem?_eq_getElem hh
      simp only [pieceText, operandText, hn]
      exact hnames _ (List.mem_append_left _ (List.getElem_mem hh))
  | target n =>
      have hn : i.targets[n]? = some i.targets[n] := List.getElem?_eq_getElem hh
      simp only [pieceText, hn]
      exact htargets _ (List.getElem_mem hh)

/-- A filled line has nothing left open. -/
theorem resolved_fill {l : Line} (hlabel : i.label? = none) (htext : i.text = l.print)
    (hline : ∀ name ∈ l.names, Resolved name.toList)
    (hholes : ∀ h : Template.Operand, .hole h ∈ l.pieces → h.Exists i)
    (hnames : ∀ t ∈ i.defs ++ i.uses, Resolved (names.lookup t).toList)
    (htargets : ∀ l ∈ i.targets, Resolved l.toList) : Resolved (i.fill names).toList := by
  rw [toList_fill hlabel, htext, (cut_print hline).pieces_eq]
  refine fillable_line hline _ (fun cs => ?_) fun h hh =>
    resolved_pieceText hnames htargets (hholes h hh)
  simp [pieceText]

end Instr

end TreeCompiler
