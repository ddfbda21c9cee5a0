import TreeCompiler.Proofs.AssemblyText

/-!
# Symbols — the symbols that assembly text defines and jumps to

A line of assembly text defines a symbol if it sets one or is a label (`Assembly.definition?`); a
direct or conditional jump names one (`Assembly.jumpTarget?`).  The text of a file defines, in
order, for each procedure its frame size, its entry and the labels of its body.  The labels of one
body are different, and jumps stay in the procedure (`Procedure.symbols_of_assembly`).  Nothing
keeps the symbols of different procedures apart (`Procedure.symbol_defined_twice`).
-/

namespace TreeCompiler

open Selection Allocation FlowGraph Assembly

namespace Assembly

/-! ## Lines of a text -/

def linesOf (cs : List Char) : List (List Char) := cs.splitOnP (· == '\n')

/-- The symbol that a line defines: one that is set to a value, or a label in the first column. -/
def definition? (line : List Char) : Option Label :=
  if line.head? = some '\t' then none
  else if ".set ".toList.isPrefixOf line then
    some (String.ofList ((line.drop ".set ".toList.length).takeWhile (· ≠ ',')))
  else if line.getLast? = some ':' then some (String.ofList line.dropLast)
  else none

/-- The label that a direct or conditional jump names. -/
def jumpTarget? : List Char → Option Label
  | '\t' :: 'j' :: rest =>
      match (rest.dropWhile (· ≠ ' ')).drop 1 with
      | '*' :: _ => none
      | label => some (String.ofList label)
  | _ => none

/-- The symbols that the lines of a text define, in order. -/
def definitions (text : String) : List Label := (linesOf text.toList).filterMap definition?

/-- The labels that the jumps in a text name, in order. -/
def jumpTargets (text : String) : List Label := (linesOf text.toList).filterMap jumpTarget?

/-- Whatever follows it, a text has lines of which some things are read. -/
def Reads {β : Type} (g : List Char → Option β) (cs : List Char) (bs : List β) : Prop :=
  ∀ rest, (linesOf (cs ++ rest)).filterMap g = bs ++ (linesOf rest).filterMap g

section Reads

variable {β : Type} {g : List Char → Option β} {cs ds : List Char} {bs bs' : List β}

theorem reads_nil : Reads g [] [] := fun _ => rfl

theorem Reads.append (h : Reads g cs bs) (h' : Reads g ds bs') :
    Reads g (cs ++ ds) (bs ++ bs') := by
  intro rest
  rw [List.append_assoc, h, h', List.append_assoc]

theorem Reads.congr (h : Reads g cs bs) (heq : bs = bs') : Reads g cs bs' := heq ▸ h

/-- One line. -/
theorem reads_line (h : '\n' ∉ cs) : Reads g (cs ++ ['\n']) (g cs).toList := by
  intro rest
  have hline : linesOf cs = [cs] :=
    List.splitOnP_eq_singleton fun c hc => beq_false_of_ne fun heq => h (heq ▸ hc)
  have hsplit : linesOf (cs ++ ['\n'] ++ rest) = cs :: linesOf rest := by
    rw [List.append_assoc]
    exact (List.splitOnP_append_cons (p := fun c => c == '\n') cs rest rfl).trans
      (congrArg (· ++ linesOf rest) hline)
  rw [hsplit, List.filterMap_cons]
  cases g cs <;> rfl

theorem reads_lines {lines : List String} (h : ∀ s ∈ lines, '\n' ∉ s.toList) :
    Reads g (String.join (lines.map (· ++ "\n"))).toList (lines.filterMap fun s => g s.toList) := by
  induction lines with
  | nil => exact reads_nil
  | cons s lines ih =>
      obtain ⟨hs, hlines⟩ := List.forall_mem_cons.1 h
      have hrest := (reads_line (g := g) hs).append (ih hlines)
      rw [List.map_cons, String.join_cons, String.toList_append, String.toList_append]
      refine hrest.congr ?_
      rw [List.filterMap_cons]
      cases g s.toList <;> rfl

/-- Texts one behind the other, each with what is read of it. -/
theorem reads_joinAll {α γ : Type} {f : α → String} {b : γ → List β} {ys : List γ} {xs : List α}
    (h : List.Forall₂ (fun y x => Reads g (f x).toList (b y)) ys xs) :
    Reads g (String.join (xs.map f)).toList (ys.flatMap b) := by
  induction h with
  | nil => exact reads_nil
  | cons hx _ ih =>
      rw [List.map_cons, String.join_cons, String.toList_append, List.flatMap_cons]
      exact hx.append ih

theorem reads_join {α : Type} {f : α → String} {b : α → List β} {xs : List α}
    (h : ∀ x ∈ xs, Reads g (f x).toList (b x)) :
    Reads g (String.join (xs.map f)).toList (xs.flatMap b) :=
  reads_joinAll (List.forall₂_same.2 h)

theorem Reads.all {s : String} (h : Reads g s.toList bs) (hnil : g [] = none) :
    (linesOf s.toList).filterMap g = bs := by
  have hlines : (linesOf []).filterMap g = [] := by
    have hsplit : linesOf [] = [[]] := rfl
    rw [hsplit, List.filterMap_cons, hnil]
    rfl
  have hall := h []
  rwa [List.append_nil, hlines, List.append_nil] at hall

end Reads

/-! ## Breaks -/

theorem not_break_of_word {cs : List Char} (h : ∀ c ∈ cs, Token.isWordChar c = true) : '\n' ∉ cs :=
  fun hmem => absurd (h _ hmem) (by decide)

theorem not_break_nat (n : Nat) : '\n' ∉ (toString n).toList := by
  refine not_break_of_word fun c hc => Token.isWordChar_of_isDigit ?_
  rw [Token.toList_toString] at hc
  exact Token.isDigit_toDigits c hc

theorem not_break_int (n : Int) : '\n' ∉ (toString n).toList := by
  cases n with
  | ofNat n => exact not_break_nat n
  | negSucc n =>
      rw [toList_toString_negSucc, List.mem_cons, not_or]
      exact ⟨by decide, not_break_nat (n + 1)⟩

theorem not_break_append {s s' : String} (h : '\n' ∉ s.toList) (h' : '\n' ∉ s'.toList) :
    '\n' ∉ (s ++ s').toList := by
  rw [String.toList_append, List.mem_append, not_or]
  exact ⟨h, h'⟩

theorem not_break_slot (s : Slot) : '\n' ∉ s.print.toList := by
  cases s with
  | use n => simpa [Slot.print, toString] using not_break_nat n
  | definition n => simpa [Slot.print, toString] using not_break_nat n

theorem not_break_operand {o : Operand} (h : ∀ name ∈ o.names, '\n' ∉ name.toList) :
    '\n' ∉ o.print.toList := by
  cases o with
  | slot s => exact not_break_slot s
  | immediate c => exact not_break_append (s := "$") (by decide) (not_break_int c)
  | memory symbol offset base =>
      have hbase : '\n' ∉ (s!"({base.print})").toList := by
        simpa [toString] using not_break_slot base
      cases symbol with
      | none =>
          refine not_break_append ?_ hbase
          split
          · decide
          · exact not_break_int offset
      | some symbol =>
          refine not_break_append (not_break_append (h symbol (List.mem_singleton_self _)) ?_) hbase
          split
          · decide
          · unfold signed
            split
            · exact not_break_append (s := "+") (by decide) (not_break_int offset)
            · exact not_break_int offset

/-- The text of an operation is one line. -/
theorem not_break_print {l : Line} (h : ∀ name ∈ l.names, '\n' ∉ name.toList) :
    '\n' ∉ l.print.toList := by
  cases l with
  | label l | call l => simp [Line.print, toString, h l (List.mem_singleton_self l)]
  | move s d =>
      obtain ⟨hs, hd⟩ := List.forall_mem_append.1 h
      simp [Line.print, toString, not_break_operand hs, not_break_operand hd]
  | loadAddress a d => simp [Line.print, toString, not_break_operand h, not_break_slot d]
  | loadLabel l d =>
      simp [Line.print, toString, h l (List.mem_singleton_self l), not_break_slot d]
  | arith op s d =>
      cases op <;> simp [Line.print, toString, ArithOp.mnemonic, not_break_operand h,
        not_break_slot d]
  | compare r l => simp [Line.print, toString, not_break_operand h, not_break_slot l]
  | shift op c d =>
      have hcount : '\n' ∉ c.repr.toList := not_break_int c
      cases op <;> simp [Line.print, toString, ShiftOp.mnemonic, hcount, not_break_slot d]
  | shiftByCount op d =>
      cases op <;> simp [Line.print, toString, ShiftOp.mnemonic, not_break_slot d]
  | branch op => cases op <;> decide
  | multiply s | divide s | jumpTo s | callTo s => simp [Line.print, toString, not_break_slot s]
  | signExtend | jump | nothing => decide

end Assembly

/-! ## Filled lines -/

theorem Template.subset_of_piece {kind : Char} {ds digits : List Char}
    (h : .text ds = piece kind digits) : ds ⊆ ['`', kind] := by
  unfold piece at h
  split at h <;> cases h
  · exact List.subset_append_left ['`'] _
  · exact List.Subset.refl _

/-- Pieces of text are made of the characters of the template. -/
theorem Template.subset_of_text_mem_pieces {cs ds : List Char} (h : .text ds ∈ pieces cs) :
    ds ⊆ cs := by
  induction cs using pieces.induct with
  | case1 =>
      rw [pieces] at h
      cases h
  | case2 | case3 =>
      rw [pieces] at h
      cases List.mem_singleton.1 h
      exact List.Subset.refl _
  | case4 kind more _ ih =>
      rw [pieces.eq_def] at h
      simp only [if_pos] at h
      rcases List.mem_cons.1 h with h | h
      · refine List.Subset.trans (subset_of_piece h) ?_
        exact List.cons_subset_cons _ (List.cons_subset_cons _ (List.nil_subset more))
      · refine List.Subset.trans (ih h) ?_
        exact List.subset_cons_of_subset _
          (List.subset_cons_of_subset _ (List.dropWhile_suffix _).subset)
  | case5 c rest _ hc ih =>
      rw [pieces_cons hc] at h
      rcases List.mem_cons.1 h with h | h
      · cases h
        exact List.cons_subset_cons _ (List.nil_subset rest)
      · exact List.subset_cons_of_subset _ (ih h)

namespace Instr

open Assembly

variable {i : Instr} {names : NameMap}

theorem not_break_operandText {ts : List Temp} (h : ∀ t ∈ ts, '\n' ∉ (names.lookup t).toList)
    (n : Nat) : '\n' ∉ (operandText names ts n).toList := by
  unfold operandText
  split
  · exact h _ (List.mem_of_getElem? ‹_›)
  · simpa [toString] using not_break_nat n

/-- A filled line is one line. -/
theorem not_break_fill (htext : '\n' ∉ i.text.toList)
    (hnames : ∀ t ∈ i.defs ++ i.uses, '\n' ∉ (names.lookup t).toList)
    (htargets : ∀ l ∈ i.targets, '\n' ∉ l.toList) : '\n' ∉ (i.fill names).toList := by
  cases hlabel : i.label? with
  | some l =>
      cases i with
      | label text l => exact htext
      | move | oper => cases hlabel
  | none =>
      rw [toList_fill hlabel, List.mem_flatMap]
      rintro ⟨piece, hpiece, hmem⟩
      cases piece with
      | text ds =>
          rw [pieceText, String.toList_ofList] at hmem
          exact htext (Template.subset_of_text_mem_pieces hpiece hmem)
      | hole h =>
          refine absurd hmem ?_
          cases h with
          | use n =>
              exact not_break_operandText (fun t ht => hnames t (List.mem_append_right _ ht)) n
          | definition n =>
              exact not_break_operandText (fun t ht => hnames t (List.mem_append_left _ ht)) n
          | target n =>
              rw [pieceText]
              split
              · exact htargets _ (List.mem_of_getElem? ‹_›)
              · simpa [toString] using not_break_nat n

/-- A filled line has its pieces in order. -/
theorem toList_fill_line {l : Line} (hlabel : i.label? = none) (htext : i.text = l.print)
    (hline : ∀ name ∈ l.names, Resolved name.toList) :
    (i.fill names).toList = l.pieces.flatMap fun p => (i.pieceText names p).toList := by
  rw [toList_fill hlabel, htext, (cut_print hline).pieces_eq]

theorem flatMap_literal (s : String) :
    (Template.literal s).flatMap (fun p => (i.pieceText names p).toList) = s.toList := by
  simp [Template.literal, List.flatMap_map, pieceText]

end Instr

namespace Assembly

/-- All characters are those of a word. -/
def IsWord (name : String) : Prop := ∀ c ∈ name.toList, Token.isWordChar c = true

/-! ## Symbols of lines -/

section Lines

variable {symbol : String} {op : Operation} {ls : List Label} {f : Temp → Temp} {names : NameMap}
  {i : Instr} {l : Label}

/-- A label starts in the first column. -/
theorem IsWord.head?_ne (h : IsWord l) : (l ++ ":").toList.head? ≠ some '\t' := by
  intro hhead
  have hmem : '\t' ∈ (l ++ ":").toList := List.mem_of_mem_head? hhead
  rw [String.toList_append] at hmem
  rcases List.mem_append.1 hmem with hmem | hmem
  · exact absurd (h _ hmem) (by decide)
  · exact absurd hmem (by decide)

theorem definition?_label (h : IsWord l) : definition? (l ++ ":").toList = some l := by
  have hset : ¬ ".set ".toList.isPrefixOf (l ++ ":").toList = true := by
    intro hprefix
    have hmem : ' ' ∈ (l ++ ":").toList := (List.isPrefixOf_iff_prefix.1 hprefix).subset (by decide)
    rw [String.toList_append] at hmem
    rcases List.mem_append.1 hmem with hmem | hmem
    · exact absurd (h _ hmem) (by decide)
    · exact absurd hmem (by decide)
  have hlast : (l ++ ":").toList = l.toList ++ [':'] := String.toList_append
  unfold definition?
  rw [if_neg h.head?_ne, if_neg hset, hlast, List.getLast?_concat, if_pos rfl, List.dropLast_concat,
    String.ofList_toList]

theorem definition?_set (h : IsWord l) (value : String) :
    definition? (".set " ++ l ++ ", " ++ value).toList = some l := by
  have htext : (".set " ++ l ++ ", " ++ value).toList =
      ".set ".toList ++ (l.toList ++ ',' :: ' ' :: value.toList) := by
    simp
  have hword : ∀ c ∈ l.toList, decide (c ≠ ',') = true := by
    intro c hc
    refine decide_eq_true fun heq => ?_
    exact absurd (heq ▸ h c hc) (by decide)
  rw [htext]
  unfold definition?
  rw [if_neg (by simp), if_pos (List.isPrefixOf_iff_prefix.2 (List.prefix_append _ _)),
    List.drop_left, List.takeWhile_append_of_pos hword, List.takeWhile_cons_of_neg (by decide),
    List.append_nil, String.ofList_toList]

theorem definition?_globl (h : IsWord l) : definition? (".globl " ++ l).toList = none := by
  have hlast : (".globl " ++ l).toList.getLast? ≠ some ':' := by
    intro hlast
    have hmem : ':' ∈ (".globl " ++ l).toList := List.mem_of_getLast? hlast
    rw [String.toList_append] at hmem
    rcases List.mem_append.1 hmem with hmem | hmem
    · exact absurd hmem (by decide)
    · exact absurd (h _ hmem) (by decide)
  have hhead : (".globl " ++ l).toList.head? ≠ some '\t' := by simp
  have hset : ¬ ".set ".toList.isPrefixOf (".globl " ++ l).toList = true := by simp
  unfold definition?
  rw [if_neg hhead, if_neg hset, if_neg hlast]

theorem definition?_tab (cs : List Char) : definition? ('\t' :: cs) = none := if_pos rfl

theorem assemblyLine_of_unlabeled (h : i.label? = none) : Output.assemblyLine names i =
    if (i.fill names).isEmpty then "" else "\t" ++ i.fill names ++ "\n" := by
  cases i with
  | label => cases h
  | move | oper => rfl

theorem reads_unlabeled {β : Type} {g : List Char → Option β} (h : i.label? = none)
    (hbreak : '\n' ∉ (i.fill names).toList) :
    Reads g (Output.assemblyLine names i).toList
      (if (i.fill names).isEmpty then [] else (g ('\t' :: (i.fill names).toList)).toList) := by
  rw [assemblyLine_of_unlabeled h]
  split
  · exact reads_nil
  · have hline : '\n' ∉ '\t' :: (i.fill names).toList := by
      rw [List.mem_cons, not_or]
      exact ⟨by decide, hbreak⟩
    have hreads := reads_line (g := g) hline
    have htext : ("\t" ++ i.fill names ++ "\n").toList =
        '\t' :: (i.fill names).toList ++ ['\n'] := by
      simp
    rwa [htext]

/-! ### Jumps -/

theorem jumpTarget?_of_head? {cs : List Char} (h : cs.head? ≠ some '\t') :
    jumpTarget? cs = none := by
  unfold jumpTarget?
  split
  · exact absurd rfl h
  · rfl

theorem jumpTarget?_of_ne {c : Char} (h : c ≠ 'j') (cs : List Char) :
    jumpTarget? ('\t' :: c :: cs) = none := by
  unfold jumpTarget?
  split
  · rename_i heq
    exact absurd (List.cons.inj (List.cons.inj heq).2).1 h
  · rfl

/-- A jump goes to the text behind the blank. -/
theorem jumpTarget?_jump {more : List Char} (hmore : ' ' ∉ more) (cs : List Char) :
    jumpTarget? ('\t' :: 'j' :: (more ++ ' ' :: cs)) =
      if cs.head? = some '*' then none else some (String.ofList cs) := by
  have hword : ∀ c ∈ more, decide (c ≠ ' ') = true := by
    intro c hc
    exact decide_eq_true fun heq => hmore (heq ▸ hc)
  have hdrop : (more ++ ' ' :: cs).dropWhile (· ≠ ' ') = ' ' :: cs := by
    rw [List.dropWhile_append_of_pos hword]
    rfl
  simp only [jumpTarget?, hdrop]
  cases cs with
  | nil => rfl
  | cons c cs =>
      by_cases hc : c = '*'
      · subst hc
        rfl
      · have hhead : (c :: cs).head? ≠ some '*' := fun heq => hc (Option.some.inj heq)
        rw [if_neg hhead, List.drop_succ_cons, List.drop_zero]
        split
        · rename_i heq
          exact absurd (List.cons.inj heq).1 hc
        · rfl

theorem flatMap_unary (m : String) (ps : List Template.Piece) :
    (unary m ps).flatMap (fun p => (i.pieceText names p).toList) =
      m.toList ++ ' ' :: ps.flatMap fun p => (i.pieceText names p).toList := by
  rw [unary, List.flatMap_append, List.flatMap_append, Instr.flatMap_literal, Instr.flatMap_literal]
  rfl

/-- An operation with one or two operands is no jump if its mnemonic does not say so. -/
theorem jumpTarget?_unary {m : String} (hm : m.toList.head?.any (· ≠ 'j') = true)
    (ps : List Template.Piece) :
    jumpTarget? ('\t' :: (unary m ps).flatMap fun p => (i.pieceText names p).toList) = none := by
  rw [flatMap_unary]
  cases hm' : m.toList with
  | nil =>
      rw [hm'] at hm
      cases hm
  | cons c cs =>
      rw [hm'] at hm
      exact jumpTarget?_of_ne (of_decide_eq_true hm) _

theorem exists_jumpMnemonic (op : RelOp) :
    ∃ more, op.jumpMnemonic.toList = 'j' :: more ∧ ' ' ∉ more := by
  cases op <;> exact ⟨_, by simp [RelOp.jumpMnemonic]; rfl, by decide⟩

/-- A jump whose first hole is filled with a label names this one. -/
theorem eq_of_jumpTarget?_hole {m : String} {t : Label} {more : List Char} {ts : List Label}
    (hm : m.toList = 'j' :: more) (hmore : ' ' ∉ more) (htargets : i.targets = t :: ts)
    (h : jumpTarget? ('\t' :: (unary m [.hole (.target 0)]).flatMap fun p =>
      (i.pieceText names p).toList) = some l) : l ∈ i.targets := by
  have hhole : [Template.Piece.hole (.target 0)].flatMap (fun p => (i.pieceText names p).toList) =
      t.toList := by
    simp [Instr.pieceText, htargets]
  rw [flatMap_unary, hhole, hm] at h
  rw [List.cons_append, jumpTarget?_jump hmore] at h
  split at h
  · cases h
  · rw [String.ofList_toList] at h
    obtain rfl := Option.some.inj h
    rw [htargets]
    exact List.mem_cons_self

/-- A jump of an instruction names one of its targets. -/
theorem mem_targets_of_jumpTarget? (hop : op.Within ls) (hsymbol : Resolved symbol.toList)
    (hls : ∀ l ∈ ls, Resolved l.toList) (hlabel : ∀ l, op ≠ .label l)
    (h : jumpTarget? ('\t' :: (((op.instr (.x86_64 symbol)).rename f).fill names).toList) =
      some l) :
    l ∈ ((op.instr (.x86_64 symbol)).rename f).targets := by
  rw [Instr.toList_fill_line (l := op.line symbol)
    (by rw [Instr.label?_rename]; exact op.label?_instr _ hlabel)
    (by rw [Instr.text_rename, op.text_instr]) (resolved_names_line hop hsymbol hls)] at h
  have hnone : ∀ {m : String} {ps : List Template.Piece} {i : Instr},
      m.toList.head?.any (· ≠ 'j') = true →
      jumpTarget? ('\t' :: (unary m ps).flatMap fun p => (i.pieceText names p).toList) = some l →
      False := by
    intro m ps i hm hsome
    rw [jumpTarget?_unary hm] at hsome
    cases hsome
  cases op with
  | label l => exact absurd rfl (hlabel l)
  | branch op t t' =>
      obtain ⟨more, hm, hmore⟩ := exists_jumpMnemonic op
      exact eq_of_jumpTarget?_hole hm hmore (Instr.targets_rename) h
  | jump labels =>
      cases labels with
      | nil => cases hop.jump
      | cons t ts =>
          have hm : "jmp".toList = 'j' :: ['m', 'p'] := by simp
          exact eq_of_jumpTarget?_hole hm (by decide) rfl h
  | jumpTo t labels =>
      -- an address in a register follows a star
      rw [Operation.line, Line.pieces, flatMap_unary, List.flatMap_append,
        Instr.flatMap_literal] at h
      have hm : "jmp".toList = 'j' :: ['m', 'p'] := by simp
      rw [hm, List.cons_append, jumpTarget?_jump (by decide), if_pos (by simp)] at h
      cases h
  | signExtend =>
      have hnojump : jumpTarget? ('\t' :: "cqto".toList) = none := by decide
      rw [Operation.line, Line.pieces, Instr.flatMap_literal, hnojump] at h
      cases h
  | exit => cases h
  | arith op dst right => cases op <;> cases right <;> exact (hnone (by decide) h).elim
  | compare left right => cases right <;> exact (hnone (by decide) h).elim
  | call callee arguments => cases callee <;> exact (hnone (by decide) h).elim
  | shiftConstant op | shift op => cases op <;> exact (hnone (by decide) h).elim
  | _ => exact (hnone (by decide) h).elim

/-! ### Instructions -/

theorem isWord_label (h : (Token.ident l).Spelled) : IsWord l := Token.isWordChar_of_isWord h.1

theorem IsWord.sizeSymbol (h : IsWord l) : IsWord (l ++ "_framesize") := by
  intro c hc
  rw [String.toList_append] at hc
  rcases List.mem_append.1 hc with hc | hc
  · exact h c hc
  · exact List.all_eq_true.1 (by decide : "_framesize".toList.all Token.isWordChar = true) c hc

/-- The line of a label. -/
theorem reads_label {β : Type} {g : List Char → Option β} (h : IsWord l) :
    Reads g (Output.assemblyLine names
      (((Operation.label l).instr (.x86_64 symbol)).rename f)).toList
      (g (l ++ ":").toList).toList := by
  have hbreak : '\n' ∉ (l ++ ":").toList := not_break_append (not_break_of_word h) (by decide)
  have hline := reads_line (g := g) hbreak
  change Reads g ((l ++ ":") ++ "\n").toList _
  rwa [String.toList_append]

/-- The registers of the built-in machine are parts of one line. -/
theorem not_break_register : ∀ name ∈ Machine.x86_64.names, '\n' ∉ ("%" ++ name).toList := by
  decide

/-- An operation with other operands, which have names, is written in one line. -/
theorem not_break_fill_rename (hop : op.Within ls) (hsymbol : IsWord symbol)
    (hls : ∀ l ∈ ls, (Token.ident l).Spelled)
    (hnames : ∀ t ∈ ((op.instr (.x86_64 symbol)).rename f).defs ++
      ((op.instr (.x86_64 symbol)).rename f).uses, Names .x86_64 names t) :
    '\n' ∉ (((op.instr (.x86_64 symbol)).rename f).fill names).toList := by
  have hlabel : ∀ l ∈ op.labels, '\n' ∉ l.toList := fun l hl =>
    not_break_of_word (isWord_label (hls l (hop.labels hl)))
  refine Instr.not_break_fill ?_ (fun t ht => ?_) fun l hl => ?_
  · rw [Instr.text_rename, op.text_instr]
    refine not_break_print fun name hname => ?_
    rcases Operation.mem_names_line hname with rfl | hmem
    · exact not_break_of_word hsymbol
    · exact hlabel name hmem
  · obtain ⟨name, hname, heq⟩ := exists_register (hnames t ht)
    exact heq ▸ not_break_register name hname
  · rw [Instr.targets_rename] at hl
    exact hlabel l (op.targets_subset _ hl)

variable (hop : op.Within ls) (hsymbol : IsWord symbol) (hresolved : Resolved symbol.toList)
  (hls : ∀ l ∈ ls, (Token.ident l).Spelled)
  (hnames : ∀ t ∈ ((op.instr (.x86_64 symbol)).rename f).defs ++
    ((op.instr (.x86_64 symbol)).rename f).uses, Names .x86_64 names t)

include hop hsymbol hls hnames

/-- An instruction defines its label. -/
theorem reads_definition :
    Reads definition? (Output.assemblyLine names ((op.instr (.x86_64 symbol)).rename f)).toList
      ((op.instr (.x86_64 symbol)).rename f).label?.toList := by
  by_cases hlabel : ∃ l, op = .label l
  · obtain ⟨l, rfl⟩ := hlabel
    have hword := isWord_label (hls l (hop.labels (List.mem_singleton_self l)))
    exact (reads_label hword).congr (congrArg Option.toList (definition?_label hword))
  · have hnone : ((op.instr (.x86_64 symbol)).rename f).label? = none := by
      rw [Instr.label?_rename]
      exact op.label?_instr _ fun l hl => hlabel ⟨l, hl⟩
    have hline := reads_unlabeled (g := definition?) hnone
      (not_break_fill_rename hop hsymbol hls hnames)
    rw [definition?_tab, Option.toList_none, ite_self] at hline
    rwa [hnone]

include hresolved

/-- An instruction jumps to its targets. -/
theorem exists_reads_jumpTarget : ∃ ts ⊆ ((op.instr (.x86_64 symbol)).rename f).targets,
    Reads jumpTarget? (Output.assemblyLine names ((op.instr (.x86_64 symbol)).rename f)).toList
      ts := by
  by_cases hlabel : ∃ l, op = .label l
  · obtain ⟨l, rfl⟩ := hlabel
    have hword := isWord_label (hls l (hop.labels (List.mem_singleton_self l)))
    refine ⟨[], List.nil_subset _, (reads_label hword).congr ?_⟩
    exact congrArg Option.toList (jumpTarget?_of_head? hword.head?_ne)
  · have hlabel : ∀ l, op ≠ .label l := fun l hl => hlabel ⟨l, hl⟩
    have hnone : ((op.instr (.x86_64 symbol)).rename f).label? = none := by
      rw [Instr.label?_rename]
      exact op.label?_instr _ hlabel
    refine ⟨_, fun l hl => ?_, reads_unlabeled hnone (not_break_fill_rename hop hsymbol hls hnames)⟩
    split at hl
    · cases hl
    · exact mem_targets_of_jumpTarget? hop hresolved (fun l hl => resolved_label (hls l hl)) hlabel
        (Option.mem_toList.1 hl)

end Lines

/-! ## Procedures -/

section Procedures

variable {a : Allocation}

/-- The lines before the body of a procedure. -/
def entryLines (a : Allocation) : List String :=
  [".globl " ++ a.frame.name, ".set " ++ a.frame.sizeSymbol ++ ", " ++ toString a.frame.size,
    a.frame.name ++ ":", "\tsubq $" ++ toString a.frame.size ++ ", %rsp"]

/-- The lines behind the body of a procedure. -/
def exitLines (a : Allocation) : List String :=
  ["\taddq $" ++ toString a.frame.size ++ ", %rsp", "\tretq", ""]

theorem toList_assemblyOf (a : Allocation) : (Output.assemblyOf a).toList =
    (String.join ((entryLines a).map (· ++ "\n"))).toList ++
      (String.join (a.instrs.map (Output.assemblyLine a.coloring))).toList ++
      (String.join ((exitLines a).map (· ++ "\n"))).toList := by
  have hcolon : ":\n" = ":" ++ "\n" := by decide
  have hrsp : ", %rsp\n" = ", %rsp" ++ "\n" := by decide
  have hret : "\tretq\n\n" = "\tretq" ++ "\n" ++ ("" ++ "\n") := by decide
  unfold Output.assemblyOf entryLines exitLines
  rw [hcolon, hrsp, hret]
  simp only [List.map_cons, List.map_nil, String.join_cons, String.join_nil, ← String.toList_append,
    String.append_assoc, String.append_empty]

variable (hname : IsWord a.frame.name)

include hname

theorem not_break_entryLines : ∀ s ∈ entryLines a, '\n' ∉ s.toList := by
  have hname := not_break_of_word hname
  have hsize := not_break_int a.frame.size
  have hsymbol : '\n' ∉ a.frame.sizeSymbol.toList := not_break_append hname (by decide)
  intro s hs
  simp only [entryLines, List.mem_cons, List.not_mem_nil, or_false] at hs
  obtain rfl | rfl | rfl | rfl := hs
  · exact not_break_append (by decide) hname
  · exact not_break_append (not_break_append (not_break_append (by decide) hsymbol)
      (by decide)) hsize
  · exact not_break_append hname (by decide)
  · exact not_break_append (not_break_append (by decide) hsize) (by decide)

theorem definition?_entryLines :
    (entryLines a).filterMap (fun s => definition? s.toList) =
      [a.frame.sizeSymbol, a.frame.name] := by
  have hsub : definition? ("\tsubq $" ++ toString a.frame.size ++ ", %rsp").toList = none :=
    if_pos (by simp)
  simp only [entryLines, List.filterMap_cons, List.filterMap_nil, definition?_globl hname,
    definition?_set hname.sizeSymbol, definition?_label hname, hsub, Frame.sizeSymbol]

theorem jumpTarget?_entryLines : (entryLines a).filterMap (fun s => jumpTarget? s.toList) = [] := by
  refine List.filterMap_eq_nil_iff.2 fun s hs => ?_
  simp only [entryLines, List.mem_cons, List.not_mem_nil, or_false] at hs
  obtain rfl | rfl | rfl | rfl := hs
  · exact jumpTarget?_of_head? (by simp)
  · exact jumpTarget?_of_head? (by simp)
  · exact jumpTarget?_of_head? hname.head?_ne
  · rw [String.append_assoc, String.toList_append]
    exact jumpTarget?_of_ne (by decide) _

omit hname

theorem not_break_exitLines : ∀ s ∈ exitLines a, '\n' ∉ s.toList := by
  have hsize := not_break_int a.frame.size
  refine List.forall_mem_cons.2 ⟨?_, by decide⟩
  exact not_break_append (not_break_append (by decide) hsize) (by decide)

theorem definition?_exitLines : (exitLines a).filterMap (fun s => definition? s.toList) = [] := by
  refine List.filterMap_eq_nil_iff.2 (List.forall_mem_cons.2 ⟨if_pos (by simp), by decide⟩)

theorem jumpTarget?_exitLines : (exitLines a).filterMap (fun s => jumpTarget? s.toList) = [] := by
  refine List.filterMap_eq_nil_iff.2 (List.forall_mem_cons.2 ⟨?_, by decide⟩)
  rw [String.append_assoc, String.toList_append]
  exact jumpTarget?_of_ne (by decide) _

/-- The text of a procedure, read line by line. -/
theorem reads_assemblyOf {β : Type} {g : List Char → Option β} {bs : Instr → List β}
    (hname : IsWord a.frame.name)
    (hbody : ∀ i ∈ a.instrs, Reads g (Output.assemblyLine a.coloring i).toList (bs i)) :
    Reads g (Output.assemblyOf a).toList
      ((entryLines a).filterMap (fun s => g s.toList) ++ a.instrs.flatMap bs ++
        (exitLines a).filterMap fun s => g s.toList) := by
  rw [toList_assemblyOf]
  exact ((reads_lines (not_break_entryLines hname)).append (reads_join hbody)).append
    (reads_lines not_break_exitLines)

end Procedures

end Assembly

/-! ## Files -/

namespace Procedure

variable {p : Procedure} {ps : List Procedure} {options : AllocOptions} {i : Nat} {a : Allocation}

/-- The symbols of a procedure: its frame size, its entry and the labels of its body. -/
def symbols (p : Procedure) : List Label :=
  (p.name ++ "_framesize") :: p.name :: p.body.flatMap Stm.definedLabels

/-- The text of a procedure defines its symbols, the labels of the body are different, and jumps
stay in the procedure. -/
structure Closes (p : Procedure) (a : Allocation) : Prop where
  definitions : Assembly.definitions (Output.assemblyOf a) = p.symbols
  nodup : (p.body.flatMap Stm.definedLabels).Nodup
  jumps : Assembly.jumpTargets (Output.assemblyOf a) ⊆ p.body.flatMap Stm.definedLabels

section Code

variable {ops : List Operation} {final : List (Operation × (Temp → Temp))}
  {slots : List (Temp × Int)} (hcode : CodeOf p .x86_64 a ops final slots)
  (hspelled : AllSpelled p.tokens)

include hcode

theorem CodeOf.definedLabels : labelsOf a.instrs = p.body.flatMap Stm.definedLabels :=
  hcode.labels.trans (label?_flatMap_marks p.body)

include hspelled

theorem CodeOf.isWord_name : IsWord a.frame.name :=
  hcode.name ▸ isWord_label (hspelled (.ident p.name) (by simp [Procedure.tokens]))

theorem CodeOf.reads_symbols : Reads definition? (Output.assemblyOf a).toList p.symbols := by
  have hname := hcode.isWord_name hspelled
  have hword : IsWord a.frame.sizeSymbol := hname.sizeSymbol
  have hlabels : ∀ l ∈ p.labels, (Token.ident l).Spelled := fun l hl => hspelled _ (mem_labels hl)
  have hbody : ∀ j ∈ a.instrs,
      Reads definition? (Output.assemblyLine a.coloring j).toList j.label?.toList := by
    intro j hj
    have hnamed := hcode.named j hj
    obtain ⟨op, f, hop, rfl⟩ := hcode.exists_operation hj
    exact reads_definition hop hword hlabels hnamed
  refine (reads_assemblyOf hname hbody).congr ?_
  rw [definition?_entryLines hname, definition?_exitLines, ← List.filterMap_eq_flatMap_toList]
  change _ ++ labelsOf a.instrs ++ _ = _
  rw [hcode.definedLabels, List.append_nil, Frame.sizeSymbol, hcode.name]
  rfl

/-- Jumps stand in the body only, and lead to labels of the code. -/
theorem CodeOf.jumpTargets_subset :
    jumpTargets (Output.assemblyOf a) ⊆ p.body.flatMap Stm.definedLabels := by
  have hname := hcode.isWord_name hspelled
  have hword : IsWord a.frame.sizeSymbol := hname.sizeSymbol
  have hlabels : ∀ l ∈ p.labels, (Token.ident l).Spelled := fun l hl => hspelled _ (mem_labels hl)
  have hresolved : Resolved a.frame.sizeSymbol.toList := by
    rw [Frame.sizeSymbol, hcode.name]
    exact resolved_sizeSymbol (hspelled (.ident p.name) (by simp [Procedure.tokens]))
  have hjumps : ∀ j ∈ a.instrs,
      Reads jumpTarget? (Output.assemblyLine a.coloring j).toList
        (jumpTargets (Output.assemblyLine a.coloring j)) ∧
      jumpTargets (Output.assemblyLine a.coloring j) ⊆ j.targets := by
    intro j hj
    have hnamed := hcode.named j hj
    obtain ⟨op, f, hop, rfl⟩ := hcode.exists_operation hj
    obtain ⟨ts, hts, hreads⟩ :=
      exists_reads_jumpTarget hop hword hresolved hlabels hnamed
    have hall : jumpTargets _ = ts := hreads.all rfl
    rw [hall]
    exact ⟨hreads, hts⟩
  have hreads := reads_assemblyOf (g := jumpTarget?) hname fun j hj => (hjumps j hj).1
  have hall : jumpTargets (Output.assemblyOf a) = _ := hreads.all rfl
  intro l hl
  rw [hall, jumpTarget?_entryLines hname, jumpTarget?_exitLines, List.nil_append,
    List.append_nil] at hl
  obtain ⟨j, hj, hl⟩ := List.mem_flatMap.1 hl
  rw [← hcode.definedLabels]
  exact hcode.targets j hj l ((hjumps j hj).2 hl)

end Code

theorem closes_of_compile (hspelled : AllSpelled p.tokens) (hp : ps[i]? = some p)
    (hok : (p.compile .x86_64 options (namerAt ps .x86_64 options i)).1.outcome = .ok a) :
    Closes p a ∧ Reads definition? (Output.assemblyOf a).toList p.symbols := by
  obtain ⟨ops, final, slots, hcode⟩ := exists_codeOf hp hok
  have hreads := hcode.reads_symbols hspelled
  exact ⟨⟨hreads.all rfl, hcode.definedLabels ▸ hcode.nodup, hcode.jumpTargets_subset hspelled⟩,
    hreads⟩

/-- All symbols of a list of procedures differ if those of each procedure do, and no two procedures
share one. -/
theorem nodup_flatMap_symbols (hbodies : ∀ p ∈ ps, (p.body.flatMap Stm.definedLabels).Nodup) :
    (ps.flatMap symbols).Nodup ↔
      (∀ p ∈ ps, p.name ∉ p.body.flatMap Stm.definedLabels ∧
        p.name ++ "_framesize" ∉ p.body.flatMap Stm.definedLabels) ∧
      ps.Pairwise fun p q => p.symbols.Disjoint q.symbols := by
  have hdifferent : ∀ p : Procedure, p.name ++ "_framesize" ≠ p.name := by
    intro p h
    have hlength := congrArg String.length h
    rw [String.length_append] at hlength
    exact absurd hlength (by simp)
  rw [List.nodup_flatMap]
  refine and_congr (forall₂_congr fun p hp => ?_) Iff.rfl
  rw [symbols, List.nodup_cons, List.nodup_cons, List.mem_cons, not_or]
  simp [hdifferent p, hbodies p hp, and_comm]

/-- Each procedure's text defines its symbols only once if its own labels are not among its name and
the symbol of its frame size, and jumps stay in the procedure.  The whole text defines a symbol
twice exactly if this fails or two procedures share one. -/
theorem symbols_of_assembly {text : String} {as : List Allocation}
    (hparse : parseText .x86_64 text = .ok ps)
    (hok : Attempt.allocations? (compileFile ps .x86_64 options).1 = some as) :
    definitions (Output.assembly as) = ps.flatMap symbols ∧
      List.Forall₂ Closes ps as ∧
      ((definitions (Output.assembly as)).Nodup ↔
        (∀ p ∈ ps, p.name ∉ p.body.flatMap Stm.definedLabels ∧
          p.name ++ "_framesize" ∉ p.body.flatMap Stm.definedLabels) ∧
        ps.Pairwise fun p q => p.symbols.Disjoint q.symbols) := by
  have hall : List.Forall₂ (fun p a => Closes p a ∧
      Reads definition? (Output.assemblyOf a).toList p.symbols) ps as :=
    forall₂_of_compile hok fun i p a hp hout => closes_of_compile
      (fun t ht => (printable_of_parseText hparse _ (List.mem_of_getElem? hp) t ht).1) hp hout
  have hdefinitions : definitions (Output.assembly as) = ps.flatMap symbols :=
    (reads_joinAll (hall.imp fun _ _ h => h.2)).all rfl
  have hnodup : ∀ p ∈ ps, (p.body.flatMap Stm.definedLabels).Nodup :=
    ((List.forall₂_and_left _ _).1 (hall.imp fun _ _ h => ⟨h.1.nodup, h⟩)).1
  exact ⟨hdefinitions, hall.imp fun _ _ h => h.1, hdefinitions ▸ nodup_flatMap_symbols hnodup⟩

/-- A jump within the first of two procedures. -/
theorem symbols_of_assembly_jump : ∃ ps as,
    parseText .x86_64
      "proc f frame 0 \x7b JUMP(NAME L) LABEL L \x7d proc g frame 0 \x7b LABEL M \x7d" = .ok ps ∧
    Attempt.allocations? (compileFile ps .x86_64 {}).1 = some as ∧ as.length = 2 ∧
    definitions (Output.assembly as) = ps.flatMap symbols ∧
      List.Forall₂ Closes ps as ∧
      ((definitions (Output.assembly as)).Nodup ↔
        (∀ p ∈ ps, p.name ∉ p.body.flatMap Stm.definedLabels ∧
          p.name ++ "_framesize" ∉ p.body.flatMap Stm.definedLabels) ∧
        ps.Pairwise fun p q => p.symbols.Disjoint q.symbols) := by
  have hparse : parseText .x86_64
      "proc f frame 0 \x7b JUMP(NAME L) LABEL L \x7d proc g frame 0 \x7b LABEL M \x7d" =
        .ok [⟨"f", 0, [.jump (.name "L") [], .label "L"]⟩, ⟨"g", 0, [.label "M"]⟩] := by
    decide +kernel
  have hcompiles : (Attempt.allocations? (compileFile
      [⟨"f", 0, [.jump (.name "L") [], .label "L"]⟩, ⟨"g", 0, [.label "M"]⟩] .x86_64 {}).1).any
        (fun as => as.length = 2) = true := by
    decide +kernel
  obtain ⟨as, hok, hlength⟩ := (Option.any_eq_true ..).1 hcompiles
  exact ⟨_, as, hparse, hok, of_decide_eq_true hlength, symbols_of_assembly hparse hok⟩

/-- Two procedures with one label: their text defines it twice. -/
theorem symbol_defined_twice : ∃ ps as,
    parseText .x86_64 "proc f frame 0 \x7b LABEL L \x7d proc g frame 0 \x7b LABEL L \x7d" = .ok ps ∧
    Attempt.allocations? (compileFile ps .x86_64 {}).1 = some as ∧
    definitions (Output.assembly as) = ["f_framesize", "f", "L", "g_framesize", "g", "L"] ∧
    ¬ (definitions (Output.assembly as)).Nodup := by
  have hparse : parseText .x86_64
      "proc f frame 0 \x7b LABEL L \x7d proc g frame 0 \x7b LABEL L \x7d" =
        .ok [⟨"f", 0, [.label "L"]⟩, ⟨"g", 0, [.label "L"]⟩] := by
    decide +kernel
  have hcompiles : (Attempt.allocations? (compileFile
      [⟨"f", 0, [.label "L"]⟩, ⟨"g", 0, [.label "L"]⟩] .x86_64 {}).1).any
        (fun as => definitions (Output.assembly as) =
          ["f_framesize", "f", "L", "g_framesize", "g", "L"]) = true := by
    decide +kernel
  obtain ⟨as, hok, hdefinitions⟩ := (Option.any_eq_true ..).1 hcompiles
  have hdefinitions := of_decide_eq_true hdefinitions
  exact ⟨_, as, hparse, hok, hdefinitions, by rw [hdefinitions]; decide⟩

end Procedure

end TreeCompiler
