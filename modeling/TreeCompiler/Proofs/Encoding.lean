import TreeCompiler.Proofs.AssemblyText

/-!
# Encoding — which numbers in assembly text fit their fields

Immediates and displacements are 32 bits; only a constant that is moved to a register may have more.
A displacement from the frame pointer is added to the frame size, which nothing limits and which the
tiles do not know.  Each number is one that a tile has checked, the slot of a spilled temp, or the
place of an argument (`Assembly.Operand.Source`).  So all fit exactly if the frame size, the area
for arguments and the sums do.  Where the locals have no negative size and the frame is in the range
of its numbers, they fit exactly if none of the sums exceeds the field
(`Procedure.fields_fit_iff`).  The frame size itself may not fit (`Procedure.frame_size_wide`).
-/

namespace TreeCompiler

open Selection Allocation Assembly

/-! ## Words for arguments -/

namespace Selection

variable {target : Target} {ms ms' : List Mark}

/-- Arguments are stored in the words that room is reserved for, and in all of them. -/
structure Paired (ms : List Mark) : Prop where
  reserved : ∀ slot, .passed slot ∈ ms → ∃ n, .room n ∈ ms ∧ slot < n
  used : ∀ n, .room n ∈ ms → ∀ slot < n, .passed slot ∈ ms

theorem Paired.append (h : Paired ms) (h' : Paired ms') : Paired (ms ++ ms') where
  reserved slot hslot := by
    rcases List.mem_append.1 hslot with hslot | hslot
    · obtain ⟨n, hn, hlt⟩ := h.reserved slot hslot
      exact ⟨n, List.mem_append_left _ hn, hlt⟩
    · obtain ⟨n, hn, hlt⟩ := h'.reserved slot hslot
      exact ⟨n, List.mem_append_right _ hn, hlt⟩
  used n hn slot hslot := by
    rcases List.mem_append.1 hn with hn | hn
    · exact List.mem_append_left _ (h.used n hn slot hslot)
    · exact List.mem_append_right _ (h'.used n hn slot hslot)

theorem paired_nil : Paired [] := ⟨nofun, nofun⟩

theorem paired_label (l : Label) : Paired [.label l] := ⟨by simp, by simp⟩

theorem paired_mention (ls : List Label) : Paired [.mention ls] := ⟨by simp, by simp⟩

theorem paired_passingMarks (target : Target) (count : Nat) :
    Paired (passingMarks target count) := by
  refine ⟨by simp [passingMarks], fun n hn slot hslot => ?_⟩
  have hcount : n = count - target.machine.roles.arguments.length := by
    simpa [passingMarks] using hn
  simp only [passingMarks, ← hcount, List.mem_append, List.mem_map, List.mem_range'_1]
  exact .inl ⟨slot, by omega, rfl⟩

theorem paired_callMarks {f : Exp} {function arguments : List Mark} (hf : Paired function)
    (hargs : Paired arguments) (count : Nat) :
    Paired (callMarks target f function arguments count) := by
  have hpassing := paired_passingMarks target count
  unfold callMarks
  split
  · exact hargs.append (hpassing.append (paired_mention _))
  · exact hf.append (hargs.append hpassing)

theorem paired_jumpMarks {e : Exp} {address : List Mark} (h : Paired address)
    (labels : List Label) :
    Paired (jumpMarks e address labels) := by
  unfold jumpMarks
  split
  · exact paired_mention _
  · exact h.append (paired_mention _)

mutual

theorem paired_expression : ∀ e : Exp, Paired (e.marks target)
  | .binop _ l r => (paired_expression l).append (paired_expression r)
  | .mem a => paired_expression a
  | .temp _ => paired_nil
  | .eseq s e => (paired_statement s).append (paired_expression e)
  | .name _ => paired_mention _
  | .const _ => paired_nil
  | .call f args => paired_callMarks (paired_expression f) (paired_expressions args) args.length

theorem paired_expressions : ∀ es : List Exp, Paired (Exp.marksAll target es)
  | [] => paired_nil
  | e :: es => (paired_expression e).append (paired_expressions es)

theorem paired_statement : ∀ s : Stm, Paired (s.marks target)
  | .seq a b => (paired_statement a).append (paired_statement b)
  | .label l => paired_label l
  | .jump e labels => paired_jumpMarks (paired_expression e) labels
  | .cjump _ l r _ _ =>
      (paired_expression l).append ((paired_expression r).append (paired_mention _))
  | .move d s => (paired_expression d).append (paired_expression s)
  | .exp e => paired_expression e

end

theorem paired_body (body : List Stm) : Paired (body.flatMap (Stm.marks target)) := by
  induction body with
  | nil => exact paired_nil
  | cons s rest ih => exact (paired_statement s).append ih

/-! ### The room -/

/-- The room is the widest that is asked for. -/
theorem foldl_widen (ms : List Mark) (n : Nat) : n ≤ ms.foldl Mark.widen n ∧
    (∀ k, Mark.room k ∈ ms → k ≤ ms.foldl Mark.widen n) ∧
    (ms.foldl Mark.widen n = n ∨ Mark.room (ms.foldl Mark.widen n) ∈ ms) := by
  induction ms generalizing n with
  | nil => exact ⟨Nat.le_refl n, nofun, .inl rfl⟩
  | cons mark ms ih =>
      obtain ⟨hle, hroom, hwidest⟩ := ih (Mark.widen n mark)
      rw [List.foldl_cons]
      -- only a mark of room changes the width, and to the wider of the two
      cases mark with
      | room k =>
          refine ⟨Nat.le_trans (Nat.le_max_left n k) hle, fun k' hk' => ?_, ?_⟩
          · rcases List.mem_cons.1 hk' with heq | hk'
            · cases heq
              exact Nat.le_trans (Nat.le_max_right n k) hle
            · exact hroom k' hk'
          · rcases hwidest with heq | hmem
            · rw [heq]
              change max n k = n ∨ Mark.room (max n k) ∈ _
              rcases Nat.le_total k n with hk | hk
              · exact .inl (Nat.max_eq_left hk)
              · rw [Nat.max_eq_right hk]
                exact .inr List.mem_cons_self
            · exact .inr (List.mem_cons_of_mem _ hmem)
      | label | mention | passed =>
          refine ⟨hle, fun k hk => hroom k ((List.mem_cons.1 hk).resolve_left nofun), ?_⟩
          exact hwidest.imp id (List.mem_cons_of_mem _)

end Selection

namespace Procedure

variable {p : Procedure} {m : Machine} {slot : Nat}

/-- The words that arguments are stored in are those of the widest call. -/
theorem passed_mem_marks_iff : Mark.passed slot ∈ p.marks m ↔ slot < widestCall m p.body := by
  have hpaired : Paired (p.marks m) := paired_body p.body
  have hwidest : (p.marks m).foldl Mark.widen 0 = widestCall m p.body :=
    foldl_widen_eq_widestCall p.body
  obtain ⟨-, hroom, hreached⟩ := foldl_widen (p.marks m) 0
  rw [hwidest] at hroom hreached
  constructor
  · intro h
    obtain ⟨n, hn, hlt⟩ := hpaired.reserved slot h
    exact Nat.lt_of_lt_of_le hlt (hroom n hn)
  · intro h
    refine hpaired.used _ (hreached.resolve_left fun hzero => ?_) slot h
    rw [hzero] at h
    exact Nat.not_lt_zero slot h

end Procedure

namespace Selection

variable {target : Target} {op : Operation} {ops : List Operation} {ms : List Mark} {slot : Nat}

/-- Numbers in operations fit their fields, except in stores of arguments. -/
theorem MarkedAll.fits (h : MarkedAll target ops ms) (hop : op ∈ ops) : op.Fits ∨
    ∃ (v : Temp) (slot : Nat), Mark.passed slot ∈ ms ∧
      op = .store v (argumentAddress target slot) := by
  induction h with
  | nil => cases hop
  | @cons op' ops ms ms' hmarked _ ih =>
      rcases List.mem_cons.1 hop with rfl | hop
      · cases hmarked with
        | label l => exact .inl trivial
        | plain hfits | mention hfits => exact .inl hfits
        | argument v slot => exact .inr ⟨v, slot, List.mem_cons_self, rfl⟩
      · refine (ih hop).imp id ?_
        rintro ⟨v, slot, hslot, rfl⟩
        exact ⟨v, slot, List.mem_append_right _ hslot, rfl⟩
  | room n _ ih =>
      refine (ih hop).imp id ?_
      rintro ⟨v, slot, hslot, rfl⟩
      exact ⟨v, slot, List.mem_cons_of_mem _ hslot, rfl⟩

/-- Each word for an argument is stored to. -/
theorem MarkedAll.exists_store (h : MarkedAll target ops ms) (hslot : Mark.passed slot ∈ ms) :
    ∃ v, .store v (argumentAddress target slot) ∈ ops := by
  induction h with
  | nil => cases hslot
  | @cons op ops ms ms' hmarked _ ih =>
      rcases List.mem_append.1 hslot with hslot | hslot
      · cases hmarked with
        | argument v slot' =>
            cases List.mem_singleton.1 hslot
            exact ⟨v, List.mem_cons_self⟩
        | label | mention => cases List.mem_singleton.1 hslot
        | plain => cases hslot
      · obtain ⟨v, hv⟩ := ih hslot
        exact ⟨v, List.mem_cons_of_mem _ hv⟩
  | room n _ ih => exact ih ((List.mem_cons.1 hslot).resolve_left nofun)

end Selection

/-! ## Numbers in lines -/

namespace Assembly

/-- The numbers in an operand, where the symbol of the frame size has a value. -/
def Operand.fields (size : Int) : Operand → List Int
  | .slot _ => []
  | .immediate c => [c]
  | .memory none offset _ => [offset]
  | .memory (some _) offset _ => [size + offset]

/-- The offset that is added to the symbol of the frame size. -/
def Operand.frameOffsets : Operand → List Int
  | .memory (some _) offset _ => [offset]
  | _ => []

/-- The operands whose numbers have 32 bits; a constant that is moved to a register has more
room. -/
def Line.operands : Line → List Operand
  | .move (.immediate _) (.slot _) => []
  | .move s d => [s, d]
  | .loadAddress a _ => [a]
  | .arith _ s _ => [s]
  | .compare r _ => [r]
  | _ => []

def Line.fields (size : Int) (l : Line) : List Int := l.operands.flatMap (Operand.fields size)

def Line.frameOffsets (l : Line) : List Int := l.operands.flatMap Operand.frameOffsets

/-- Where the number of an operand comes from, given the symbol of the frame size, the slots of
spilled temps and how many arguments are passed in memory. -/
inductive Operand.Source (symbol : String) (slots : List Int) (count : Nat) : Operand → Prop
  | slot (s : Slot) : Source symbol slots count (.slot s)
  | immediate {c : Int} (h : isImm32 c = true) : Source symbol slots count (.immediate c)
  | base {offset : Int} (s : Slot) (h : isImm32 offset = true) :
      Source symbol slots count (.memory none offset s)
  | frame {offset : Int} (s : Slot) (h : isImm32 offset = true) :
      Source symbol slots count (.memory (some symbol) offset s)
  | spilled {offset : Int} (s : Slot) (h : offset ∈ slots) :
      Source symbol slots count (.memory (some symbol) offset s)
  | argument {n : Nat} (s : Slot) (h : n < count) :
      Source symbol slots count (.memory none (wrap64 (n * 8)) s)

section Source

variable {symbol : String} {slots : List Int} {count : Nat} {o : Operand} {size n offset : Int}

theorem Operand.Source.fields (h : o.Source symbol slots count) (hn : n ∈ o.fields size) :
    isImm32 n = true ∨ (∃ offset ∈ o.frameOffsets, n = size + offset) ∨
      ∃ k : Nat, k < count ∧ n = wrap64 (k * 8) := by
  cases h with
  | slot => cases hn
  | immediate h | base _ h =>
      rw [List.mem_singleton.1 hn]
      exact .inl h
  | frame | spilled => exact .inr (.inl ⟨_, List.mem_cons_self, List.mem_singleton.1 hn⟩)
  | argument _ hlt => exact .inr (.inr ⟨_, hlt, List.mem_singleton.1 hn⟩)

theorem Operand.Source.frameOffsets (h : o.Source symbol slots count)
    (hoffset : offset ∈ o.frameOffsets) : isImm32 offset = true ∨ offset ∈ slots := by
  cases h with
  | slot | immediate | base | argument => cases hoffset
  | frame _ h =>
      rw [List.mem_singleton.1 hoffset]
      exact .inl h
  | spilled _ h =>
      rw [List.mem_singleton.1 hoffset]
      exact .inr h

theorem Operand.Source.names (h : o.Source symbol slots count) : ∀ s ∈ o.names, s = symbol := by
  cases h with
  | slot | immediate | base | argument => exact nofun
  | frame | spilled => exact fun s hs => List.mem_singleton.1 hs

theorem Operand.add_mem_fields (h : offset ∈ o.frameOffsets) : size + offset ∈ o.fields size := by
  cases o with
  | slot | immediate => cases h
  | memory symbol offset' s =>
      cases symbol with
      | none => cases h
      | some symbol =>
          rw [List.mem_singleton.1 h]
          exact List.mem_cons_self

theorem source_pair {o o' : Operand} (h : o.Source symbol slots count)
    (h' : o'.Source symbol slots count) : ∀ x ∈ [o, o'], x.Source symbol slots count :=
  List.forall_mem_cons.2 ⟨h, List.forall_mem_singleton.2 h'⟩

end Source

end Assembly

section Operations

variable {symbol : String} {slots : List Int} {count : Nat} {op : Operation} {a : Address} {k : Nat}

theorem Address.Fits.source (h : a.Fits) : (a.operand symbol k).Source symbol slots count := by
  cases a with
  | frame offset => exact .frame _ h
  | base t offset => exact .base _ h

/-- Operands of operations that fit. -/
theorem Operation.Fits.source (h : op.Fits) :
    ∀ o ∈ (op.line symbol).operands, o.Source symbol slots count := by
  cases op with
  | copy dst src => exact source_pair (.slot _) (.slot _)
  | frameAddress dst offset => exact List.forall_mem_singleton.2 (.frame _ h)
  | load dst a =>
      have ha : (a.operand symbol 0).Source symbol slots count := Address.Fits.source h
      cases a <;> exact source_pair ha (.slot _)
  | store src a => exact source_pair (.slot _) (Address.Fits.source h)
  | storeConstant c a =>
      have ha : (a.operand symbol 0).Source symbol slots count := Address.Fits.source h.2
      cases a <;> exact source_pair (.immediate h.1) ha
  | arith op dst right =>
      cases right with
      | imm c => exact List.forall_mem_singleton.2 (.immediate h)
      | temp t => exact List.forall_mem_singleton.2 (.slot _)
  | compare left right =>
      cases right with
      | imm c => exact List.forall_mem_singleton.2 (.immediate h)
      | temp t => exact List.forall_mem_singleton.2 (.slot _)
  | call callee arguments => cases callee <;> exact nofun
  | _ => exact nofun

/-- Operands of code that is inserted for spilled temps. -/
theorem Insertion.source {what : Insertion} {b c : Temp}
    (h : ∀ offset, what.slot? = some offset → offset ∈ slots) :
    ∀ o ∈ ((what.operation b c).line symbol).operands, o.Source symbol slots count := by
  cases what with
  | loadSlot offset => exact source_pair (.spilled _ (h _ rfl)) (.slot _)
  | storeSlot offset => exact source_pair (.slot _) (.spilled _ (h _ rfl))
  | frameAddress | constant | copy | add | loadAt | storeAt =>
      exact Operation.Fits.source (by trivial)

end Operations

/-! ## Numbers in the text of a procedure -/

namespace Assembly

/-- The lines that the body of a procedure is written as; the only symbol in memory operands is that
of the frame size. -/
structure Written (a : Allocation) (lines : List Line) : Prop where
  text : a.instrs.map Instr.text = lines.map Line.print
  symbols : ∀ l ∈ lines, ∀ o ∈ l.operands, ∀ s ∈ o.names, s = a.frame.sizeSymbol

/-- The frame size, which the stack pointer moves by on entry and on exit, and all numbers of the
body fit their fields. -/
def FieldsFit (a : Allocation) (lines : List Line) : Prop :=
  ∀ n ∈ a.frame.size :: lines.flatMap (Line.fields a.frame.size), isImm32 n = true

variable {a : Allocation} {lines : List Line} {slots : List Int} {count : Nat}

theorem fieldsFit_iff (h : ∀ l ∈ lines, ∀ o ∈ l.operands, o.Source a.frame.sizeSymbol slots count)
    (hstored : ∀ k : Nat, k < count → wrap64 (k * 8) ∈ lines.flatMap (Line.fields a.frame.size)) :
    FieldsFit a lines ↔ isImm32 a.frame.size = true ∧ 8 * count ≤ 2 ^ 31 ∧
      ∀ offset ∈ lines.flatMap Line.frameOffsets, isImm32 (a.frame.size + offset) = true := by
  constructor
  · intro hfit
    obtain ⟨hsize, hlines⟩ := List.forall_mem_cons.1 hfit
    refine ⟨hsize, ?_, fun offset hoffset => hlines _ ?_⟩
    · -- the first word out of reach would be among the fields
      by_contra hcount
      have hfits := (isImm32_iff.1 (hlines _ (hstored (2 ^ 28) (by omega)))).2
      unfold wrap64 at hfits
      omega
    · obtain ⟨l, hl, hoffset⟩ := List.mem_flatMap.1 hoffset
      obtain ⟨o, ho, hoffset⟩ := List.mem_flatMap.1 hoffset
      exact List.mem_flatMap.2 ⟨l, hl, List.mem_flatMap.2 ⟨o, ho, Operand.add_mem_fields hoffset⟩⟩
  · rintro ⟨hsize, hcount, hoffsets⟩
    refine List.forall_mem_cons.2 ⟨hsize, fun n hn => ?_⟩
    obtain ⟨l, hl, hn⟩ := List.mem_flatMap.1 hn
    obtain ⟨o, ho, hn⟩ := List.mem_flatMap.1 hn
    rcases (h l hl o ho).fields hn with hfits | ⟨offset, hoffset, rfl⟩ | ⟨k, hk, heq⟩
    · exact hfits
    · exact hoffsets offset (List.mem_flatMap.2 ⟨l, hl, List.mem_flatMap.2 ⟨o, ho, hoffset⟩⟩)
    · rw [heq, wrap64_eq_self (by omega) (by omega)]
      exact isImm32_iff.2 ⟨by omega, by omega⟩

/-- Where the locals have no negative size and the frame size is in range, a number that does not
fit is too large, and is the frame size or added to it. -/
theorem fieldsFit_iff_of_nonneg {localsSize : Int} {places : List (Temp × Int)}
    (h : ∀ l ∈ lines, ∀ o ∈ l.operands,
      o.Source a.frame.sizeSymbol (places.map Prod.snd) count)
    (hstored : ∀ k : Nat, k < count → wrap64 (k * 8) ∈ lines.flatMap (Line.fields a.frame.size))
    (hlayout : Layout .x86_64 localsSize a places) (houtgoing : a.frame.outgoingSize = 8 * count)
    (hlocals : 0 ≤ localsSize)
    (hrange : localsSize + a.frame.outgoingSize + 8 * (a.spilled.length : Int) < 2 ^ 63) :
    FieldsFit a lines ↔ a.frame.size < 2 ^ 31 ∧
      ∀ offset ∈ lines.flatMap Line.frameOffsets, a.frame.size + offset < 2 ^ 31 := by
  obtain ⟨hsize, -, hexact⟩ := hlayout.inRange (by omega) hrange
  have hspilled := Machine.x86_64.words_nonneg a.spilled.length
  rw [fieldsFit_iff h hstored]
  refine ⟨fun ⟨hfits, _, hoffsets⟩ => ⟨(isImm32_iff.1 hfits).2, fun offset hoffset =>
    (isImm32_iff.1 (hoffsets offset hoffset)).2⟩, fun ⟨hlt, hoffsets⟩ => ?_⟩
  refine ⟨isImm32_iff.2 ⟨by omega, hlt⟩, by omega, fun offset hoffset =>
    isImm32_iff.2 ⟨?_, hoffsets offset hoffset⟩⟩
  -- slots are inside the frame, so no number is too small
  obtain ⟨l, hl, hoffset⟩ := List.mem_flatMap.1 hoffset
  obtain ⟨o, ho, hoffset⟩ := List.mem_flatMap.1 hoffset
  rcases (h l hl o ho).frameOffsets hoffset with hfits | hslot
  · have hlow := (isImm32_iff.1 hfits).1
    omega
  · obtain ⟨e, he, rfl⟩ := List.mem_map.1 hslot
    have hlow := (hlayout.within e he).1
    rw [hexact e he] at hlow
    omega

end Assembly

namespace Procedure

variable {p : Procedure} {ps : List Procedure} {options : AllocOptions} {a : Allocation}
  {ops : List Operation} {final : List (Operation × (Temp → Temp))} {slots : List (Temp × Int)}

/-- Where the numbers of allocated code come from. -/
theorem CodeOf.source (h : CodeOf p .x86_64 a ops final slots) (symbol : String) :
    ∀ e ∈ final, ∀ o ∈ (e.1.line symbol).operands,
      o.Source symbol (slots.map Prod.snd) (widestCall .x86_64 p.body) := by
  intro e he
  rcases h.origin e he with hop | hexit | ⟨what, b, c, heq, hslot⟩
  · rcases h.marked.fits hop with hfits | ⟨v, slot, hslot, heq⟩
    · exact hfits.source
    · rw [heq]
      exact source_pair (.slot _) (.argument _ (passed_mem_marks_iff.1 hslot))
  · rw [hexit]
    exact nofun
  · rw [heq]
    exact Insertion.source hslot

theorem CodeOf.written (h : CodeOf p .x86_64 a ops final slots) :
    Written a (final.map fun e => e.1.line a.frame.sizeSymbol) where
  text := by
    rw [h.instrs, List.map_map, List.map_map]
    refine List.map_congr_left fun e _ => ?_
    rw [Function.comp_apply, Function.comp_apply, Instr.text_rename, h.target_eq,
      Operation.text_instr]
  symbols l hl o ho := by
    obtain ⟨e, he, rfl⟩ := List.mem_map.1 hl
    exact (h.source _ e he o ho).names

/-- Each word for arguments is stored to. -/
theorem CodeOf.mem_fields {k : Nat} (h : CodeOf p .x86_64 a ops final slots)
    (hk : k < widestCall .x86_64 p.body) (symbol : String) (size : Int) :
    wrap64 (k * 8) ∈ (final.map fun e => e.1.line symbol).flatMap (Line.fields size) := by
  obtain ⟨v, hv⟩ := h.marked.exists_store (passed_mem_marks_iff.2 hk)
  obtain ⟨e, he, heq⟩ := h.kept _ hv rfl
  refine List.mem_flatMap.2 ⟨_, List.mem_map_of_mem he, ?_⟩
  rw [heq]
  exact List.mem_cons_self

/-- All numbers in the text of a procedure fit their fields exactly if the frame size, the area for
arguments and all displacements from the frame pointer do.  Where the locals have no negative size
and the frame is not too large for its numbers, the frame size and the displacements from the frame
pointer need only not be too large. -/
theorem fields_fit_iff {as : List Allocation}
    (hok : Attempt.allocations? (compileFile ps .x86_64 options).1 = some as) :
    List.Forall₂ (fun p a => ∃ lines, Written a lines ∧
      (FieldsFit a lines ↔ isImm32 a.frame.size = true ∧ 8 * widestCall .x86_64 p.body ≤ 2 ^ 31 ∧
        ∀ offset ∈ lines.flatMap Line.frameOffsets, isImm32 (a.frame.size + offset) = true) ∧
      (0 ≤ p.localsSize →
        p.localsSize + 8 * ((widestCall .x86_64 p.body + a.spilled.length : Nat) : Int) < 2 ^ 63 →
        (FieldsFit a lines ↔ a.frame.size < 2 ^ 31 ∧
          ∀ offset ∈ lines.flatMap Line.frameOffsets, a.frame.size + offset < 2 ^ 31))) ps as := by
  refine forall₂_of_compile hok fun i p a hp hout => ?_
  obtain ⟨ops, final, slots, hcode⟩ := exists_codeOf hp hout
  have hsource : ∀ l ∈ final.map fun e => e.1.line a.frame.sizeSymbol, ∀ o ∈ l.operands,
      o.Source a.frame.sizeSymbol (slots.map Prod.snd) (widestCall .x86_64 p.body) := by
    intro l hl
    obtain ⟨e, he, rfl⟩ := List.mem_map.1 hl
    exact hcode.source _ e he
  have hstored := fun k hk => hcode.mem_fields (k := k) hk a.frame.sizeSymbol a.frame.size
  refine ⟨_, hcode.written, fieldsFit_iff hsource hstored, fun hlocals hrange => ?_⟩
  have hwords : Machine.x86_64.wordSize *
      ((widestCall .x86_64 p.body + a.spilled.length : Nat) : Int) < 2 ^ 63 := by
    change 8 * _ < (2 : Int) ^ 63
    omega
  have houtgoing : a.frame.outgoingSize = 8 * widestCall .x86_64 p.body :=
    hcode.outgoing (by change 8 * _ < (2 : Int) ^ 63; omega)
  exact fieldsFit_iff_of_nonneg hsource hstored (hcode.layout hwords) houtgoing hlocals (by omega)

/-- A constant is stored in the word of the locals. -/
def storeLocal : Procedure := ⟨"f", 8,
    [.move (.mem (.binop .minus (.temp ⟨14⟩) (.const 8))) (.const 1)]⟩

theorem fields_fit_iff_storeLocal : ∃ as,
    Attempt.allocations? (compileFile [storeLocal] .x86_64 {}).1 = some as ∧ as.length = 1 ∧
    List.Forall₂ (fun (p : Procedure) a => ∃ lines, Written a lines ∧
      (FieldsFit a lines ↔ isImm32 a.frame.size = true ∧ 8 * widestCall .x86_64 p.body ≤ 2 ^ 31 ∧
        ∀ offset ∈ lines.flatMap Line.frameOffsets, isImm32 (a.frame.size + offset) = true) ∧
      (0 ≤ p.localsSize →
        p.localsSize + 8 * ((widestCall .x86_64 p.body + a.spilled.length : Nat) : Int) < 2 ^ 63 →
        (FieldsFit a lines ↔ a.frame.size < 2 ^ 31 ∧
          ∀ offset ∈ lines.flatMap Line.frameOffsets, a.frame.size + offset < 2 ^ 31)))
      [storeLocal] as := by
  have hcompiles : (Attempt.allocations? (compileFile [storeLocal] .x86_64 {}).1).any
      (fun as => as.length = 1) = true := by
    decide +kernel
  obtain ⟨as, hok, hlength⟩ := (Option.any_eq_true ..).1 hcompiles
  exact ⟨as, hok, of_decide_eq_true hlength, fields_fit_iff hok⟩

/-- A text whose frame size has 33 bits; the stack pointer moves by it on entry. -/
theorem frame_size_wide : ∃ p a,
    parseText .x86_64 "proc f frame 4294967296 \x7b MOVE(TEMP t100, CONST 1) \x7d" = .ok [p] ∧
      Attempt.allocations? (compileFile [p] .x86_64 {}).1 = some [a] ∧
      Output.assembly [a] =
        ".globl f\n.set f_framesize, 4294967296\nf:\n\tsubq $4294967296, %rsp\n" ++
        "\tmovq $1, %rcx\n\taddq $4294967296, %rsp\n\tretq\n\n" ∧
      ∀ lines, ¬ FieldsFit a lines := by
  have hparse : parseText .x86_64 "proc f frame 4294967296 \x7b MOVE(TEMP t100, CONST 1) \x7d" =
      .ok [⟨"f", 4294967296, [.move (.temp ⟨100⟩) (.const 1)]⟩] := by
    decide +kernel
  have hcompiles : (Attempt.allocations? (compileFile
      [⟨"f", 4294967296, [.move (.temp ⟨100⟩) (.const 1)]⟩] .x86_64 {}).1).any (fun as =>
        as.map (fun a => a.frame.size) = [4294967296] ∧
        Output.assembly as =
          ".globl f\n.set f_framesize, 4294967296\nf:\n\tsubq $4294967296, %rsp\n" ++
            "\tmovq $1, %rcx\n\taddq $4294967296, %rsp\n\tretq\n\n") = true := by
    decide +kernel
  obtain ⟨as, hok, has⟩ := (Option.any_eq_true ..).1 hcompiles
  obtain ⟨hsizes, htext⟩ := of_decide_eq_true has
  obtain ⟨a, rfl, hsize⟩ := List.map_eq_singleton_iff.1 hsizes
  refine ⟨_, a, hparse, hok, htext, fun lines hfit => ?_⟩
  have hfits := hfit a.frame.size List.mem_cons_self
  rw [hsize] at hfits
  exact absurd hfits (by decide)

end Procedure

end TreeCompiler
