import TreeCompiler.Machine.X86
import TreeCompiler.Proofs.Procedures
import TreeCompiler.Proofs.Selection.Room
import TreeCompiler.Tree.Parser

/-!
# FrameAreas — locals, spill slots and outgoing arguments lie apart

A frame has three areas.  Seen from the stack pointer, the arguments that calls pass in memory come
first, then the words of spilled temps, then the locals of the source, and nothing is left between
them (`Layout`).  Slots are handed out downwards from the locals in the rounds of the allocation,
and the outgoing area is measured upwards by the widest call; they meet because the frame size is
fixed behind the last round (`Procedure.frame_areas_apart`).  All of this is about addresses, which
wrap around like the numbers of the frame.  So the size may be too large for a number, as long as
the two inner areas are not; the frame then contains nothing (`Procedure.frame_contains_slots_iff`).
-/

namespace TreeCompiler

open Selection Allocation

/-! ## Displacements -/

theorem Machine.words_nonneg (m : Machine) (n : Nat) : 0 ≤ m.wordSize * (n : Int) :=
  Int.mul_nonneg (Int.le_of_lt m.wordSize_pos) (Int.natCast_nonneg n)

namespace Frame

/-- How far a place of the frame is from the stack pointer, given its offset from the frame pointer;
that is the stack pointer and the frame size. -/
def displacement (f : Frame) (offset : Int) : Int := wrap64 (f.size + offset)

variable {frame : Frame} {n : Nat}

theorem outgoingSize_allocSlots : (frame.allocSlots n).outgoingSize = frame.outgoingSize := by
  rw [allocSlots_eq]

/-- Slots that are handed out add to the size. -/
theorem size_allocSlots : (frame.allocSlots n).size =
    wrap64 (frame.outgoingSize + n * frame.wordSize - frame.offset) := by
  have hoffset := offset_allocSlots frame n
  unfold size
  rw [outgoingSize_allocSlots]
  unfold wrap64 at *
  omega

/-- Room for arguments that take less than 2^63 bytes. -/
theorem outgoingSize_reserveOutgoing_new (name : Label) (localsSize : Int) {m : Machine}
    {count : Nat} (h : m.wordSize * (count : Int) < 2 ^ 63) :
    ((new name localsSize m).reserveOutgoing count).outgoingSize = m.wordSize * count := by
  have hnonneg := m.words_nonneg count
  change max 0 (wrap64 (count * m.wordSize)) = _
  rw [Int.mul_comm, wrap64_eq_self (by omega) (by omega)]
  exact Int.max_eq_right hnonneg

end Frame

/-! ## Slots seen from the stack pointer -/

/-- Slots are at least one word below the locals, and at most as many words as there are slots. -/
theorem exists_depth_of_mem_slotsOf {frame : Frame} {ts : List Temp} {e : Temp × Int}
    (hw : 0 < frame.wordSize) (he : e ∈ slotsOf frame ts) : ∃ depth, frame.wordSize ≤ depth ∧
      depth ≤ ts.length * frame.wordSize ∧ e.2 = wrap64 (frame.offset - depth) := by
  obtain ⟨i, hi, hle, heq⟩ := mem_slotsOf he
  have hfirst := succ_mul_le hw hi
  refine ⟨i * frame.wordSize, by omega, ?_, heq⟩
  exact Int.mul_le_mul_of_nonneg_right (Int.ofNat_le.2 hle) (Int.le_of_lt hw)

section Slots

variable {frame : Frame} {ts : List Temp} {e : Temp × Int} {localsSize depth : Int}
  (hw : 0 < frame.wordSize) (houtgoing : 0 ≤ frame.outgoingSize)
  (hroom : frame.outgoingSize + ts.length * frame.wordSize < 2 ^ 63)

include houtgoing hroom

/-- The locals begin where the slots end, and each place below them is as far from there as the
offsets say. -/
theorem displacement_of_depth (hdepth : 0 ≤ depth) (hle : depth ≤ ts.length * frame.wordSize) :
    (frame.allocSlots ts.length).displacement (wrap64 (frame.offset - depth)) =
      frame.outgoingSize + ts.length * frame.wordSize - depth := by
  rw [Frame.displacement, Frame.size_allocSlots]
  unfold wrap64
  omega

include hw

/-- Slots are words between the outgoing area and the locals. -/
theorem displacement_of_mem_slotsOf (he : e ∈ slotsOf frame ts) :
    frame.outgoingSize ≤ (frame.allocSlots ts.length).displacement e.2 ∧
      (frame.allocSlots ts.length).displacement e.2 + frame.wordSize ≤
        frame.outgoingSize + ts.length * frame.wordSize := by
  obtain ⟨depth, hlow, hhigh, heq⟩ := exists_depth_of_mem_slotsOf hw he
  rw [heq, displacement_of_depth houtgoing hroom (by omega) hhigh]
  constructor <;> omega

theorem pairwise_displacement : (slotsOf frame ts).Pairwise fun e e' =>
    (frame.allocSlots ts.length).displacement e'.2 + frame.wordSize ≤
      (frame.allocSlots ts.length).displacement e.2 := by
  refine (pairwise_slotsOf frame ts).imp ?_
  rintro e e' ⟨i, j, hij, hj, he, he'⟩
  -- of the depths of two slots the larger one is at least a word more
  have hnext := succ_mul_le hw hij
  have hlast : (j : Int) * frame.wordSize ≤ ts.length * frame.wordSize :=
    Int.mul_le_mul_of_nonneg_right (Int.ofNat_le.2 hj) (Int.le_of_lt hw)
  have hfirst : 0 ≤ (i : Int) * frame.wordSize :=
    Int.mul_nonneg (Int.natCast_nonneg i) (Int.le_of_lt hw)
  rw [he, he', displacement_of_depth houtgoing hroom hfirst (by omega),
    displacement_of_depth houtgoing hroom (by omega) hlast]
  omega

/-- Where the size is in range, the offset of a slot has not wrapped around. -/
theorem displacement_eq_size_add (hoffset : frame.offset = wrap64 (-localsSize))
    (hlow : -2 ^ 63 ≤ localsSize)
    (hhigh : localsSize + frame.outgoingSize + ts.length * frame.wordSize < 2 ^ 63)
    (he : e ∈ slotsOf frame ts) : (frame.allocSlots ts.length).displacement e.2 =
      (frame.allocSlots ts.length).size + e.2 := by
  obtain ⟨depth, hfirst, hlast, heq⟩ := exists_depth_of_mem_slotsOf hw he
  have hdepth := displacement_of_depth houtgoing hroom (by omega) hlast
  have hplace : e.2 = -localsSize - depth := by
    rw [heq, hoffset, wrap64_sub]
    exact wrap64_eq_self (by omega) (by omega)
  rw [← heq] at hdepth
  rw [hdepth, hplace, Frame.size_allocSlots, hoffset]
  unfold wrap64
  omega

end Slots

/-! ## The areas of a frame -/

/-- Where the areas of a frame are, given the slots of the spilled temps as offsets from the frame
pointer. -/
structure Layout (m : Machine) (localsSize : Int) (a : Allocation) (slots : List (Temp × Int)) :
    Prop where
  nodup : a.spilled.Nodup
  /-- Each spilled temp has a slot of its own. -/
  temps : slots.map Prod.fst = a.spilled
  size : a.frame.size =
    wrap64 (localsSize + a.frame.outgoingSize + m.wordSize * (a.spilled.length : Int))
  /-- The locals are what is left above the outgoing area and the slots. -/
  locals : a.frame.displacement (-localsSize) =
    a.frame.outgoingSize + m.wordSize * (a.spilled.length : Int)
  /-- Slots are words between the outgoing area and the locals. -/
  within : ∀ e ∈ slots, a.frame.outgoingSize ≤ a.frame.displacement e.2 ∧
    a.frame.displacement e.2 + m.wordSize ≤ a.frame.displacement (-localsSize)
  disjoint : slots.Pairwise fun e e' =>
    a.frame.displacement e.2 + m.wordSize ≤ a.frame.displacement e'.2 ∨
      a.frame.displacement e'.2 + m.wordSize ≤ a.frame.displacement e.2
  /-- If the size is in range, none of these numbers has wrapped around. -/
  inRange : -2 ^ 63 ≤ localsSize →
    localsSize + a.frame.outgoingSize + m.wordSize * (a.spilled.length : Int) < 2 ^ 63 →
    a.frame.size = localsSize + a.frame.outgoingSize + m.wordSize * (a.spilled.length : Int) ∧
      a.frame.displacement (-localsSize) = a.frame.size - localsSize ∧
      ∀ e ∈ slots, a.frame.displacement e.2 = a.frame.size + e.2

section Layout

variable {m : Machine} {name : Label} {localsSize : Int} {count : Nat} {a : Allocation}
  {frame : Frame}

/-- The slots of a frame that has only locals and an outgoing area. -/
theorem layout_slotsOf (hnodup : a.spilled.Nodup)
    (hframe : frame = (Frame.new name localsSize m).reserveOutgoing count)
    (hend : a.frame = frame.allocSlots a.spilled.length)
    (hwords : m.wordSize * ((count + a.spilled.length : Nat) : Int) < 2 ^ 63) :
    Layout m localsSize a (slotsOf frame a.spilled) := by
  have hword : frame.wordSize = m.wordSize := hframe ▸ rfl
  have hoffset : frame.offset = wrap64 (-localsSize) := hframe ▸ rfl
  have hw : 0 < frame.wordSize := hword ▸ m.wordSize_pos
  have hcount := m.words_nonneg count
  have hspilled := m.words_nonneg a.spilled.length
  rw [Int.natCast_add, Int.mul_add] at hwords
  -- the inner areas are in range, so their sizes are exact
  have hfirst : frame.outgoingSize = m.wordSize * count := by
    rw [hframe]
    exact Frame.outgoingSize_reserveOutgoing_new name localsSize (by omega)
  have hsame : a.frame.outgoingSize = frame.outgoingSize := by
    rw [hend, Frame.outgoingSize_allocSlots]
  have htotal : m.wordSize * (a.spilled.length : Int) = a.spilled.length * frame.wordSize := by
    rw [hword, Int.mul_comm]
  have houtgoing : 0 ≤ frame.outgoingSize := by omega
  have hroom : frame.outgoingSize + a.spilled.length * frame.wordSize < 2 ^ 63 := by omega
  -- the size may wrap around, but the place where the locals begin does not
  have hsize : a.frame.size =
      wrap64 (localsSize + frame.outgoingSize + a.spilled.length * frame.wordSize) := by
    rw [hend, Frame.size_allocSlots, hoffset]
    unfold wrap64
    omega
  have hlocals : a.frame.displacement (-localsSize) =
      frame.outgoingSize + a.spilled.length * frame.wordSize := by
    rw [Frame.displacement, hsize]
    unfold wrap64
    omega
  refine ⟨hnodup, slotsOf_fst frame a.spilled, ?size, ?locals, ?within, ?disjoint, ?inRange⟩
  case size => rw [hsize, hsame, htotal]
  case locals => rw [hlocals, hsame, htotal]
  case within =>
    intro e he
    rw [hlocals, hsame, ← hword, hend]
    exact displacement_of_mem_slotsOf hw houtgoing hroom he
  case disjoint =>
    rw [← hword, hend]
    exact (pairwise_displacement hw houtgoing hroom).imp .inr
  case inRange =>
    intro hlow hhigh
    rw [hsame, htotal] at hhigh ⊢
    have hexact : a.frame.size =
        localsSize + frame.outgoingSize + a.spilled.length * frame.wordSize := by
      rw [hsize, wrap64_eq_self (by omega) (by omega)]
    refine ⟨hexact, by omega, fun e he => ?_⟩
    rw [hend]
    exact displacement_eq_size_add hw houtgoing hroom hoffset hlow hhigh he

/-- The frame reaches from the stack pointer to the frame pointer, and the words of all slots lie
inside it. -/
structure Contained (m : Machine) (a : Allocation) (slots : List (Temp × Int)) : Prop where
  size_nonneg : 0 ≤ a.frame.size
  slots : ∀ e ∈ slots, 0 ≤ a.frame.displacement e.2 ∧
    a.frame.displacement e.2 + m.wordSize ≤ a.frame.size

/-- The first slot is the word below the locals, so slots are inside the frame only if the locals
have no negative size; and a size that is out of range wraps around to a negative one. -/
theorem Layout.contained_iff (h : Layout m localsSize a (slotsOf frame a.spilled))
    (hword : frame.wordSize = m.wordSize) (hoffset : frame.offset = wrap64 (-localsSize))
    (houtgoing : 0 ≤ a.frame.outgoingSize)
    (hroom : a.frame.outgoingSize + m.wordSize * (a.spilled.length : Int) < 2 ^ 63)
    (hlow : -2 ^ 63 ≤ localsSize) (hhigh : localsSize < 2 ^ 63) :
    Contained m a (slotsOf frame a.spilled) ↔
      localsSize + a.frame.outgoingSize + m.wordSize * (a.spilled.length : Int) < 2 ^ 63 ∧
        (0 ≤ localsSize ∨ a.spilled = [] ∧ 0 ≤ localsSize + a.frame.outgoingSize) := by
  have hspilled := m.words_nonneg a.spilled.length
  constructor
  · intro hcontained
    have hnonneg := hcontained.size_nonneg
    -- a total out of range would wrap around to a negative size
    have htotal : localsSize + a.frame.outgoingSize + m.wordSize * (a.spilled.length : Int) <
        2 ^ 63 := by
      rw [h.size] at hnonneg
      unfold wrap64 at hnonneg
      omega
    obtain ⟨hsize, -, hexact⟩ := h.inRange hlow htotal
    refine ⟨htotal, ?_⟩
    cases htemps : a.spilled with
    | nil =>
        rw [htemps, List.length_nil] at hsize
        exact .inr ⟨rfl, by omega⟩
    | cons t ts =>
        -- the first slot ends where the locals begin
        have hfirst : (t, frame.allocSlot.1) ∈ slotsOf frame a.spilled := by
          rw [htemps]
          exact List.mem_cons_self
        have hwords : m.wordSize * (a.spilled.length : Int) =
            m.wordSize * (ts.length : Int) + m.wordSize := by
          rw [htemps, List.length_cons, Int.natCast_succ, Int.mul_add, Int.mul_one]
        have hrest := m.words_nonneg ts.length
        have hplace : frame.allocSlot.1 = -localsSize - m.wordSize := by
          rw [Frame.allocSlot, hoffset, hword, wrap64_sub]
          exact wrap64_eq_self (by omega) (by have hw := m.wordSize_pos; omega)
        have hend := (hcontained.slots _ hfirst).2
        rw [hexact _ hfirst, hplace] at hend
        exact .inl (by omega)
  · rintro ⟨htotal, hlocals⟩
    obtain ⟨hsize, hbegin, -⟩ := h.inRange hlow htotal
    -- slots end where the locals begin, which is not above the frame pointer
    rcases hlocals with hlocals | ⟨htemps, hlocals⟩
    · refine ⟨by omega, fun e he => ?_⟩
      obtain ⟨hbelow, habove⟩ := h.within e he
      constructor <;> omega
    · rw [htemps] at hsize ⊢
      exact ⟨by simpa [hsize] using hlocals, fun e he => absurd he List.not_mem_nil⟩

end Layout

/-! ## Arguments in memory -/

/-- Each call of a body stores its arguments in the outgoing area, and so do the items of the
allocated code that its stores have become. -/
def PassesInside (target : Target) (body : List Stm) (code : List Instr) (a : Allocation)
    (items : List Item) : Prop :=
  ∀ f args, (f, args) ∈ body.flatMap Stm.calls → ∃ before callee values behind,
    code = before ++ ((passing target callee values).map (·.instr target) ++ behind) ∧
    values.length = args.length ∧
    ∀ (j : Nat) v, (values.drop target.machine.roles.arguments.length)[j]? = some v →
      0 ≤ j * target.machine.wordSize ∧
      j * target.machine.wordSize + target.machine.wordSize ≤ a.frame.outgoingSize ∧
      ∃ v', ⟨.source (before.length + j), (Operation.store v'
        (.base target.machine.stackPointer (j * target.machine.wordSize))).instr target⟩ ∈ items

/-- Arguments in memory are stored in order, from the stack pointer up. -/
theorem getElem?_passing {target : Target} {callee : Callee} {values : List Temp} {j : Nat}
    {v : Temp} (hv : (values.drop target.machine.roles.arguments.length)[j]? = some v) :
    (passing target callee values)[j]? = some (.store v (argumentAddress target j)) := by
  have hstores : (stores target 0 (values.drop target.machine.roles.arguments.length))[j]? =
      some (.store v (argumentAddress target j)) := by
    rw [getElem?_stores, hv, Nat.zero_add]
    rfl
  have hlt := (List.getElem?_eq_some_iff.1 hstores).1
  rw [passing, List.getElem?_append_left hlt, hstores]

/-- A store at the stack pointer is left as one, though maybe of another temp. -/
theorem Allocation.Finished.exists_store {m : Machine} {start : Progress} {a : Allocation}
    {items : List Item} {k : Nat} {v : Temp} {offset : Int} (h : Finished m start a items)
    (hstore : start.instrs[k]? = some ((Operation.store v (.base m.stackPointer offset)).instr
      ⟨m, start.frame.sizeSymbol⟩)) :
    ∃ v', ⟨.source k, (Operation.store v' (.base m.stackPointer offset)).instr
      ⟨m, start.frame.sizeSymbol⟩⟩ ∈ items := by
  obtain ⟨x, hx, htag⟩ := mem_numbersOf.1 (h.kept _ _ hstore rfl)
  have horigin := h.origin x hx
  cases horigin with
  | inserted => cases htag
  | @source n i f hi hf hregister =>
      cases htag
      cases hi.symm.trans hstore
      have hsp : f m.stackPointer = m.stackPointer := hregister _ m.isRegister_stackPointer
      have hrename : ((Operation.store v (.base m.stackPointer offset)).instr
          ⟨m, start.frame.sizeSymbol⟩).rename f =
            (Operation.store (f v) (.base m.stackPointer offset)).instr
              ⟨m, start.frame.sizeSymbol⟩ := by
        simp [Operation.instr, Instr.plain, Instr.rename, Address.register, Address.text, hsp]
      rw [hrename] at hx
      exact ⟨f v, hx⟩

/-- Copies of registers call nothing. -/
theorem flatMap_calls_saveCalleeSaves (m : Machine) (body : List Stm) (n : Namer) :
    (saveCalleeSaves m body n).1.flatMap Stm.calls = body.flatMap Stm.calls := by
  have hnone : ∀ saved : List (Temp × Temp),
      saved.flatMap (fun _ => ([] : List (Exp × List Exp))) = [] := by
    simp
  simp [saveCalleeSaves, List.flatMap_map, Stm.calls, Exp.calls, hnone]

theorem widestCall_saveCalleeSaves (m : Machine) (body : List Stm) (n : Namer) :
    widestCall m (saveCalleeSaves m body n).1 = widestCall m body := by
  rw [widestCall, flatMap_calls_saveCalleeSaves, widestCall]

/-- Selection adds the room for the widest call to the locals. -/
theorem Procedure.frame_of_select {m : Machine} {p : Procedure} {n n' : Namer} {s : Selected}
    (h : p.select m n = (.ok s, n')) :
    s.frame = (p.frame m).reserveOutgoing (widestCall m p.body) := by
  obtain ⟨S, hrun, -, hframe, -⟩ := exists_state_of_select h
  rw [hframe, memoryArguments_eq_widestCall hrun, widestCall_saveCalleeSaves]

theorem passesInside_of_finished {m : Machine} {p : Procedure} {n n' : Namer} {s : Selected}
    {a : Allocation} {items : List Item} (hselect : p.select m n = (.ok s, n'))
    (h : Finished m (.first s.frame s.instrs n') a items)
    (houtgoing : a.frame.outgoingSize = m.wordSize * widestCall m p.body)
    (hwords : m.wordSize * (widestCall m p.body : Int) < 2 ^ 63) :
    PassesInside ⟨m, s.frame.sizeSymbol⟩ p.body s.instrs a items := by
  let target : Target := ⟨m, s.frame.sizeSymbol⟩
  obtain ⟨S, hrun, hinstrs, -⟩ := Procedure.exists_state_of_select hselect
  rw [← Procedure.sizeSymbol_of_select hselect] at hrun hinstrs
  intro f args hcall
  rw [← flatMap_calls_saveCalleeSaves m p.body n] at hcall
  -- the call of the body is one of the selected trees, and its code stands in one piece
  obtain ⟨before, callee, values, behind, hoperations, hlength, hroom⟩ := exists_passing hcall hrun
  rw [memoryArguments_eq_widestCall hrun, widestCall_saveCalleeSaves] at hroom
  have hcode : s.instrs = before.map (·.instr target) ++
      ((passing target callee values).map (·.instr target) ++
        (behind ++ [Operation.exit]).map (·.instr target)) := by
    rw [hinstrs, hoperations, List.append_assoc, List.append_assoc, List.map_append,
      List.map_append]
  refine ⟨_, callee, values, _, hcode, hlength, fun j v hv => ?_⟩
  have hnonneg : 0 ≤ (j : Int) * m.wordSize :=
    Int.mul_nonneg (Int.natCast_nonneg j) (Int.le_of_lt m.wordSize_pos)
  -- the area has room for as many words as there are arguments in memory
  have hinside : j * m.wordSize + m.wordSize ≤ a.frame.outgoingSize := by
    have hlt := (List.getElem?_eq_some_iff.1 hv).1
    rw [List.length_drop, hlength] at hlt
    rw [houtgoing, Int.mul_comm m.wordSize]
    exact succ_mul_le m.wordSize_pos (Nat.lt_of_lt_of_le hlt hroom)
  refine ⟨hnonneg, hinside, ?_⟩
  -- the stores come first in the code of a call, one for each argument in memory
  have hpassing : (passing target callee values)[j]? = some
      (.store v (.base m.stackPointer (j * m.wordSize))) := by
    have hexact : wrap64 (j * m.wordSize) = j * m.wordSize :=
      wrap64_eq_self (by omega) (by have hw := m.wordSize_pos; omega)
    rw [← hexact]
    exact getElem?_passing hv
  have hlt := (List.getElem?_eq_some_iff.1 hpassing).1
  refine h.exists_store (v := v) ?_
  change s.instrs[_]? = _
  rw [hcode, List.getElem?_append_right (Nat.le_add_right _ _), Nat.add_sub_cancel_left,
    List.getElem?_append_left (by simpa using hlt), List.getElem?_map, hpassing]
  rfl

/-! ## Procedures -/

namespace Procedure

variable {p : Procedure} {ps : List Procedure} {m : Machine} {options : AllocOptions} {i : Nat}
  {a : Allocation}

/-- Room is reserved for the widest call, and slots leave it. -/
theorem outgoingSize_of_finished {n n' : Namer} {s : Selected} {items : List Item}
    (hselect : p.select m n = (.ok s, n'))
    (hfinished : Finished m (.first s.frame s.instrs n') a items)
    (hwords : m.wordSize * (widestCall m p.body : Int) < 2 ^ 63) :
    a.frame.outgoingSize = m.wordSize * widestCall m p.body := by
  rw [hfinished.frame]
  change (s.frame.allocSlots _).outgoingSize = _
  rw [Frame.outgoingSize_allocSlots, frame_of_select hselect]
  exact Frame.outgoingSize_reserveOutgoing_new _ _ hwords

/-- The areas of a frame lie apart, if arguments in memory and spilled temps take less than 2^63
bytes.  Whatever the rounds of an allocation spill, each spilled temp has a word of its own between
the outgoing area and the locals; spilling accesses only these words; and each call stores its
arguments in the outgoing area. -/
theorem frame_areas_apart (hp : ps[i]? = some p)
    (hok : (p.compile m options (namerAt ps m options i)).1.outcome = .ok a)
    (hwords : m.wordSize * ((widestCall m p.body + a.spilled.length : Nat) : Int) < 2 ^ 63) :
    ∃ s n' q slots items, p.select m (namerAt ps m options i) = (.ok s, n') ∧
      Reaches m options (.first s.frame s.instrs n') q (slots.map slotPlace) ∧
      Finishes m options q a ∧ instrsOf items = a.instrs ∧
      Layout m p.localsSize a slots ∧
      (∀ x ∈ items, Item.Origin ⟨m, s.frame.sizeSymbol⟩ s.instrs n'.nextTemp slots x) ∧
      PassesInside ⟨m, s.frame.sizeSymbol⟩ p.body s.instrs a items := by
  obtain ⟨s, n', q, slots, items, hselect, hreaches, hfinishes, rfl, hfinished⟩ :=
    exists_finished hp hok
  have hlayout := layout_slotsOf hfinished.nodup (frame_of_select hselect) hfinished.frame hwords
  have hcalls : m.wordSize * (widestCall m p.body : Int) < 2 ^ 63 := by
    have hspilled := m.words_nonneg a.spilled.length
    rw [Int.natCast_add, Int.mul_add] at hwords
    omega
  exact ⟨s, n', q, slotsOf s.frame a.spilled, items, hselect, hreaches, hfinishes, hfinished.instrs,
    hlayout, hfinished.origin, passesInside_of_finished hselect hfinished
      (outgoingSize_of_finished hselect hfinished hcalls) hcalls⟩

/-- Three arguments in memory, of which two are spilled, and locals of four bytes. -/
theorem frame_areas_apart_callOfThree : ∃ a s n' q slots items,
    (callOfThree.compile .twoRegisters {} (namerAt [callOfThree] .twoRegisters {} 0)).1.outcome =
      .ok a ∧
    a.spilled.length = 2 ∧
    Machine.twoRegisters.wordSize *
      ((widestCall .twoRegisters callOfThree.body + a.spilled.length : Nat) : Int) < 2 ^ 63 ∧
    callOfThree.select .twoRegisters (namerAt [callOfThree] .twoRegisters {} 0) = (.ok s, n') ∧
    Reaches .twoRegisters {} (.first s.frame s.instrs n') q (slots.map slotPlace) ∧
    Finishes .twoRegisters {} q a ∧ instrsOf items = a.instrs ∧ Layout .twoRegisters 4 a slots ∧
    (∀ x ∈ items,
      Item.Origin ⟨.twoRegisters, s.frame.sizeSymbol⟩ s.instrs n'.nextTemp slots x) ∧
    PassesInside ⟨.twoRegisters, s.frame.sizeSymbol⟩ callOfThree.body s.instrs a items := by
  obtain ⟨a, hok, hlength, -⟩ := callOfThree_spills
  have hwords : Machine.twoRegisters.wordSize *
      ((widestCall .twoRegisters callOfThree.body + a.spilled.length : Nat) : Int) < 2 ^ 63 := by
    rw [hlength]
    decide
  obtain ⟨s, n', q, slots, items, hareas⟩ := frame_areas_apart callOfThree_alone hok hwords
  exact ⟨a, s, n', q, slots, items, hok, hlength, hwords, hareas⟩

/-- A frame contains all its slots exactly if its size is in range, and the locals have no negative
size, or nothing is spilled and the outgoing area makes up for it. -/
theorem frame_contains_slots_iff (hp : ps[i]? = some p)
    (hok : (p.compile m options (namerAt ps m options i)).1.outcome = .ok a)
    (hlow : -2 ^ 63 ≤ p.localsSize) (hhigh : p.localsSize < 2 ^ 63)
    (hwords : m.wordSize * ((widestCall m p.body + a.spilled.length : Nat) : Int) < 2 ^ 63) :
    ∃ s n' q slots, p.select m (namerAt ps m options i) = (.ok s, n') ∧
      Reaches m options (.first s.frame s.instrs n') q (slots.map slotPlace) ∧
      Finishes m options q a ∧ slots.map Prod.fst = a.spilled ∧
      (Contained m a slots ↔
        p.localsSize + a.frame.outgoingSize + m.wordSize * (a.spilled.length : Int) < 2 ^ 63 ∧
          (0 ≤ p.localsSize ∨ a.spilled = [] ∧ 0 ≤ p.localsSize + a.frame.outgoingSize)) := by
  obtain ⟨s, n', q, slots, items, hselect, hreaches, hfinishes, rfl, hfinished⟩ :=
    exists_finished hp hok
  have hframe := frame_of_select hselect
  have hlayout := layout_slotsOf hfinished.nodup hframe hfinished.frame hwords
  have hcalls := m.words_nonneg (widestCall m p.body)
  have hspilled := m.words_nonneg a.spilled.length
  rw [Int.natCast_add, Int.mul_add] at hwords
  have houtgoing := outgoingSize_of_finished hselect hfinished (by omega)
  exact ⟨s, n', q, slotsOf s.frame a.spilled, hselect, hreaches, hfinishes, slotsOf_fst _ _,
    hlayout.contained_iff (hframe ▸ rfl) (hframe ▸ rfl) (by omega) (by omega) hlow hhigh⟩

/-- Locals of four bytes and two spilled temps. -/
theorem frame_contains_slots_iff_callOfThree : ∃ a s n' q slots,
    (callOfThree.compile .twoRegisters {} (namerAt [callOfThree] .twoRegisters {} 0)).1.outcome =
      .ok a ∧
    a.spilled.length = 2 ∧
    Machine.twoRegisters.wordSize *
      ((widestCall .twoRegisters callOfThree.body + a.spilled.length : Nat) : Int) < 2 ^ 63 ∧
    callOfThree.select .twoRegisters (namerAt [callOfThree] .twoRegisters {} 0) = (.ok s, n') ∧
    Reaches .twoRegisters {} (.first s.frame s.instrs n') q (slots.map slotPlace) ∧
    Finishes .twoRegisters {} q a ∧ slots.map Prod.fst = a.spilled ∧
    Contained .twoRegisters a slots := by
  obtain ⟨a, hok, hlength, houtgoing⟩ := callOfThree_spills
  have hwords : Machine.twoRegisters.wordSize *
      ((widestCall .twoRegisters callOfThree.body + a.spilled.length : Nat) : Int) < 2 ^ 63 := by
    rw [hlength]
    decide
  obtain ⟨s, n', q, slots, hselect, hreaches, hfinishes, htemps, hcontained⟩ :=
    frame_contains_slots_iff callOfThree_alone hok (by decide) (by decide) hwords
  have hrange : callOfThree.localsSize + a.frame.outgoingSize +
      Machine.twoRegisters.wordSize * (a.spilled.length : Int) < 2 ^ 63 := by
    rw [houtgoing, hlength]
    decide
  exact ⟨a, s, n', q, slots, hok, hlength, hwords, hselect, hreaches, hfinishes, htemps,
    hcontained.2 ⟨hrange, .inl (by decide)⟩⟩

/-- A text gives its locals a negative size, and the stack pointer moves up on entry. -/
theorem frame_size_negative :
    ∃ p a, parseText .x86_64 "proc f frame -16 \x7b MOVE(TEMP t100, CONST 1) \x7d" = .ok [p] ∧
      (p.compile .x86_64 {} (namerAt [p] .x86_64 {} 0)).1.outcome = .ok a ∧ a.frame.size = -16 ∧
      ∀ slots, ¬ Contained .x86_64 a slots := by
  let p : Procedure := ⟨"f", -16, [.move (.temp ⟨100⟩) (.const 1)]⟩
  obtain ⟨a, hok, hsize⟩ := exists_ok_of_any
    (p.compile .x86_64 {} (namerAt [p] .x86_64 {} 0)).1.outcome
    (fun a => decide (a.frame.size = -16)) (by decide +kernel)
  have hsize : a.frame.size = -16 := of_decide_eq_true hsize
  refine ⟨p, a, by decide +kernel, hok, hsize, fun slots h => ?_⟩
  have hnonneg := h.size_nonneg
  omega

end Procedure

end TreeCompiler
