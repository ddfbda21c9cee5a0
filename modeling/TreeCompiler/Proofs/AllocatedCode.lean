import TreeCompiler.Proofs.FrameAreas
import TreeCompiler.Proofs.Selection.Marks

/-!
# AllocatedCode — what allocated code keeps of a procedure

The code that is selected for a procedure has the marks of its body
(`Procedure.exists_marked_of_select`).  Allocation puts other temps in, inserts code without labels
and drops copies only.  So it keeps the labels and all operations that are no copies; the flow graph
of the last round vouches for the labels and the jumps (`Procedure.exists_codeOf`).
-/

namespace TreeCompiler

open Selection Allocation FlowGraph

/-! ## Selected code -/

/-- Copies of registers have no marks. -/
theorem flatMap_marks_saveCalleeSaves (target : Target) (m : Machine) (body : List Stm)
    (n : Namer) :
    (saveCalleeSaves m body n).1.flatMap (Stm.marks target) = body.flatMap (Stm.marks target) := by
  have hnone : ∀ saved : List (Temp × Temp), saved.flatMap (fun _ => ([] : List Mark)) = [] := by
    simp
  simp [saveCalleeSaves, List.flatMap_map, Stm.marks, Exp.marks, hnone]

namespace Procedure

variable {p : Procedure} {m : Machine} {n n' : Namer} {s : Selected}

/-- What the operations of a procedure are written for. -/
abbrev target (p : Procedure) (m : Machine) : Target := ⟨m, (p.frame m).sizeSymbol⟩

/-- The marks of the code for the body. -/
def marks (p : Procedure) (m : Machine) : List Mark := p.body.flatMap (Stm.marks (p.target m))

/-- The selected code has the marks of the body. -/
theorem exists_marked_of_select (h : p.select m n = (.ok s, n')) : ∃ ops,
    s.instrs = (ops ++ [Operation.exit]).map (Operation.instr (p.target m)) ∧
      MarkedAll (p.target m) ops (p.marks m) := by
  obtain ⟨S, hrun, hinstrs, -⟩ := exists_state_of_select h
  obtain ⟨-, ⟨ops, hops, hmarked⟩, -⟩ := (yields_statements _).run hrun
  rw [flatMap_marks_saveCalleeSaves] at hmarked
  refine ⟨ops, ?_, hmarked⟩
  rw [hinstrs, hops]
  rfl

end Procedure

/-! ## Labels through the rounds -/

section Labels

variable {m : Machine} {options : AllocOptions} {start p : Progress} {items : List Item}
  {a : Allocation}

/-- Where items are instructions of a code with their labels, or have no labels, the numbers tell
which labels there are. -/
theorem labelsOf_instrsOf (items : List Item) (code : List Instr)
    (h : ∀ x ∈ items, x.instr.label? = x.number?.bind fun n => code[n]?.bind Instr.label?) :
    labelsOf (instrsOf items) =
      (numbersOf items).filterMap fun n => code[n]?.bind Instr.label? := by
  unfold labelsOf instrsOf numbersOf
  rw [List.filterMap_map, List.filterMap_filterMap]
  exact List.filterMap_congr h

/-- Spilling keeps the labels and their order. -/
theorem Tracked.labels (h : Tracked m start p items) :
    labelsOf p.instrs = labelsOf start.instrs := by
  have hspilled := labelsOf_instrsOf items start.instrs fun x hx => by
    cases h.origin x hx with
    | source hi _ _ =>
        rw [Instr.label?_rename]
        simp [Item.number?, hi]
    | @inserted what a b _ _ _ => cases what <;> rfl
  have hfirst := labelsOf_instrsOf (itemsOf start.instrs 0) start.instrs
    fun x hx => by
      obtain ⟨n, i, rfl, -, hi⟩ := mem_itemsOf.1 hx
      rw [Nat.sub_zero] at hi
      simp [Item.number?, hi]
  rw [h.instrs, h.numbers] at hspilled
  rw [instrsOf_itemsOf, numbersOf_itemsOf, ← List.range_eq_range'] at hfirst
  exact hspilled.trans hfirst.symm

/-- Dropped copies are no labels. -/
theorem labelsOf_removeRedundantMoves (coloring : NameMap) (code : List Instr) :
    labelsOf (removeRedundantMoves coloring code) = labelsOf code := by
  unfold labelsOf removeRedundantMoves
  rw [List.filterMap_filter]
  refine List.filterMap_congr fun i _ => ?_
  split
  · rfl
  · rename_i hdropped
    cases i with
    | label text l => exact absurd rfl hdropped
    | move | oper => rfl

theorem Allocation.Finishes.labels (h : Finishes m options p a) :
    labelsOf a.instrs = labelsOf p.instrs := by
  rw [h.instrs]
  split
  · exact labelsOf_removeRedundantMoves _ _
  · rfl

theorem Allocation.Finishes.subset (h : Finishes m options p a) : a.instrs ⊆ p.instrs := by
  rw [h.instrs]
  split
  · exact List.filter_subset_self _
  · exact List.Subset.refl _

/-- In allocated code no label is defined twice, and all jumps stay in it. -/
theorem Allocation.Finishes.jumps (h : Finishes m options p a) : (labelsOf a.instrs).Nodup ∧
    ∀ i ∈ a.instrs, ∀ l ∈ i.targets, l ∈ labelsOf a.instrs := by
  obtain ⟨g, r, hcolor, -⟩ := h.colors
  obtain ⟨hnodup, htargets⟩ := build_isOk_iff.1 (exists_of_colorCode hcolor).1
  rw [h.labels]
  exact ⟨hnodup, fun i hi => htargets i (h.subset hi)⟩

end Labels

/-! ## Allocated code -/

/-- The operation of an item, and the temps that are put in for its operands. -/
theorem Item.Origin.exists_operation {target : Target} {ops : List Operation} {k : Nat}
    {slots : List (Temp × Int)} {x : Item}
    (h : Item.Origin target (ops.map (Operation.instr target)) k slots x) :
    ∃ e : Operation × (Temp → Temp), x.instr = (e.1.instr target).rename e.2 ∧
      (∀ n, x.number? = some n → ops[n]? = some e.1) ∧
      (e.1 ∈ ops ∨ ∃ (what : Insertion) (b c : Temp), e.1 = what.operation b c ∧
        ∀ offset, what.slot? = some offset → offset ∈ slots.map Prod.snd) := by
  cases h with
  | @source n i f hi _ _ =>
      rw [List.getElem?_map] at hi
      obtain ⟨op, hop, rfl⟩ := Option.map_eq_some_iff.1 hi
      refine ⟨(op, f), rfl, ?_, .inl (List.mem_of_getElem? hop)⟩
      rintro n ⟨⟩
      exact hop
  | @inserted what b c _ _ hslot =>
      exact ⟨(what.operation b c, id), Instr.rename_id.symm, nofun, .inr ⟨what, b, c, rfl, hslot⟩⟩

namespace Procedure

/-- The allocated code of a procedure, given the operations that were selected for its body, those
that are left in the end with other temps put in, and the slots of the spilled temps. -/
structure CodeOf (p : Procedure) (m : Machine) (a : Allocation) (ops : List Operation)
    (final : List (Operation × (Temp → Temp))) (slots : List (Temp × Int)) : Prop where
  marked : MarkedAll (p.target m) ops (p.marks m)
  layout : m.wordSize * ((widestCall m p.body + a.spilled.length : Nat) : Int) < 2 ^ 63 →
    Layout m p.localsSize a slots
  name : a.frame.name = p.name
  outgoing : m.wordSize * (widestCall m p.body : Int) < 2 ^ 63 →
    a.frame.outgoingSize = m.wordSize * widestCall m p.body
  named : ∀ j ∈ a.instrs, ∀ t ∈ j.defs ++ j.uses, Names m a.coloring t
  instrs : a.instrs = final.map fun e => (e.1.instr (p.target m)).rename e.2
  /-- Operations are those of the body, the exit, or were inserted. -/
  origin : ∀ e ∈ final, e.1 ∈ ops ∨ e.1 = .exit ∨
    ∃ (what : Insertion) (b c : Temp), e.1 = what.operation b c ∧
      ∀ offset, what.slot? = some offset → offset ∈ slots.map Prod.snd
  /-- Only copies are dropped. -/
  kept : ∀ op ∈ ops, (op.instr (p.target m)).movePair? = none → ∃ e ∈ final, e.1 = op
  labels : labelsOf a.instrs = (p.marks m).filterMap Mark.label?
  nodup : (labelsOf a.instrs).Nodup
  targets : ∀ j ∈ a.instrs, ∀ l ∈ j.targets, l ∈ labelsOf a.instrs

variable {p : Procedure} {ps : List Procedure} {m : Machine} {options : AllocOptions} {i : Nat}
  {a : Allocation}

/-- The symbol of the frame size does not change in allocation. -/
theorem CodeOf.target_eq {ops : List Operation} {final : List (Operation × (Temp → Temp))}
    {slots : List (Temp × Int)} (h : CodeOf p m a ops final slots) :
    p.target m = ⟨m, a.frame.sizeSymbol⟩ := by
  have hsymbol : a.frame.sizeSymbol = (p.frame m).sizeSymbol := by
    rw [Frame.sizeSymbol, h.name]
    rfl
  rw [hsymbol]

theorem exists_codeOf (hp : ps[i]? = some p)
    (hok : (p.compile m options (namerAt ps m options i)).1.outcome = .ok a) :
    ∃ ops final slots, CodeOf p m a ops final slots := by
  obtain ⟨s, n', q, slots, items, hselect, hreaches, hfinishes, -, hfinished⟩ :=
    exists_finished hp hok
  obtain ⟨hfirst, htemps⟩ := lt_of_select hp hselect
  obtain ⟨⟨items', htracked⟩, -⟩ := hreaches.tracked hfirst htemps
  obtain ⟨ops, hinstrs, hmarked⟩ := exists_marked_of_select hselect
  have hframe := frame_of_select hselect
  obtain ⟨hnodup, htargets⟩ := hfinishes.jumps
  -- each item is an operation with other temps put in, and those with a number are selected ones
  have horigin : ∀ x ∈ items, ∃ e : Operation × (Temp → Temp),
      x.instr = (e.1.instr (p.target m)).rename e.2 ∧
        (∀ n, x.number? = some n → (ops ++ [.exit])[n]? = some e.1) ∧
        (e.1 ∈ ops ++ [.exit] ∨ ∃ (what : Insertion) (b c : Temp), e.1 = what.operation b c ∧
          ∀ offset, what.slot? = some offset →
            offset ∈ (slotsOf s.frame a.spilled).map Prod.snd) := by
    intro x hx
    have h := hfinished.origin x hx
    dsimp only [Progress.first] at h
    rw [hinstrs, sizeSymbol_of_select hselect] at h
    exact h.exists_operation
  have : Nonempty (Operation × (Temp → Temp)) := ⟨(.exit, id)⟩
  choose! entry hentry using horigin
  refine ⟨ops, items.map entry, slotsOf s.frame a.spilled, hmarked,
    layout_slotsOf hfinished.nodup hframe hfinished.frame, ?name,
    outgoingSize_of_finished hselect hfinished, hfinished.named, ?instrs, ?origin, ?kept, ?labels,
    hnodup, htargets⟩
  case name =>
    rw [hfinished.frame, Frame.allocSlots_eq]
    change s.frame.name = _
    rw [hframe]
    rfl
  case instrs =>
    rw [← hfinished.instrs, instrsOf, List.map_map]
    exact List.map_congr_left fun x hx => (hentry x hx).1
  case origin =>
    intro e he
    obtain ⟨x, hx, rfl⟩ := List.mem_map.1 he
    rcases (hentry x hx).2.2 with hop | hinserted
    · rcases List.mem_append.1 hop with hop | hop
      · exact .inl hop
      · exact .inr (.inl (List.mem_singleton.1 hop))
    · exact .inr (.inr hinserted)
  case kept =>
    -- only copies are dropped, so the item with the number of the operation is left
    intro op hop hmove
    obtain ⟨k, hk⟩ := List.mem_iff_getElem?.1 hop
    have hk : (ops ++ [.exit])[k]? = some op := by
      rwa [List.getElem?_append_left (List.getElem?_eq_some_iff.1 hk).1]
    have hcode : s.instrs[k]? = some (op.instr (p.target m)) := by
      rw [hinstrs, List.getElem?_map, hk]
      rfl
    obtain ⟨x, hx, htag⟩ := mem_numbersOf.1 (hfinished.kept k _ hcode hmove)
    have hnumber : x.number? = some k := by rw [Item.number?, htag]
    refine ⟨entry x, List.mem_map_of_mem hx, Option.some.inj ?_⟩
    rw [← (hentry x hx).2.1 k hnumber, hk]
  case labels =>
    rw [hfinishes.labels, htracked.labels]
    change labelsOf s.instrs = _
    rw [hinstrs, List.map_append, labelsOf, List.filterMap_append, hmarked.labels]
    exact List.append_nil _

end Procedure

end TreeCompiler
