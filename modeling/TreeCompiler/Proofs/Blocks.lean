import TreeCompiler.Proofs.SpillRounds

/-!
# Blocks — spilled code, a stretch for each instruction

Where all slots are in reach of an immediate offset, an access of a slot is one instruction.
However often code was spilled, it then consists of a block for each instruction of the program:
some loads, the instruction with fresh temps in the place of spilled ones, and some stores
(`Block.items`).  Spilling once more works on each block by itself (`spillItems_blocks`), and fresh
temps stay within their blocks (`Tidy.spill`).
-/

namespace TreeCompiler

variable {target : Target} {places : List (Temp × Int)} {k low : Nat}

/-! ## Short accesses -/

/-- An access of a slot in reach. -/
theorem accessAll_of_isImm32 {direct indirect : Int → Insertion} {sw : List Swap}
    (h : ∀ e ∈ sw, isImm32 e.offset = true) : accessAll (accessCode direct indirect) sw k =
      sw.map fun e => ⟨direct e.offset, e.new, e.new⟩ := by
  induction sw generalizing k with
  | nil => rfl
  | cons e sw ih =>
      rcases List.forall_mem_cons.1 h with ⟨he, hsw⟩
      rw [accessAll, ih hsw, accessCode, if_pos he, List.map_cons, List.singleton_append]

theorem swaps_eq_nil {i : Instr} (h : ∀ e ∈ places, e.1 ∉ i.defs ++ i.uses) :
    swaps i places k = [] := by
  induction places with
  | nil => rfl
  | cons e places ih =>
      rcases List.forall_mem_cons.1 h with ⟨he, hplaces⟩
      rw [swaps, if_neg he, ih hplaces]

theorem swapped_append {sw sw' : List Swap} {t : Temp} (h : ∀ e ∈ sw, ∀ e' ∈ sw', e.new ≠ e'.old) :
    swapped (sw ++ sw') t = swapped sw' (swapped sw t) := by
  unfold swapped
  rw [List.find?_append]
  cases hfind : sw.find? fun e => e.old = t with
  | none => rfl
  | some e =>
      have hnone : sw'.find? (fun e' => e'.old = e.new) = none := by
        refine List.find?_eq_none.2 fun e' he' => ?_
        simpa using Ne.symm (h e (List.mem_of_find?_eq_some hfind) e' he')
      simp [hnone]

/-- Code that mentions no spilled temp stays as it is. -/
theorem spillItem_untouched {x : Item} (h : ∀ e ∈ places, e.1 ∉ x.instr.defs ++ x.instr.uses) :
    spillItem target places x k = ⟨[x], [], k⟩ := by
  have hsame : x.instr.rename (swapped []) = x.instr :=
    (Instr.rename_congr fun t _ => rfl).trans Instr.rename_id
  unfold spillItem loadItems storeItems loadNext coreItem
  simp only [swaps_eq_nil h, hsame]
  rfl

theorem spillItems_untouched {xs : List Item}
    (h : ∀ x ∈ xs, ∀ e ∈ places, e.1 ∉ x.instr.defs ++ x.instr.uses) :
    spillItems target places xs k = ⟨xs, [], k⟩ := by
  induction xs with
  | nil => rfl
  | cons x xs ih =>
      rcases List.forall_mem_cons.1 h with ⟨hx, hxs⟩
      rw [spillItems, spillItem_untouched hx, ih hxs]
      rfl

/-! ## Blocks -/

/-- An item of the program with what took the place of its spilled temps, and the swaps that are
loaded before it and stored behind it. -/
structure Block where
  source : Item
  swaps : List Swap := []
  loads : List Swap := []
  stores : List Swap := []

namespace Block

/-- The item with fresh temps. -/
def core (b : Block) : Item := ⟨b.source.tag, b.source.instr.rename (swapped b.swaps)⟩

def load (target : Target) (e : Swap) : Item :=
  Inserted.item target ⟨.loadSlot e.offset, e.new, e.new⟩

def store (target : Target) (e : Swap) : Item :=
  Inserted.item target ⟨.storeSlot e.offset, e.new, e.new⟩

def items (target : Target) (b : Block) : List Item :=
  b.loads.map (load target) ++ b.core :: b.stores.map (store target)

/-- The temps that took the place of spilled ones. -/
def fresh (b : Block) : List Temp := b.swaps.map Swap.new

/-- The block after more temps were spilled; fresh temps are numbered from `k` on. -/
def spill (places : List (Temp × Int)) (b : Block) (k : Nat) : Block :=
  let more := TreeCompiler.swaps b.core.instr places k
  { source := b.source
    swaps := b.swaps ++ more
    loads := b.loads ++ loaded b.core.instr more
    stores := stored b.core.instr more ++ b.stores }

/-- What holds of the block of an instruction whose own temps are below `low`. -/
structure Tidy (target : Target) (low : Nat) (b : Block) : Prop where
  operands : ∀ t ∈ b.source.instr.defs ++ b.source.instr.uses, t.id < low
  mentioned : ∀ e ∈ b.swaps, e.old ∈ b.source.instr.defs ++ b.source.instr.uses
  notRegister : ∀ e ∈ b.swaps, target.machine.isRegister e.old = false
  low_le : ∀ e ∈ b.swaps, low ≤ e.new.id
  nodup_old : (b.swaps.map Swap.old).Nodup
  loads : ∀ e, e ∈ b.loads ↔ e ∈ b.swaps ∧ e.old ∈ b.source.instr.uses
  stores : ∀ e, e ∈ b.stores ↔ e ∈ b.swaps ∧ e.old ∈ b.source.instr.defs

end Block

/-- Temps to be spilled: their slots are in reach, and they are temps of the program. -/
structure Spillable (target : Target) (low : Nat) (places : List (Temp × Int)) : Prop where
  nodup : (places.map Prod.fst).Nodup
  lt : ∀ e ∈ places, e.1.id < low
  notRegister : ∀ e ∈ places, target.machine.isRegister e.1 = false
  short : ∀ e ∈ places, isImm32 e.2 = true

/-- Blocks in which the spilled temps no longer occur. -/
structure SpilledBlocks where
  blocks : List Block
  fresh : List Temp
  next : Nat

def spillBlocks (places : List (Temp × Int)) : List Block → Nat → SpilledBlocks
  | [], k => ⟨[], [], k⟩
  | b :: bs, k =>
      let more := swaps b.core.instr places k
      let others := spillBlocks places bs (k + more.length)
      ⟨b.spill places k :: others.blocks, more.map Swap.new ++ others.fresh, others.next⟩

/-- The temps in the place of spilled ones, of all blocks. -/
def freshOf (blocks : List Block) : List Temp := blocks.flatMap Block.fresh

/-- The items of some blocks. -/
def itemsOfBlocks (target : Target) (blocks : List Block) : List Item :=
  blocks.flatMap (Block.items target)

/-! ## One block -/

section One

variable {b : Block} {e : Swap}

theorem Block.mem_operands_load {t : Temp}
    (h : t ∈ (load target e).instr.defs ++ (load target e).instr.uses) :
    t = e.new ∨ t = target.machine.stackPointer := by
  rcases mem_operands_item h with h | h | h
  · exact .inl h
  · exact .inl h
  · exact .inr h

theorem Block.mem_operands_store {t : Temp}
    (h : t ∈ (store target e).instr.defs ++ (store target e).instr.uses) :
    t = e.new ∨ t = target.machine.stackPointer := by
  rcases mem_operands_item h with h | h | h
  · exact .inl h
  · exact .inl h
  · exact .inr h

namespace Spillable

variable (hp : Spillable target low places)

include hp

theorem notStackPointer {p : Temp × Int} (h : p ∈ places) :
    p.1 ≠ target.machine.stackPointer :=
  ne_stackPointer (hp.notRegister p h)

theorem offset {i : Instr} (h : e ∈ swaps i places k) : isImm32 e.offset = true :=
  hp.short _ (mem_swaps h).1

/-- A spilled temp is an operand of the core where it is one of the source that was not spilled
yet. -/
theorem mem_map_swapped (hb : b.Tidy target low) {p : Temp × Int} (h : p ∈ places) {ts : List Temp}
    (hts : p.1 ∈ ts.map (swapped b.swaps)) : p.1 ∈ ts ∧ swapped b.swaps p.1 = p.1 := by
  rcases List.mem_map.1 hts with ⟨u, hu, heq⟩
  have hlt := hp.lt p h
  by_cases hsw : ∃ e ∈ b.swaps, e.old = u
  · rcases hsw with ⟨e, he, rfl⟩
    rw [swapped_of_mem hb.nodup_old he] at heq
    have hle := hb.low_le e he
    rw [heq] at hle
    exact absurd hlt (Nat.not_lt_of_le hle)
  · have hself : swapped b.swaps u = u := swapped_of_forall_ne fun e he h => hsw ⟨e, he, h⟩
    rw [hself] at heq
    exact heq ▸ ⟨hu, hself⟩

theorem mem_operands_core (hb : b.Tidy target low) {p : Temp × Int} (h : p ∈ places)
    (hcore : p.1 ∈ b.core.instr.defs ++ b.core.instr.uses) :
    p.1 ∈ b.source.instr.defs ++ b.source.instr.uses ∧ swapped b.swaps p.1 = p.1 := by
  unfold Block.core at hcore
  rw [Instr.defs_rename, Instr.uses_rename, ← List.map_append] at hcore
  exact hp.mem_map_swapped hb h hcore

/-- Temps that are spilled now are no fresh ones. -/
theorem new_ne (hb : b.Tidy target low) : ∀ e ∈ b.swaps,
    ∀ e' ∈ swaps b.core.instr places k, e.new ≠ e'.old := by
  intro e he e' he' heq
  have hlt := hp.lt _ (mem_swaps he').1
  have hle := hb.low_le e he
  rw [heq] at hle
  exact absurd hlt (Nat.not_lt_of_le hle)

theorem core_spill (hb : b.Tidy target low) :
    (b.spill places k).core = coreItem places b.core k := by
  unfold Block.core coreItem
  dsimp only [Block.spill, Block.core]
  rw [Instr.rename_rename]
  refine congrArg (Item.mk b.source.tag) (Instr.rename_congr fun t _ => ?_)
  exact swapped_append (hp.new_ne hb)

/-- Spilling a block. -/
theorem spillItems_items (hb : b.Tidy target low) : spillItems target places (b.items target) k =
    ⟨(b.spill places k).items target, (swaps b.core.instr places k).map Swap.new,
      k + (swaps b.core.instr places k).length⟩ := by
  have huntouched : ∀ {e : Swap}, e ∈ b.swaps → ∀ {t}, t = e.new ∨ t = target.machine.stackPointer →
      ∀ p ∈ places, p.1 ≠ t := by
    rintro e he t (rfl | rfl) p hmem heq
    · have hle := hb.low_le e he
      rw [← heq] at hle
      exact absurd (hp.lt p hmem) (Nat.not_lt_of_le hle)
    · exact hp.notStackPointer hmem heq
  have hloads : ∀ x ∈ b.loads.map (Block.load target), ∀ p ∈ places,
      p.1 ∉ x.instr.defs ++ x.instr.uses := by
    intro x hx p hmem ht
    rcases List.mem_map.1 hx with ⟨e, he, rfl⟩
    exact huntouched ((hb.loads e).1 he).1 (Block.mem_operands_load ht) p hmem rfl
  have hstores : ∀ x ∈ b.stores.map (Block.store target), ∀ p ∈ places,
      p.1 ∉ x.instr.defs ++ x.instr.uses := by
    intro x hx p hmem ht
    rcases List.mem_map.1 hx with ⟨e, he, rfl⟩
    exact huntouched ((hb.stores e).1 he).1 (Block.mem_operands_store ht) p hmem rfl
  have hloaded : ∀ e ∈ loaded b.core.instr (swaps b.core.instr places k), isImm32 e.offset = true :=
    fun e he => hp.offset (List.mem_of_mem_filter he)
  have hstored : ∀ e ∈ stored b.core.instr (swaps b.core.instr places k), isImm32 e.offset = true :=
    fun e he => hp.offset (List.mem_of_mem_filter he)
  -- only the core mentions spilled temps, and its accesses of slots are single instructions
  have hcore : spillItem target places b.core k =
      ⟨(loaded b.core.instr (swaps b.core.instr places k)).map (Block.load target)
          ++ (b.spill places k).core
          :: (stored b.core.instr (swaps b.core.instr places k)).map (Block.store target),
        (swaps b.core.instr places k).map Swap.new, k + (swaps b.core.instr places k).length⟩ := by
    unfold spillItem loadItems storeItems loadNext
    rw [hp.core_spill hb]
    simp only [loadCode, storeCode, accessAll_of_isImm32 hloaded, accessAll_of_isImm32 hstored,
      addressTempsAll_eq_zero_iff.2 hloaded, addressTempsAll_eq_zero_iff.2 hstored, List.map_map,
      Nat.add_zero]
    rfl
  unfold Block.items
  rw [spillItems_append, spillItems_untouched hloads]
  dsimp only [spillItems]
  rw [hcore, spillItems_untouched hstores]
  simp [Block.spill]

/-- A block stays tidy. -/
theorem tidy_spill (hb : b.Tidy target low) (hk : low ≤ k) :
    (b.spill places k).Tidy target low := by
  have hmore : ∀ e ∈ swaps b.core.instr places k,
      e.old ∈ b.source.instr.defs ++ b.source.instr.uses ∧ swapped b.swaps e.old = e.old :=
    fun e he => hp.mem_operands_core hb (mem_swaps he).1 (mem_swaps he).2.1
  -- an operand of the core that is spilled now is one of the source
  have hiff : ∀ e ∈ swaps b.core.instr places k, ∀ ts : List Temp,
      e.old ∈ ts.map (swapped b.swaps) ↔ e.old ∈ ts := by
    intro e he ts
    refine ⟨fun h => (hp.mem_map_swapped hb (mem_swaps he).1 h).1, fun h => ?_⟩
    exact List.mem_map.2 ⟨e.old, h, (hmore e he).2⟩
  refine {
    operands := hb.operands
    mentioned := List.forall_mem_append.2 ⟨hb.mentioned, fun e he => (hmore e he).1⟩
    notRegister := List.forall_mem_append.2 ⟨hb.notRegister, fun e he =>
      hp.notRegister _ (mem_swaps he).1⟩
    low_le := List.forall_mem_append.2 ⟨hb.low_le, fun e he => Nat.le_trans hk (mem_swaps he).2.2.1⟩
    nodup_old := ?nodup_old
    loads := ?loads
    stores := ?stores }
  case nodup_old =>
    -- a temp that was spilled before is no operand of the core any more
    change ((b.swaps ++ swaps b.core.instr places k).map Swap.old).Nodup
    rw [List.map_append]
    refine List.nodup_append.2 ⟨hb.nodup_old, nodup_swaps_old hp.nodup, ?_⟩
    intro t ht u hu heq
    rcases List.mem_map.1 ht with ⟨e, he, rfl⟩
    rcases List.mem_map.1 hu with ⟨e', he', rfl⟩
    have hself := (hmore e' he').2
    rw [← heq, swapped_of_mem hb.nodup_old he] at hself
    have hlt := hb.operands _ (hb.mentioned e he)
    rw [← hself] at hlt
    exact absurd hlt (Nat.not_lt_of_le (hb.low_le e he))
  case loads =>
    intro e
    change e ∈ b.loads ++ loaded b.core.instr (swaps b.core.instr places k) ↔
      e ∈ b.swaps ++ swaps b.core.instr places k ∧ e.old ∈ b.source.instr.uses
    rw [List.mem_append, List.mem_append, hb.loads, or_and_right]
    refine or_congr_right ?_
    unfold loaded
    rw [List.mem_filter, List.contains_iff_mem]
    refine and_congr_right fun he => ?_
    unfold Block.core
    rw [Instr.uses_rename]
    exact hiff e he _
  case stores =>
    intro e
    change e ∈ stored b.core.instr (swaps b.core.instr places k) ++ b.stores ↔
      e ∈ b.swaps ++ swaps b.core.instr places k ∧ e.old ∈ b.source.instr.defs
    rw [List.mem_append, List.mem_append, hb.stores, or_and_right, or_comm]
    refine or_congr_right ?_
    unfold stored
    rw [List.mem_filter, List.contains_iff_mem]
    refine and_congr_right fun he => ?_
    unfold Block.core
    rw [Instr.defs_rename]
    exact hiff e he _

end Spillable

end One

/-! ## All blocks -/

/-- What holds of the blocks of some code, of which fresh temps are numbered below `k`. -/
structure Tidy (target : Target) (low k : Nat) (blocks : List Block) : Prop where
  block : ∀ b ∈ blocks, b.Tidy target low
  fresh_lt : ∀ t ∈ freshOf blocks, t.id < k
  nodup_fresh : (freshOf blocks).Nodup

section All

variable {blocks : List Block} {t : Temp}

theorem mem_freshOf : t ∈ freshOf blocks ↔ ∃ b ∈ blocks, t ∈ b.fresh := List.mem_flatMap

theorem map_source_spillBlocks : (spillBlocks places blocks k).blocks.map Block.source =
    blocks.map Block.source := by
  induction blocks generalizing k with
  | nil => rfl
  | cons b bs ih => exact congrArg (b.source :: ·) ih

theorem le_next_spillBlocks : k ≤ (spillBlocks places blocks k).next := by
  induction blocks generalizing k with
  | nil => exact Nat.le_refl k
  | cons b bs ih => exact Nat.le_trans (Nat.le_add_right _ _) ih

/-- Spilling the items of some blocks. -/
theorem spillItems_blocks (hp : Spillable target low places) (h : ∀ b ∈ blocks, b.Tidy target low) :
    spillItems target places (itemsOfBlocks target blocks) k =
      ⟨itemsOfBlocks target (spillBlocks places blocks k).blocks,
        (spillBlocks places blocks k).fresh, (spillBlocks places blocks k).next⟩ := by
  induction blocks generalizing k with
  | nil => rfl
  | cons b bs ih =>
      rcases List.forall_mem_cons.1 h with ⟨hb, hbs⟩
      have hcons : itemsOfBlocks target (b :: bs) = b.items target ++ itemsOfBlocks target bs := rfl
      rw [hcons, spillItems_append, hp.spillItems_items hb]
      dsimp only
      rw [ih hbs]
      rfl

theorem mem_fresh_spill {b : Block} : t ∈ (b.spill places k).fresh ↔
    t ∈ b.fresh ∨ t ∈ (swaps b.core.instr places k).map Swap.new := by
  unfold Block.fresh Block.spill
  rw [List.map_append, List.mem_append]

/-- The fresh temps of spilled blocks are the old ones and those that were made. -/
theorem mem_freshOf_spillBlocks : t ∈ freshOf (spillBlocks places blocks k).blocks ↔
    t ∈ freshOf blocks ∨ t ∈ (spillBlocks places blocks k).fresh := by
  induction blocks generalizing k with
  | nil => simp [freshOf, spillBlocks]
  | cons b bs ih =>
      unfold freshOf at ih ⊢
      unfold spillBlocks
      dsimp only
      rw [List.flatMap_cons, List.flatMap_cons, List.mem_append, List.mem_append,
        List.mem_append, ih, mem_fresh_spill]
      exact or_or_or_comm

theorem mem_fresh_spillBlocks (h : t ∈ (spillBlocks places blocks k).fresh) :
    k ≤ t.id ∧ t.id < (spillBlocks places blocks k).next := by
  induction blocks generalizing k with
  | nil => cases h
  | cons b bs ih =>
      rcases List.mem_append.1 h with h | h
      · have hbounds := mem_map_new_iff.1 h
        exact ⟨hbounds.1, Nat.lt_of_lt_of_le hbounds.2 le_next_spillBlocks⟩
      · have hbounds := ih h
        exact ⟨Nat.le_trans (Nat.le_add_right _ _) hbounds.1, hbounds.2⟩

/-- Fresh temps stay different when more are made behind them. -/
theorem nodup_freshOf_spillBlocks {bound : Nat} (hnodup : (freshOf blocks).Nodup)
    (hlt : ∀ t ∈ freshOf blocks, t.id < bound) (hbound : bound ≤ k) :
    (freshOf (spillBlocks places blocks k).blocks).Nodup := by
  induction blocks generalizing k with
  | nil => exact .nil
  | cons b bs ih =>
      unfold freshOf at hnodup hlt
      rw [List.flatMap_cons] at hnodup hlt
      rcases List.nodup_append.1 hnodup with ⟨hb, hbs, hdisjoint⟩
      rcases List.forall_mem_append.1 hlt with ⟨hltb, hltbs⟩
      have hrest := ih (k := k + (swaps b.core.instr places k).length) hbs hltbs
        (Nat.le_trans hbound (Nat.le_add_right _ _))
      have hnew : ((swaps b.core.instr places k).map Swap.new).Nodup := nodup_swaps_new
      have hfirst : (b.spill places k).fresh.Nodup := by
        unfold Block.fresh Block.spill
        rw [List.map_append]
        refine List.nodup_append.2 ⟨hb, hnew, ?_⟩
        rintro t ht u hu rfl
        exact absurd (hltb t ht) (Nat.not_lt_of_le (Nat.le_trans hbound (mem_map_new_iff.1 hu).1))
      -- a temp of the first block and one of the others are both old, both new, or on two sides of
      -- `k`
      refine List.nodup_append.2 ⟨hfirst, hrest, ?_⟩
      rintro t ht u hu rfl
      rcases mem_freshOf_spillBlocks.1 hu with hold | hmade
      · rcases mem_fresh_spill.1 ht with ht | ht
        · exact hdisjoint t ht t hold rfl
        · exact absurd (hltbs t hold) (Nat.not_lt_of_le
            (Nat.le_trans hbound (mem_map_new_iff.1 ht).1))
      · have hle := (mem_fresh_spillBlocks hmade).1
        rcases mem_fresh_spill.1 ht with ht | ht
        · have hltt := hltb t ht
          omega
        · exact absurd (mem_map_new_iff.1 ht).2 (Nat.not_lt_of_le hle)

theorem mem_spillBlocks {b' : Block} (h : b' ∈ (spillBlocks places blocks k).blocks) :
    ∃ b ∈ blocks, ∃ k', k ≤ k' ∧ b' = b.spill places k' := by
  induction blocks generalizing k with
  | nil => cases h
  | cons b bs ih =>
      rcases List.mem_cons.1 h with rfl | h
      · exact ⟨b, List.mem_cons_self, k, Nat.le_refl k, rfl⟩
      · rcases ih h with ⟨c, hc, k', hk', rfl⟩
        exact ⟨c, List.mem_cons_of_mem _ hc, k', Nat.le_trans (Nat.le_add_right _ _) hk', rfl⟩

/-- Spilling keeps blocks tidy. -/
theorem Tidy.spill (h : Tidy target low k blocks) (hp : Spillable target low places)
    (hlow : low ≤ k) : Tidy target low (spillBlocks places blocks k).next
      (spillBlocks places blocks k).blocks := by
  refine ⟨fun b' hb' => ?_, fun t ht => ?_, ?_⟩
  · rcases mem_spillBlocks hb' with ⟨b, hb, k', hk', rfl⟩
    exact hp.tidy_spill (h.block b hb) (Nat.le_trans hlow hk')
  · rcases mem_freshOf_spillBlocks.1 ht with hold | hmade
    · exact Nat.lt_of_lt_of_le (h.fresh_lt t hold) le_next_spillBlocks
    · exact (mem_fresh_spillBlocks hmade).2
  · exact nodup_freshOf_spillBlocks h.nodup_fresh h.fresh_lt (Nat.le_refl k)

/-- The code of a program of which nothing was spilled. -/
theorem itemsOfBlocks_map (target : Target) (items : List Item) :
    itemsOfBlocks target (items.map fun x => { source := x }) = items := by
  induction items with
  | nil => rfl
  | cons x items ih =>
      have hsame : x.instr.rename (swapped []) = x.instr :=
        (Instr.rename_congr fun t _ => rfl).trans Instr.rename_id
      have hfirst : Block.items target { source := x } = [x] := by
        unfold Block.items Block.core
        rw [hsame]
        rfl
      change Block.items target { source := x } ++ itemsOfBlocks target _ = x :: items
      rw [hfirst, ih]
      rfl

theorem tidy_map {items : List Item}
    (h : ∀ x ∈ items, ∀ t ∈ x.instr.defs ++ x.instr.uses, t.id < low) :
    Tidy target low k (items.map fun x => { source := x }) := by
  have hnone : freshOf (items.map fun x => ({ source := x } : Block)) = [] := by
    refine List.flatMap_eq_nil_iff.2 fun b hb => ?_
    rcases List.mem_map.1 hb with ⟨x, _, rfl⟩
    rfl
  refine ⟨fun b hb => ?_, ?_, ?_⟩
  · rcases List.mem_map.1 hb with ⟨x, hx, rfl⟩
    refine ⟨h x hx, ?_, ?_, ?_, .nil, ?_, ?_⟩
    · exact fun _ he => absurd he List.not_mem_nil
    · exact fun _ he => absurd he List.not_mem_nil
    · exact fun _ he => absurd he List.not_mem_nil
    · exact fun e => ⟨fun he => absurd he List.not_mem_nil, fun he => absurd he.1 List.not_mem_nil⟩
    · exact fun e => ⟨fun he => absurd he List.not_mem_nil, fun he => absurd he.1 List.not_mem_nil⟩
  · rw [hnone]
    exact fun t ht => absurd ht List.not_mem_nil
  · rw [hnone]
    exact .nil

end All

end TreeCompiler
