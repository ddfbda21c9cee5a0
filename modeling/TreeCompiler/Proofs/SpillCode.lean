import Mathlib.Data.List.Nodup
import TreeCompiler.Spill
import TreeCompiler.Proofs.Execution

/-!
# Spilled code — what moving temps to the frame makes of a program

Spilling is described on items.  An instruction gets a fresh temp for each spilled temp that it
mentions (`swaps`); what is loaded before it and stored behind it are accesses of slots, through an
address of their own where the offset is no immediate (`accessCode`).  `Frame.spill_eq` says that
spilling a list of instructions is `spillItems`, and never fails.
-/

namespace TreeCompiler

/-! ## Renaming all operands -/

namespace Instr

/-- An instruction with other operands. -/
def rename (f : Temp → Temp) : Instr → Instr
  | .label text l => .label text l
  | .move text dst src => .move text (dst.map f) (src.map f)
  | .oper text dst src jumps => .oper text (dst.map f) (src.map f) jumps

variable {i : Instr} {f g : Temp → Temp}

@[simp] theorem defs_rename : (i.rename f).defs = i.defs.map f := by
  cases i with
  | label => rfl
  | move text dst src => cases dst <;> rfl
  | oper => rfl

@[simp] theorem uses_rename : (i.rename f).uses = i.uses.map f := by
  cases i with
  | label => rfl
  | move text dst src => cases src <;> rfl
  | oper => rfl

@[simp] theorem label?_rename : (i.rename f).label? = i.label? := by
  cases i <;> rfl

@[simp] theorem jumps?_rename : (i.rename f).jumps? = i.jumps? := by
  cases i <;> rfl

@[simp] theorem text_rename : (i.rename f).text = i.text := by
  cases i <;> rfl

@[simp] theorem targets_rename : (i.rename f).targets = i.targets := by
  cases i <;> rfl

@[simp] theorem fallsThrough_rename : (i.rename f).fallsThrough = i.fallsThrough := by
  cases i <;> rfl

theorem movePair?_rename :
    (i.rename f).movePair? = i.movePair?.map fun e => (f e.1, f e.2) := by
  cases i with
  | label => rfl
  | move text dst src => cases dst <;> cases src <;> rfl
  | oper => rfl

theorem rename_id : i.rename id = i := by
  cases i <;> simp [rename]

theorem rename_rename : (i.rename f).rename g = i.rename fun t => g (f t) := by
  cases i <;> simp [rename, Function.comp_def]

theorem rename_congr (h : ∀ t ∈ i.defs ++ i.uses, f t = g t) : i.rename f = i.rename g := by
  cases i with
  | label => rfl
  | move text dst src =>
      cases dst <;> cases src <;> simp_all [rename, defs, uses]
  | oper text dst src jumps =>
      have hdst : dst.map f = dst.map g :=
        List.map_congr_left fun t ht => h t (List.mem_append_left _ ht)
      have hsrc : src.map f = src.map g :=
        List.map_congr_left fun t ht => h t (List.mem_append_right _ ht)
      simp only [rename, hdst, hsrc]

/-- Putting a temp in the place of another one, in uses and definitions. -/
theorem renameDefs_renameUses_rename (old new : Temp) :
    ((i.rename f).renameUses old new).renameDefs old new
      = i.rename fun t => replace old new (f t) := by
  cases i with
  | label => rfl
  | move text dst src =>
      cases dst <;> cases src <;> rfl
  | oper text dst src jumps =>
      simp [rename, renameUses, renameDefs, Function.comp_def]

theorem replace_of_ne {old new t : Temp} (h : t ≠ old) : replace old new t = t := if_neg h

theorem map_replace_of_not_mem {old new : Temp} {ts : List Temp} (h : old ∉ ts) :
    ts.map (replace old new) = ts := by
  refine (List.map_congr_left fun t ht => replace_of_ne ?_).trans (List.map_id ts)
  exact fun heq => h (heq ▸ ht)

theorem renameUses_of_not_mem {old new : Temp} (h : old ∉ i.uses) : i.renameUses old new = i := by
  cases i with
  | label => rfl
  | move text dst src =>
      cases src with
      | none => rfl
      | some s =>
          have hs : s ≠ old := fun heq => h (heq ▸ List.mem_singleton_self s)
          simp [renameUses, replace_of_ne hs]
  | oper text dst src jumps =>
      have hmap : src.map (replace old new) = src := map_replace_of_not_mem h
      simp only [renameUses, hmap]

theorem renameDefs_of_not_mem {old new : Temp} (h : old ∉ i.defs) : i.renameDefs old new = i := by
  cases i with
  | label => rfl
  | move text dst src =>
      cases dst with
      | none => rfl
      | some d =>
          have hd : d ≠ old := fun heq => h (heq ▸ List.mem_singleton_self d)
          simp [renameDefs, replace_of_ne hd]
  | oper text dst src jumps =>
      have hmap : dst.map (replace old new) = dst := map_replace_of_not_mem h
      simp only [renameDefs, hmap]

end Instr

/-! ## Fresh temps -/

/-- A fresh temp in the place of a spilled one, and the slot of the latter. -/
structure Swap where
  old : Temp
  new : Temp
  offset : Int

/-- A slot as a place. -/
def slotPlace (e : Temp × Int) : Temp × Access := (e.1, .frame e.2)

/-- The spilled temps that an instruction mentions, with fresh temps from number `k` on. -/
def swaps (i : Instr) : List (Temp × Int) → Nat → List Swap
  | [], _ => []
  | (t, offset) :: places, k =>
      if t ∈ i.defs ++ i.uses then ⟨t, ⟨k⟩, offset⟩ :: swaps i places (k + 1)
      else swaps i places k

/-- The temp that is in the place of `t`. -/
def swapped (sw : List Swap) (t : Temp) : Temp :=
  ((sw.find? fun e => e.old = t).map Swap.new).getD t

section Swaps

variable {i : Instr} {places : List (Temp × Int)} {k : Nat} {e e' : Swap} {t : Temp}

theorem mem_swaps (h : e ∈ swaps i places k) : (e.old, e.offset) ∈ places ∧
    e.old ∈ i.defs ++ i.uses ∧ k ≤ e.new.id ∧ e.new.id < k + (swaps i places k).length := by
  induction places generalizing k with
  | nil => cases h
  | cons p places ih =>
      unfold swaps at h ⊢
      split at h
      · rename_i hmem
        rw [if_pos hmem, List.length_cons]
        rcases List.mem_cons.1 h with rfl | h
        · refine ⟨List.mem_cons_self, hmem, Nat.le_refl k, ?_⟩
          dsimp only
          omega
        · have hrest := ih h
          refine ⟨List.mem_cons_of_mem _ hrest.1, hrest.2.1, ?_, ?_⟩
          · exact Nat.le_of_succ_le hrest.2.2.1
          · have hlt := hrest.2.2.2
            omega
      · rename_i hmem
        rw [if_neg hmem]
        have hrest := ih h
        exact ⟨List.mem_cons_of_mem _ hrest.1, hrest.2⟩

theorem exists_swap {offset : Int} (hplace : (t, offset) ∈ places) (ht : t ∈ i.defs ++ i.uses) :
    ∃ e ∈ swaps i places k, e.old = t ∧ e.offset = offset := by
  induction places generalizing k with
  | nil => cases hplace
  | cons p places ih =>
      unfold swaps
      rcases List.mem_cons.1 hplace with rfl | hplace
      · rw [if_pos ht]
        exact ⟨_, List.mem_cons_self, rfl, rfl⟩
      · split
        · rcases ih hplace with ⟨e, he, heq⟩
          exact ⟨e, List.mem_cons_of_mem _ he, heq⟩
        · exact ih hplace

theorem nodup_swaps_old (hnodup : (places.map Prod.fst).Nodup) :
    ((swaps i places k).map Swap.old).Nodup := by
  induction places generalizing k with
  | nil => exact .nil
  | cons p places ih =>
      rw [List.map_cons, List.nodup_cons] at hnodup
      unfold swaps
      split
      · rw [List.map_cons, List.nodup_cons]
        refine ⟨fun hmem => hnodup.1 ?_, ih hnodup.2⟩
        rcases List.mem_map.1 hmem with ⟨e, he, heq⟩
        exact List.mem_map.2 ⟨_, (mem_swaps he).1, heq⟩
      · exact ih hnodup.2

theorem swaps_offset_sublist :
    ((swaps i places k).map Swap.offset).Sublist (places.map Prod.snd) := by
  induction places generalizing k with
  | nil => exact .slnil
  | cons p places ih =>
      unfold swaps
      split
      · exact ih.cons_cons _
      · exact ih.cons _

/-- Fresh temps are numbered in order. -/
theorem swaps_new : (swaps i places k).map Swap.new
    = (List.range' k (swaps i places k).length).map Temp.mk := by
  induction places generalizing k with
  | nil => rfl
  | cons p places ih =>
      unfold swaps
      split
      · rw [List.map_cons, ih, List.length_cons, List.range'_succ, List.map_cons]
      · exact ih

theorem mem_map_new_iff : t ∈ (swaps i places k).map Swap.new ↔
    k ≤ t.id ∧ t.id < k + (swaps i places k).length := by
  rw [swaps_new, ← List.mem_range'_1]
  exact List.mem_map_of_injective (a := t.id) fun a b h => congrArg Temp.id h

theorem nodup_swaps_new : ((swaps i places k).map Swap.new).Nodup := by
  rw [swaps_new]
  exact List.Nodup.map (fun a b h => congrArg Temp.id h) List.nodup_range'

/-- Where no value stands twice, the first member with the value of `a` is `a`. -/
theorem find?_of_nodup_map {α β : Type} [DecidableEq β] {l : List α} {f : α → β} {a : α}
    (hnodup : (l.map f).Nodup) (ha : a ∈ l) : (l.find? fun b => f b = f a) = some a := by
  cases hfind : l.find? fun b => f b = f a with
  | none =>
      have hnone := List.find?_eq_none.1 hfind a ha
      exact absurd rfl (of_decide_eq_false (Bool.eq_false_iff.2 hnone))
  | some b =>
      have hsame : f b = f a := by simpa using List.find?_some hfind
      rw [List.inj_on_of_nodup_map hnodup (List.mem_of_find?_eq_some hfind) ha hsame]

theorem swapped_of_mem {sw : List Swap} (hnodup : (sw.map Swap.old).Nodup) (he : e ∈ sw) :
    swapped sw e.old = e.new := by
  unfold swapped
  rw [find?_of_nodup_map hnodup he]
  rfl

theorem swapped_of_forall_ne {sw : List Swap} (h : ∀ e ∈ sw, e.old ≠ t) : swapped sw t = t := by
  unfold swapped
  have hnone : (sw.find? fun e => e.old = t) = none := by
    refine List.find?_eq_none.2 fun e he => ?_
    simpa using h e he
  rw [hnone]
  rfl

/-- One more swap renames what the others left. -/
theorem swapped_append_singleton {sw : List Swap} (h : ∀ e' ∈ sw, e'.new ≠ e.old) :
    swapped (sw ++ [e]) t = Instr.replace e.old e.new (swapped sw t) := by
  unfold swapped
  rw [List.find?_append]
  cases hfind : sw.find? fun e' => e'.old = t with
  | some e' => exact (Instr.replace_of_ne (h e' (List.mem_of_find?_eq_some hfind))).symm
  | none =>
      by_cases het : e.old = t
      · simp [Instr.replace, het]
      · simp [Instr.replace, het, Ne.symm het]

/-- A spilled temp is no temp that other swaps leave. -/
theorem swapped_ne {sw : List Swap} {u : Temp} (hnew : ∀ e ∈ sw, e.new ≠ t) (hu : u ≠ t) :
    swapped sw u ≠ t := by
  unfold swapped
  cases hfind : sw.find? fun e => e.old = u with
  | none => exact hu
  | some e => exact hnew e (List.mem_of_find?_eq_some hfind)

/-- Renaming where an instruction mentions a temp is renaming it everywhere. -/
theorem rename_append_singleton (i : Instr) {sw : List Swap} (h : ∀ e' ∈ sw, e'.new ≠ e.old) :
    (if i.defs.contains e.old then
      (if i.uses.contains e.old then (i.rename (swapped sw)).renameUses e.old e.new
        else i.rename (swapped sw)).renameDefs e.old e.new
      else if i.uses.contains e.old then (i.rename (swapped sw)).renameUses e.old e.new
        else i.rename (swapped sw))
      = i.rename (swapped (sw ++ [e])) := by
  have hall : i.rename (swapped (sw ++ [e]))
      = ((i.rename (swapped sw)).renameUses e.old e.new).renameDefs e.old e.new := by
    rw [Instr.renameDefs_renameUses_rename]
    exact Instr.rename_congr fun u _ => swapped_append_singleton h
  -- where the temp is not mentioned, nothing is renamed
  have hnone : ∀ ts : List Temp, ts.contains e.old = false → e.old ∉ ts.map (swapped sw) := by
    intro ts hts hmem
    rcases List.mem_map.1 hmem with ⟨u, hu, heq⟩
    refine swapped_ne h (fun hue => ?_) heq
    rw [← hue, List.contains_iff_mem.2 hu] at hts
    cases hts
  have huses : i.uses.contains e.old = false →
      (i.rename (swapped sw)).renameUses e.old e.new = i.rename (swapped sw) := by
    intro hu
    refine Instr.renameUses_of_not_mem ?_
    rw [Instr.uses_rename]
    exact hnone _ hu
  have hdefs : i.defs.contains e.old = false → ∀ j : Instr, j.defs = i.defs.map (swapped sw) →
      j.renameDefs e.old e.new = j := by
    intro hd j hj
    refine Instr.renameDefs_of_not_mem ?_
    rw [hj]
    exact hnone _ hd
  rw [hall]
  cases hu : i.uses.contains e.old with
  | true =>
      cases hd : i.defs.contains e.old with
      | true => rfl
      | false =>
          have hsame := (Instr.defs_renameUses (i.rename (swapped sw)) e.old e.new).trans
            Instr.defs_rename
          exact (hdefs hd _ hsame).symm
  | false =>
      rw [huses hu]
      cases hd : i.defs.contains e.old with
      | true => rfl
      | false => exact (hdefs hd _ Instr.defs_rename).symm

/-- Fresh temps stand for one temp only. -/
theorem swapped_inj {u : Temp} (hnodup : (places.map Prod.fst).Nodup) (ht : t.id < k)
    (hu : u.id < k) (h : swapped (swaps i places k) t = swapped (swaps i places k) u) : t = u := by
  have hold := nodup_swaps_old (i := i) (k := k) hnodup
  by_cases hts : ∃ e ∈ swaps i places k, e.old = t
  · rcases hts with ⟨e, he, rfl⟩
    rw [swapped_of_mem hold he] at h
    by_cases hus : ∃ e' ∈ swaps i places k, e'.old = u
    · rcases hus with ⟨e', he', rfl⟩
      rw [swapped_of_mem hold he'] at h
      rw [List.inj_on_of_nodup_map nodup_swaps_new he he' h]
    · rw [swapped_of_forall_ne fun e' he' heq => hus ⟨e', he', heq⟩] at h
      have hle := (mem_swaps he).2.2.1
      rw [h] at hle
      exact absurd hu (Nat.not_lt_of_le hle)
  · rw [swapped_of_forall_ne fun e' he' heq => hts ⟨e', he', heq⟩] at h
    by_cases hus : ∃ e' ∈ swaps i places k, e'.old = u
    · rcases hus with ⟨e', he', rfl⟩
      rw [swapped_of_mem hold he'] at h
      have hle := (mem_swaps he').2.2.1
      rw [← h] at hle
      exact absurd ht (Nat.not_lt_of_le hle)
    · rwa [swapped_of_forall_ne fun e' he' heq => hus ⟨e', he', heq⟩] at h

end Swaps

/-! ## Accesses of slots -/

/-- An inserted instruction with its operands. -/
structure Inserted where
  what : Insertion
  a : Temp
  b : Temp

def Inserted.operation (x : Inserted) : Operation := x.what.operation x.a x.b

def Inserted.item (target : Target) (x : Inserted) : Item :=
  ⟨.inserted x.what, x.operation.instr target⟩

/-- The address of a slot, in the temp with number `k + 2`. -/
def addressCode (offset : Int) (k : Nat) : List Inserted :=
  [⟨.frameAddress, ⟨k⟩, ⟨k⟩⟩, ⟨.constant offset, ⟨k + 1⟩, ⟨k + 1⟩⟩, ⟨.copy, ⟨k + 2⟩, ⟨k⟩⟩,
    ⟨.add, ⟨k + 2⟩, ⟨k + 1⟩⟩]

/-- The number of temps that the address of a slot takes. -/
def addressTemps (offset : Int) : Nat := if isImm32 offset then 0 else 3

/-- An access of a slot: directly, or through its address. -/
def accessCode (direct indirect : Int → Insertion) (v : Temp) (offset : Int) (k : Nat) :
    List Inserted :=
  if isImm32 offset then [⟨direct offset, v, v⟩]
  else addressCode offset k ++ [⟨indirect offset, v, ⟨k + 2⟩⟩]

def loadCode : Temp → Int → Nat → List Inserted := accessCode .loadSlot .loadAt

def storeCode : Temp → Int → Nat → List Inserted := accessCode .storeSlot .storeAt

/-- Accesses for some swaps; the temps of addresses are numbered from `k` on. -/
def accessAll (access : Temp → Int → Nat → List Inserted) : List Swap → Nat → List Inserted
  | [], _ => []
  | e :: sw, k => access e.new e.offset k ++ accessAll access sw (k + addressTemps e.offset)

/-- The number of temps that the addresses of some slots take. -/
def addressTempsAll : List Swap → Nat
  | [] => 0
  | e :: sw => addressTemps e.offset + addressTempsAll sw

theorem addressTempsAll_eq_zero_iff {sw : List Swap} :
    addressTempsAll sw = 0 ↔ ∀ e ∈ sw, isImm32 e.offset = true := by
  induction sw with
  | nil => exact iff_of_true rfl fun e he => absurd he List.not_mem_nil
  | cons e sw ih =>
      have hfirst : addressTemps e.offset = 0 ↔ isImm32 e.offset = true := by
        unfold addressTemps
        split <;> simp_all
      rw [List.forall_mem_cons, ← ih, ← hfirst]
      exact Nat.add_eq_zero_iff

/-! ## Spilled items -/

/-- Items in which the spilled temps no longer occur. -/
structure SpilledItems where
  items : List Item
  /-- The temps that took their place. -/
  fresh : List Temp
  /-- The number of the next temp. -/
  next : Nat

/-- The swaps of an instruction that it loads before. -/
def loaded (i : Instr) (sw : List Swap) : List Swap := sw.filter fun e => i.uses.contains e.old

/-- The swaps of an instruction that it stores behind. -/
def stored (i : Instr) (sw : List Swap) : List Swap := sw.filter fun e => i.defs.contains e.old

/-- An item with fresh temps, numbered from `k` on, in the place of spilled ones. -/
def coreItem (places : List (Temp × Int)) (x : Item) (k : Nat) : Item :=
  ⟨x.tag, x.instr.rename (swapped (swaps x.instr places k))⟩

@[simp] theorem fallsThrough_coreItem {places : List (Temp × Int)} {x : Item} {k : Nat} :
    (coreItem places x k).instr.fallsThrough = x.instr.fallsThrough :=
  Instr.fallsThrough_rename

@[simp] theorem targets_coreItem {places : List (Temp × Int)} {x : Item} {k : Nat} :
    (coreItem places x k).instr.targets = x.instr.targets :=
  Instr.targets_rename

/-- What is loaded before the item. -/
def loadItems (target : Target) (places : List (Temp × Int)) (x : Item) (k : Nat) : List Item :=
  (accessAll loadCode (loaded x.instr (swaps x.instr places k))
    (k + (swaps x.instr places k).length)).map (·.item target)

/-- The number of the first temp behind those of the loads. -/
def loadNext (places : List (Temp × Int)) (x : Item) (k : Nat) : Nat :=
  k + (swaps x.instr places k).length + addressTempsAll (loaded x.instr (swaps x.instr places k))

/-- What is stored behind the item. -/
def storeItems (target : Target) (places : List (Temp × Int)) (x : Item) (k : Nat) : List Item :=
  (accessAll storeCode (stored x.instr (swaps x.instr places k)) (loadNext places x k)).map
    (·.item target)

/-- The code of an item whose spilled temps live in the frame. -/
def spillItem (target : Target) (places : List (Temp × Int)) (x : Item) (k : Nat) :
    SpilledItems where
  items := loadItems target places x k ++ coreItem places x k :: storeItems target places x k
  fresh := (swaps x.instr places k).map Swap.new
  next := loadNext places x k + addressTempsAll (stored x.instr (swaps x.instr places k))

/-- The code of all items. -/
def spillItems (target : Target) (places : List (Temp × Int)) : List Item → Nat → SpilledItems
  | [], k => ⟨[], [], k⟩
  | x :: rest, k =>
      let first := spillItem target places x k
      let others := spillItems target places rest first.next
      ⟨first.items ++ others.items, first.fresh ++ others.fresh, others.next⟩

theorem le_next_spillItem (target : Target) (places : List (Temp × Int)) (x : Item) (k : Nat) :
    k ≤ (spillItem target places x k).next := by
  unfold spillItem loadNext
  dsimp only
  omega

theorem le_next_spillItems (target : Target) (places : List (Temp × Int)) (code : List Item)
    (k : Nat) : k ≤ (spillItems target places code k).next := by
  induction code generalizing k with
  | nil => exact Nat.le_refl k
  | cons x rest ih => exact Nat.le_trans (le_next_spillItem target places x k) (ih _)

theorem spillItems_append {target : Target} {places : List (Temp × Int)} {k : Nat}
    (xs ys : List Item) : spillItems target places (xs ++ ys) k =
    let first := spillItems target places xs k
    let others := spillItems target places ys first.next
    ⟨first.items ++ others.items, first.fresh ++ others.fresh, others.next⟩ := by
  induction xs generalizing k with
  | nil => rfl
  | cons x xs ih =>
      rw [List.cons_append, spillItems, ih]
      simp [spillItems]

/-! ## The words of a frame -/

/-- One word, then some more. -/
theorem offset_succ (offset word : Int) (n : Nat) :
    offset - word - n * word = offset - (n + 1 : Nat) * word := by
  rw [Int.natCast_succ, Int.add_mul, Int.one_mul]
  omega

namespace Frame

/-- A frame with some more words. -/
def allocSlots (frame : Frame) : Nat → Frame
  | 0 => frame
  | n + 1 => frame.allocSlot.2.allocSlots n

variable (frame : Frame)

theorem allocSlots_add (n k : Nat) :
    frame.allocSlots (n + k) = (frame.allocSlots n).allocSlots k := by
  induction n generalizing frame with
  | zero => rw [Nat.zero_add, allocSlots]
  | succ n ih => rw [Nat.add_right_comm, allocSlots, ih, allocSlots]

/-- The offset goes down by one word each. -/
theorem offset_allocSlots (n : Nat) :
    wrap64 (frame.allocSlots n).offset = wrap64 (frame.offset - n * frame.wordSize) := by
  induction n generalizing frame with
  | zero => simp [allocSlots]
  | succ n ih =>
      rw [allocSlots, ih, ← offset_succ]
      exact wrap64_sub _ _

/-- The rest of the frame stays as it is. -/
theorem allocSlots_eq (n : Nat) :
    frame.allocSlots n = { frame with offset := (frame.allocSlots n).offset } := by
  induction n generalizing frame with
  | zero => rfl
  | succ n ih => exact ih frame.allocSlot.2

theorem sizeSymbol_allocSlots (n : Nat) : (frame.allocSlots n).sizeSymbol = frame.sizeSymbol := by
  rw [allocSlots_eq]
  rfl

end Frame

/-- The slots of some temps, one word each. -/
def slotsOf (frame : Frame) : List Temp → List (Temp × Int)
  | [] => []
  | t :: ts => (t, frame.allocSlot.1) :: slotsOf frame.allocSlot.2 ts

theorem slotsOf_fst (frame : Frame) (ts : List Temp) : (slotsOf frame ts).map Prod.fst = ts := by
  induction ts generalizing frame with
  | nil => rfl
  | cons t ts ih => rw [slotsOf, List.map_cons, ih]

/-- Slots are handed out in order. -/
theorem slotsOf_append (frame : Frame) (ts us : List Temp) :
    slotsOf frame (ts ++ us) = slotsOf frame ts ++ slotsOf (frame.allocSlots ts.length) us := by
  induction ts generalizing frame with
  | nil => rfl
  | cons t ts ih =>
      rw [List.cons_append, slotsOf, ih]
      rfl

/-! ## Spilling is `spillItems` -/

namespace Spill

open Selection

/-- The move from a slot. -/
def loadMove (target : Target) (e : Swap) : Stm :=
  .move (.temp e.new) ((Access.frame e.offset).toExp (.temp target.machine.framePointer))

/-- The move to a slot. -/
def storeMove (target : Target) (e : Swap) : Stm :=
  .move ((Access.frame e.offset).toExp (.temp target.machine.framePointer)) (.temp e.new)

/-- What selection makes of a statement: some operations, and some temps that were handed out. -/
def Selects (target : Target) (stm : Stm) (temps : Nat) (code : Nat → List Inserted) : Prop :=
  ∀ s : Selection.State, (stm.select target).run.run s =
    (.ok (), { s with
      namer := { s.namer with nextTemp := s.namer.nextTemp + temps }
      operations := s.operations ++ ((code s.namer.nextTemp).map Inserted.operation).toArray })

theorem selects_loadMove (target : Target) (e : Swap) :
    Selects target (loadMove target e) (addressTemps e.offset) (loadCode e.new e.offset) := by
  intro s
  unfold loadMove loadCode accessCode addressTemps
  -- whether the offset is an immediate decides which tile covers the address
  cases himm : isImm32 e.offset with
  | true =>
      simp only [Access.toExp, Stm.select, Exp.selectDestination, Exp.selectSource?,
        Exp.selectAddress, moveToTemp, sumAddress, immediate?, Exp.constant?, Option.filter, himm,
        if_true, loadInto, baseAddress, isFramePointer, decide_true, emit]
      rfl
  | false =>
      simp only [Access.toExp, Stm.select, Exp.selectDestination, Exp.selectSource?,
        Exp.selectAddress, moveToTemp, sumAddress, immediate?, Exp.constant?, Option.filter, himm,
        loadInto, isFramePointer, decide_true, emit, Exp.select, Selection.binop, Selection.sum,
        arith, tempValue, operand, constantValue, if_true, Bool.false_eq_true, if_false]
      rfl

theorem selects_storeMove (target : Target) (e : Swap) (hv : e.new ≠ target.machine.framePointer) :
    Selects target (storeMove target e) (addressTemps e.offset) (storeCode e.new e.offset) := by
  intro s
  unfold storeMove storeCode accessCode addressTemps
  cases himm : isImm32 e.offset with
  | true =>
      simp only [Access.toExp, Stm.select, Exp.selectDestination, Exp.selectSource?,
        Exp.selectAddress, moveToMemory, sumAddress, immediate?, Exp.constant?, Option.filter, himm,
        if_true, baseAddress, isFramePointer, decide_true, emit, Exp.select, tempValue, hv,
          if_false]
      rfl
  | false =>
      simp only [Access.toExp, Stm.select, Exp.selectDestination, Exp.selectSource?,
        Exp.selectAddress, moveToMemory, sumAddress, immediate?, Exp.constant?, Option.filter, himm,
        isFramePointer, decide_true, emit, Exp.select, Selection.binop, Selection.sum,
        arith, tempValue, operand, constantValue, if_true, Bool.false_eq_true, hv, if_false]
      rfl

theorem run_seq {first second : SelectM Unit} {s s' : Selection.State}
    (h : first.run.run s = (.ok (), s')) :
    (do first; second : SelectM Unit).run.run s = second.run.run s' := by
  simp only [ExceptT.run_bind, StateT.run_bind, h]
  rfl

theorem selectAll_moves {target : Target} {move : Swap → Stm}
    {access : Temp → Int → Nat → List Inserted} (sw : List Swap)
    (h : ∀ e ∈ sw, Selects target (move e) (addressTemps e.offset) (access e.new e.offset))
    (s : Selection.State) : (Stm.selectAll target (sw.map move)).run.run s =
      (.ok (), { s with
        namer := { s.namer with nextTemp := s.namer.nextTemp + addressTempsAll sw }
        operations := s.operations ++
          ((accessAll access sw s.namer.nextTemp).map Inserted.operation).toArray }) := by
  induction sw generalizing s with
  | nil => simp [Stm.selectAll, addressTempsAll, accessAll]; rfl
  | cons e sw ih =>
      rcases List.forall_mem_cons.1 h with ⟨he, hsw⟩
      have hfirst := he s
      have hrest := ih hsw { s with
        namer := { s.namer with nextTemp := s.namer.nextTemp + addressTemps e.offset }
        operations := s.operations ++
          ((access e.new e.offset s.namer.nextTemp).map Inserted.operation).toArray }
      rw [List.map_cons, Stm.selectAll, run_seq hfirst, hrest]
      simp [addressTempsAll, accessAll, Nat.add_assoc]

/-- The moves before and behind an instruction, as items. -/
theorem selectMoves_eq {target : Target} {move : Swap → Stm}
    {access : Temp → Int → Nat → List Inserted} (sw : List Swap)
    (h : ∀ e ∈ sw, Selects target (move e) (addressTemps e.offset) (access e.new e.offset))
    (n : Namer) : selectMoves target (sw.map move) n =
      (.ok (instrsOf ((accessAll access sw n.nextTemp).map (·.item target))),
        { n with nextTemp := n.nextTemp + addressTempsAll sw }) := by
  unfold selectMoves
  rw [selectAll_moves sw h]
  simp [instrsOf, Except.map, Inserted.item, Function.comp_def]

/-- One more swap is loaded and stored where the instruction uses and defines its temp. -/
theorem map_loaded_append (target : Target) (i : Instr) (sw : List Swap) (e : Swap) :
    (loaded i (sw ++ [e])).map (loadMove target) = (loaded i sw).map (loadMove target) ++
      if i.uses.contains e.old then [loadMove target e] else [] := by
  unfold loaded
  rw [List.filter_append, List.map_append, List.filter_cons, List.filter_nil]
  cases i.uses.contains e.old <;> rfl

theorem map_stored_append (target : Target) (i : Instr) (sw : List Swap) (e : Swap) :
    (stored i (sw ++ [e])).map (storeMove target) = (stored i sw).map (storeMove target) ++
      if i.defs.contains e.old then [storeMove target e] else [] := by
  unfold stored
  rw [List.filter_append, List.map_append, List.filter_cons, List.filter_nil]
  cases i.defs.contains e.old <;> rfl

/-- The operands of an instruction change one spilled temp at a time. -/
theorem replaceTemps_eq {i : Instr} (target : Target) (places : List (Temp × Int))
    (hnodup : (places.map Prod.fst).Nodup) (done : List Swap) (n : Namer)
    (hplaces : ∀ e ∈ places, e.1.id < n.nextTemp)
    (hdone : ∀ e ∈ done, (∀ p ∈ places, e.old ≠ p.1 ∧ e.new ≠ p.1)) :
    replaceTemps (.temp target.machine.framePointer) i.defs i.uses (places.map slotPlace)
      ⟨i.rename (swapped done), done.map Swap.new, (loaded i done).map (loadMove target),
        (stored i done).map (storeMove target)⟩ n =
      (⟨i.rename (swapped (done ++ swaps i places n.nextTemp)),
        (done ++ swaps i places n.nextTemp).map Swap.new,
        (loaded i (done ++ swaps i places n.nextTemp)).map (loadMove target),
        (stored i (done ++ swaps i places n.nextTemp)).map (storeMove target)⟩,
        { n with nextTemp := n.nextTemp + (swaps i places n.nextTemp).length }) := by
  induction places generalizing done n with
  | nil =>
      simp [replaceTemps, swaps]
  | cons p places ih =>
      rcases p with ⟨t, offset⟩
      rcases List.forall_mem_cons.1 hplaces with ⟨htlt, hlt⟩
      rw [List.map_cons, List.nodup_cons] at hnodup
      have hnew : ∀ e ∈ done, e.new ≠ t := fun e he => (hdone e he _ List.mem_cons_self).2
      rw [List.map_cons]
      unfold replaceTemps swaps
      dsimp only [slotPlace]
      by_cases ht : t ∈ i.defs ++ i.uses
      · have hcond : (!i.uses.contains t && !i.defs.contains t) = false := by
          rcases List.mem_append.1 ht with hd | hu
          · simp [hd]
          · simp [hu]
        rw [if_pos ht, if_neg (Bool.eq_false_iff.1 hcond)]
        -- the temp takes the first free number, and the other ones are replaced afterwards
        have hwith := ih hnodup.2 (done ++ [⟨t, ⟨n.nextTemp⟩, offset⟩]) n.freshTemp.2
          (fun e he => Nat.lt_succ_of_lt (hlt e he)) (by
            intro e he q hq
            rcases List.mem_append.1 he with he | he
            · exact hdone e he q (List.mem_cons_of_mem _ hq)
            · cases List.mem_singleton.1 he
              refine ⟨fun heq => hnodup.1 (List.mem_map.2 ⟨q, hq, heq.symm⟩), fun heq => ?_⟩
              have hqlt := hlt q hq
              rw [← heq] at hqlt
              exact Nat.lt_irrefl _ hqlt)
        have hrename := rename_append_singleton (e := Swap.mk t ⟨n.nextTemp⟩ offset) i hnew
        dsimp only at hrename
        have hloads := map_loaded_append target i done ⟨t, ⟨n.nextTemp⟩, offset⟩
        have hstores := map_stored_append target i done ⟨t, ⟨n.nextTemp⟩, offset⟩
        have hfresh : done.map Swap.new ++ [Temp.mk n.nextTemp]
            = (done ++ [Swap.mk t ⟨n.nextTemp⟩ offset]).map Swap.new := by
          rw [List.map_append]
          rfl
        dsimp only [Namer.freshTemp, loadMove, storeMove] at hwith hloads hstores ⊢
        rw [hrename, ← hloads, ← hstores, hfresh, hwith, List.append_assoc]
        simp [Nat.add_assoc, Nat.add_comm 1]
      · have hcond : (!i.uses.contains t && !i.defs.contains t) = true := by
          simp only [List.mem_append, not_or] at ht
          simp [ht.1, ht.2]
        rw [if_neg ht, if_pos hcond]
        exact ih hnodup.2 done n hlt fun e he q hq => hdone e he q (List.mem_cons_of_mem _ hq)

variable {target : Target} {places : List (Temp × Int)} {n : Namer}

/-- Spilling one instruction. -/
theorem spillInstr_eq (x : Item) (hnodup : (places.map Prod.fst).Nodup)
    (hplaces : ∀ e ∈ places, e.1.id < n.nextTemp)
    (hframe : target.machine.framePointer.id < n.nextTemp) :
    spillInstr target (places.map slotPlace) x.instr n =
      (.ok ⟨instrsOf (spillItem target places x n.nextTemp).items,
        (spillItem target places x n.nextTemp).fresh⟩,
        { n with nextTemp := (spillItem target places x n.nextTemp).next }) := by
  have hnone : x.instr.rename (swapped []) = x.instr :=
    (Instr.rename_congr fun t _ => rfl).trans Instr.rename_id
  have hreplace := replaceTemps_eq (i := x.instr) target places hnodup [] n hplaces
    (fun e he => nomatch he)
  rw [hnone] at hreplace
  have hstart : replaceTemps (.temp target.machine.framePointer) x.instr.defs x.instr.uses
      (places.map slotPlace) { instr := x.instr } n = _ := hreplace
  have hloads := selectMoves_eq (loaded x.instr (swaps x.instr places n.nextTemp))
    fun e _ => selects_loadMove target e
  have hstores := selectMoves_eq (stored x.instr (swaps x.instr places n.nextTemp))
    fun e he => selects_storeMove target e fun heq => by
      -- a fresh temp is no register
      have hle := (mem_swaps (List.mem_of_mem_filter he)).2.2.1
      rw [heq] at hle
      exact Nat.not_lt_of_le hle hframe
  unfold spillInstr
  dsimp only
  rw [hstart]
  dsimp only [List.nil_append]
  rw [hloads]
  dsimp only
  rw [hstores]
  simp [Except.map, spillItem, loadItems, coreItem, storeItems, loadNext, instrsOf]

/-- Spilling all instructions. -/
theorem spillAll_eq (target : Target) (code : List Item) (hnodup : (places.map Prod.fst).Nodup)
    (hplaces : ∀ e ∈ places, e.1.id < n.nextTemp)
    (hframe : target.machine.framePointer.id < n.nextTemp) :
    ∃ rs, spillAll target (places.map slotPlace) (instrsOf code) n =
        (.ok rs, { n with nextTemp := (spillItems target places code n.nextTemp).next }) ∧
      rs.flatMap SpilledCode.instrs = instrsOf (spillItems target places code n.nextTemp).items ∧
      rs.flatMap SpilledCode.fresh = (spillItems target places code n.nextTemp).fresh := by
  induction code generalizing n with
  | nil => exact ⟨[], rfl, rfl, rfl⟩
  | cons x rest ih =>
      have hle := le_next_spillItem target places x n.nextTemp
      rcases ih (n := { n with nextTemp := (spillItem target places x n.nextTemp).next })
        (fun e he => Nat.lt_of_lt_of_le (hplaces e he) hle) (Nat.lt_of_lt_of_le hframe hle) with
        ⟨rs, hrs, hinstrs, hfresh⟩
      refine ⟨⟨instrsOf (spillItem target places x n.nextTemp).items,
        (spillItem target places x n.nextTemp).fresh⟩ :: rs, ?_, ?_, ?_⟩
      · change spillAll target (places.map slotPlace) (x.instr :: instrsOf rest) n = _
        unfold spillAll
        rw [spillInstr_eq x hnodup hplaces hframe]
        dsimp only
        rw [hrs]
        rfl
      · rw [List.flatMap_cons, hinstrs]
        simp [spillItems, instrsOf]
      · rw [List.flatMap_cons, hfresh]
        rfl

end Spill

/-! ## The frame -/

theorem slots_eq (frame : Frame) (ts : List Temp) :
    Spill.slots frame ts = ((slotsOf frame ts).map slotPlace, frame.allocSlots ts.length) := by
  induction ts generalizing frame with
  | nil => rfl
  | cons t ts ih =>
      unfold Spill.slots
      dsimp only
      rw [ih]
      rfl

theorem lookup_of_mem {α β : Type} [BEq α] [LawfulBEq α] {l : List (α × β)} {a : α} {b : β}
    (hnodup : (l.map Prod.fst).Nodup) (h : (a, b) ∈ l) : l.lookup a = some b := by
  induction l with
  | nil => cases h
  | cons e l ih =>
      rw [List.map_cons, List.nodup_cons] at hnodup
      rw [List.lookup_cons]
      rcases List.mem_cons.1 h with rfl | h
      · rw [beq_self_eq_true]
      · have hne : (a == e.1) = false := by
          rw [beq_eq_false_iff_ne]
          intro heq
          exact hnodup.1 (List.mem_map.2 ⟨(a, b), h, heq⟩)
        rw [hne]
        exact ih hnodup.2 h

/-- Temps that are spilled once have one place. -/
theorem places_eq {places : List (Temp × Access)} (h : (places.map Prod.fst).Nodup) :
    Spill.places places = places := by
  have hrev : (places.reverse.map Prod.fst).Nodup := by
    rw [List.map_reverse]
    exact List.nodup_reverse.2 h
  unfold Spill.places
  refine (List.map_congr_left fun e he => ?_).trans (List.map_id places)
  rw [lookup_of_mem hrev (List.mem_reverse.2 he)]
  rfl

/-- Moving temps to the frame never fails, and gives `spillItems`. -/
theorem Frame.spill_eq (frame : Frame) (m : Machine) (code : List Item) {spilled : List Temp}
    (n : Namer) (hnodup : spilled.Nodup) (hspilled : ∀ t ∈ spilled, t.id < n.nextTemp)
    (hframe : m.framePointer.id < n.nextTemp) :
    frame.spill m (instrsOf code) spilled n =
      let s := spillItems ⟨m, frame.sizeSymbol⟩ (slotsOf frame spilled) code n.nextTemp
      (.ok ⟨instrsOf s.items, s.fresh⟩, frame.allocSlots spilled.length,
        { n with nextTemp := s.next }) := by
  have hfst := slotsOf_fst frame spilled
  have hplaces : ∀ e ∈ slotsOf frame spilled, e.1.id < n.nextTemp := by
    intro e he
    exact hspilled e.1 (hfst ▸ List.mem_map_of_mem he)
  have hmap : ((slotsOf frame spilled).map slotPlace).map Prod.fst = spilled := by
    rw [List.map_map]
    exact hfst
  rcases Spill.spillAll_eq ⟨m, frame.sizeSymbol⟩ code (hfst.symm ▸ hnodup) hplaces hframe
    with ⟨rs, hrs, hinstrs, hfresh⟩
  unfold Frame.spill
  rw [slots_eq]
  dsimp only
  rw [places_eq (hmap.symm ▸ hnodup), hrs]
  simp only [Except.map, hinstrs, hfresh]

end TreeCompiler
