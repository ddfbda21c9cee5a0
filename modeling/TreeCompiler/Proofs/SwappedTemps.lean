import TreeCompiler.Proofs.Progress

/-!
# SwappedTemps — the temps that take the place of spilled ones, in all of the code

The fresh temps of one instruction are those of its swaps.  Over all instructions they are numbered
in order, so that each of them stands for one temp (`nodup_swapsOf`).  Spilled code is the code
again once the inserted instructions are left out and each fresh temp is called what it stands for
(`erase_spillItems`).
-/

namespace TreeCompiler

variable {target : Target} {places : List (Temp × Int)} {code rest : List Item} {k : Nat} {x : Item}
  {e : Swap} {t : Temp} {f : Temp → Temp}

/-! ## The swaps of all instructions -/

/-- The swaps of each item, in order. -/
def swapsOf (target : Target) (places : List (Temp × Int)) : List Item → Nat → List Swap
  | [], _ => []
  | x :: rest, k =>
      swaps x.instr places k ++ swapsOf target places rest (spillItem target places x k).next

theorem fresh_spillItems :
    (spillItems target places code k).fresh = (swapsOf target places code k).map Swap.new := by
  induction code generalizing k with
  | nil => rfl
  | cons x rest ih =>
      rw [swapsOf, List.map_append, ← ih]
      rfl

theorem swapsOf_append (front : List Item) : swapsOf target places (front ++ rest) k =
    swapsOf target places front k
      ++ swapsOf target places rest (spillItems target places front k).next := by
  induction front generalizing k with
  | nil => rfl
  | cons x front ih =>
      rw [List.cons_append, swapsOf, swapsOf, ih, List.append_assoc]
      rfl

/-- Spilled code begins with that of its first item. -/
theorem items_spillItems_cons : (spillItems target places (x :: rest) k).items =
    loadItems target places x k ++ coreItem places x k :: (storeItems target places x k ++
      (spillItems target places rest (spillItem target places x k).next).items) :=
  List.append_assoc ..

theorem next_spillItems_append_singleton (target : Target) (places : List (Temp × Int))
    (front : List Item) (x : Item) (k : Nat) : (spillItems target places (front ++ [x]) k).next
      = (spillItem target places x (spillItems target places front k).next).next := by
  rw [spillItems_append]
  rfl

/-- The temps of an instruction are numbered before those of the accesses around it. -/
theorem length_swaps_le (target : Target) (places : List (Temp × Int)) (x : Item) (k : Nat) :
    k + (swaps x.instr places k).length ≤ (spillItem target places x k).next := by
  unfold spillItem loadNext
  dsimp only
  omega

theorem mem_swapsOf (h : e ∈ swapsOf target places code k) : (e.old, e.offset) ∈ places ∧
    k ≤ e.new.id ∧ e.new.id < (spillItems target places code k).next := by
  induction code generalizing k with
  | nil => cases h
  | cons x rest ih =>
      have hnext := le_next_spillItems target places rest (spillItem target places x k).next
      have hlength := length_swaps_le target places x k
      rcases List.mem_append.1 h with h | h
      · have hswap := mem_swaps h
        exact ⟨hswap.1, hswap.2.2.1, by change _ < (spillItems target places rest _).next; omega⟩
      · have hrest := ih h
        have hle := le_next_spillItem target places x k
        exact ⟨hrest.1, by omega, hrest.2.2⟩

theorem mem_fresh_spillItems (h : t ∈ (spillItems target places code k).fresh) :
    k ≤ t.id ∧ t.id < (spillItems target places code k).next := by
  rw [fresh_spillItems] at h
  rcases List.mem_map.1 h with ⟨e, he, rfl⟩
  exact (mem_swapsOf he).2

/-- No temp takes the place of two. -/
theorem nodup_swapsOf : ((swapsOf target places code k).map Swap.new).Nodup := by
  induction code generalizing k with
  | nil => exact .nil
  | cons x rest ih =>
      rw [swapsOf, List.map_append]
      refine List.Nodup.append nodup_swaps_new ih fun t hfirst hrest => ?_
      -- numbers go on behind those of the first item
      rcases List.mem_map.1 hfirst with ⟨e, he, rfl⟩
      rcases List.mem_map.1 hrest with ⟨e', he', heq⟩
      have hlt := (mem_swaps he).2.2.2
      have hle := (mem_swapsOf he').2.1
      rw [heq] at hle
      exact Nat.not_lt_of_le (Nat.le_trans (length_swaps_le target places x k) hle) hlt

/-! ## What the fresh temps stand for -/

/-- The temp that `t` is in the place of. -/
def unswapped (sw : List Swap) (t : Temp) : Temp :=
  ((sw.find? fun e => e.new = t).map Swap.old).getD t

theorem unswapped_of_mem {sw : List Swap} (hnodup : (sw.map Swap.new).Nodup) (he : e ∈ sw) :
    unswapped sw e.new = e.old := by
  unfold unswapped
  rw [find?_of_nodup_map hnodup he]
  rfl

theorem unswapped_of_forall_ne {sw : List Swap} (h : ∀ e ∈ sw, e.new ≠ t) : unswapped sw t = t := by
  unfold unswapped
  have hnone : (sw.find? fun e => e.new = t) = none := by
    refine List.find?_eq_none.2 fun e he => ?_
    simpa using h e he
  rw [hnone]
  rfl

/-- The temp in the place of `t` stands for `t`. -/
theorem unswapped_swapped {sw all : List Swap} (hold : (sw.map Swap.old).Nodup)
    (hnew : (all.map Swap.new).Nodup) (hsub : sw ⊆ all) (ht : ∀ e ∈ all, e.new ≠ t) :
    unswapped all (swapped sw t) = t := by
  by_cases h : ∃ e ∈ sw, e.old = t
  · rcases h with ⟨e, he, rfl⟩
    rw [swapped_of_mem hold he, unswapped_of_mem hnew (hsub he)]
  · rw [swapped_of_forall_ne fun e he heq => h ⟨e, he, heq⟩, unswapped_of_forall_ne ht]

/-! ## Leaving out what was inserted -/

/-- An item with other operands. -/
def Item.rename (f : Temp → Temp) (x : Item) : Item := ⟨x.tag, x.instr.rename f⟩

/-- The instructions of the program, with other operands. -/
def erase (f : Temp → Temp) (items : List Item) : List Item :=
  (items.filter fun x => x.number?.isSome).map (Item.rename f)

theorem erase_append (xs ys : List Item) : erase f (xs ++ ys) = erase f xs ++ erase f ys := by
  unfold erase
  rw [List.filter_append, List.map_append]

theorem erase_inserted (xs : List Inserted) : erase f (xs.map (·.item target)) = [] := by
  unfold erase
  rw [List.map_eq_nil_iff, List.filter_eq_nil_iff]
  intro y hy
  rcases List.mem_map.1 hy with ⟨z, _, rfl⟩
  exact Bool.false_ne_true

/-- An instruction of the program. -/
def Item.IsSource (x : Item) : Prop := ∃ n, x.tag = .source n

/-- An item is what is left of its code. -/
theorem erase_spillItem (hsource : x.IsSource)
    (h : ∀ t ∈ x.instr.defs ++ x.instr.uses, f (swapped (swaps x.instr places k) t) = t) :
    erase f (spillItem target places x k).items = [x] := by
  rcases hsource with ⟨n, htag⟩
  have hcore : erase f [coreItem places x k] = [x] := by
    have hinstr : (x.instr.rename (swapped (swaps x.instr places k))).rename f = x.instr := by
      rw [Instr.rename_rename]
      exact (Instr.rename_congr h).trans Instr.rename_id
    cases x
    cases htag
    unfold erase coreItem Item.rename
    simp [Item.number?, hinstr]
  change erase f (loadItems target places x k ++
    ([coreItem places x k] ++ storeItems target places x k)) = [x]
  unfold loadItems storeItems
  rw [erase_append, erase_append, erase_inserted, erase_inserted, hcore]
  rfl

/-- Code is what is left of spilled code; the rest of the code, of the rest of the spilled code. -/
theorem erase_spillItems {all : List Swap} (hnodup : (places.map Prod.fst).Nodup)
    (hsource : ∀ x ∈ code, x.IsSource) (hnew : (all.map Swap.new).Nodup)
    (hsub : swapsOf target places code k ⊆ all)
    (hlt : ∀ x ∈ code, ∀ t ∈ x.instr.defs ++ x.instr.uses, ∀ e ∈ all, e.new ≠ t) :
    erase (unswapped all) (spillItems target places code k).items = code := by
  induction code generalizing k with
  | nil => rfl
  | cons x rest ih =>
      rcases List.forall_mem_cons.1 hsource with ⟨hx, hrest⟩
      rcases List.forall_mem_cons.1 hlt with ⟨hltx, hltrest⟩
      have hsubs := List.append_subset.1 hsub
      have hfirst : erase (unswapped all) (spillItem target places x k).items = [x] :=
        erase_spillItem hx fun t ht =>
          unswapped_swapped (nodup_swaps_old hnodup) hnew hsubs.1 (hltx t ht)
      rw [spillItems, erase_append, hfirst, ih hrest hsubs.2 hltrest, List.singleton_append]

end TreeCompiler
