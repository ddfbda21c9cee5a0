import TreeCompiler.Proofs.RegisterFile
import TreeCompiler.Proofs.SpillCode

/-!
# Rounds — what holds of the code of each round

Fresh temps are numbered behind all temps of the code and new slots are none of the old ones, so
that nothing that was inserted clashes with what is there (`Orderly`, `Placed`).  Slots are all
different as long as they have fewer than 2^63 bytes, wherever the frame starts (`nodup_slotsOf`).
Spilling keeps the code in order (`Orderly.spillItems`).
-/

namespace TreeCompiler

variable {target : Target} {k : Nat} {used : List Int} {code : List Item}
  {places : List (Temp × Int)}

/-- What holds of the code of each round, given the slots that are in use. -/
structure Orderly (target : Target) (k : Nat) (used : List Int) (code : List Item) : Prop where
  lt : ∀ x ∈ code, ∀ t ∈ x.instr.defs ++ x.instr.uses, t.id < k
  reserved : ∀ x ∈ code, ∀ d ∈ x.instr.defs, target.machine.isReserved d = false
  jumps : ∀ x ∈ code, x.instr.targets ≠ [] → x.instr.defs = []
  slots : ∀ x ∈ code, ∀ offset, x.slot? = some offset → offset ∈ used
  inserted : ∀ x ∈ code, ∀ what, x.tag = .inserted what →
    ∃ a b, x.instr = (what.operation a b).instr target
  registers : Temp.firstVirtual ≤ k

/-- The places of spilled temps. -/
structure Placed (target : Target) (k : Nat) (used : List Int) (places : List (Temp × Int)) :
    Prop where
  nodup : (places.map Prod.fst).Nodup
  nodup_slots : (places.map Prod.snd).Nodup
  lt : ∀ e ∈ places, e.1.id < k
  notRegister : ∀ e ∈ places, target.machine.isRegister e.1 = false
  unused : ∀ e ∈ places, e.2 ∉ used

theorem Orderly.sp_lt (h : Orderly target k used code) : target.machine.stackPointer.id < k :=
  Nat.lt_of_lt_of_le (Machine.lt_firstVirtual target.machine.isRegister_stackPointer) h.registers

theorem ne_stackPointer {m : Machine} {t : Temp} (h : m.isRegister t = false) :
    t ≠ m.stackPointer := by
  rintro rfl
  rw [m.isRegister_stackPointer] at h
  cases h

theorem Placed.sp_not_mem (h : Placed target k used places) :
    target.machine.stackPointer ∉ places.map Prod.fst := by
  intro hmem
  rcases List.mem_map.1 hmem with ⟨e, he, heq⟩
  exact ne_stackPointer (h.notRegister e he) heq

/-- A temp that was not spilled stays in its place. -/
theorem swapped_of_not_mem {i : Instr} {t : Temp} {k' : Nat} (ht : t ∉ places.map Prod.fst) :
    swapped (swaps i places k') t = t := by
  refine swapped_of_forall_ne fun e he heq => ht ?_
  exact List.mem_map.2 ⟨_, (mem_swaps he).1, heq⟩

/-! ## Inserted code -/

/-- The operands of an inserted instruction. -/
theorem mem_defs_item {x : Inserted} {t : Temp} (h : t ∈ (x.item target).instr.defs) : t = x.a := by
  rcases x with ⟨what, a, b⟩
  cases what <;> first | exact List.mem_singleton.1 h | exact absurd h List.not_mem_nil

theorem mem_uses_item {x : Inserted} {t : Temp} (h : t ∈ (x.item target).instr.uses) :
    t = x.a ∨ t = x.b ∨ t = target.machine.stackPointer := by
  rcases x with ⟨what, a, b⟩
  cases what <;> simp [Inserted.item, Inserted.operation, Insertion.operation, Operation.instr,
    Instr.plain, Instr.copy, Instr.uses, Address.register] at h <;> grind

theorem mem_operands_item {x : Inserted} {t : Temp}
    (h : t ∈ (x.item target).instr.defs ++ (x.item target).instr.uses) :
    t = x.a ∨ t = x.b ∨ t = target.machine.stackPointer := by
  rcases List.mem_append.1 h with hdef | huse
  · exact .inl (mem_defs_item hdef)
  · exact mem_uses_item huse

theorem targets_item (x : Inserted) : (x.item target).instr.targets = [] := by
  rcases x with ⟨what, a, b⟩
  cases what <;> rfl

/-- The operands of an access are the temp and those of its address. -/
theorem mem_accessCode {direct indirect : Int → Insertion} {v : Temp} {offset : Int} {x : Inserted}
    (hdirect : (direct offset).slot? = some offset)
    (hindirect : (indirect offset).slot? = some offset)
    (h : x ∈ accessCode direct indirect v offset k) :
    (∀ t, t = x.a ∨ t = x.b → t = v ∨ (k ≤ t.id ∧ t.id < k + addressTemps offset)) ∧
      ∀ o, x.what.slot? = some o → o = offset := by
  unfold accessCode at h
  unfold addressTemps
  split at h
  · rename_i himm
    cases List.mem_singleton.1 h
    rw [if_pos himm]
    refine ⟨fun t ht => .inl (ht.elim id id), fun o ho => ?_⟩
    exact Option.some.inj (ho.symm.trans hdirect)
  · -- the address has its own three temps, and the access uses the last of them
    rename_i himm
    rw [if_neg himm]
    rcases List.mem_append.1 h with h | h
    · simp only [addressCode, List.mem_cons, List.not_mem_nil, or_false] at h
      rcases h with rfl | rfl | rfl | rfl
      all_goals
        refine ⟨?_, fun o ho => by cases ho⟩
        rintro t (rfl | rfl)
        all_goals
          refine .inr ⟨?_, ?_⟩
          · dsimp only; omega
          · dsimp only; omega
    · cases List.mem_singleton.1 h
      refine ⟨?_, fun o ho => Option.some.inj (ho.symm.trans hindirect)⟩
      rintro t (rfl | rfl)
      · exact .inl rfl
      · refine .inr ⟨?_, ?_⟩
        · dsimp only; omega
        · dsimp only; omega

theorem mem_accessAll {access : Temp → Int → Nat → List Inserted} {sw : List Swap} {x : Inserted}
    (h : x ∈ accessAll access sw k) : ∃ e ∈ sw, ∃ k', k ≤ k' ∧
      k' + addressTemps e.offset ≤ k + addressTempsAll sw ∧ x ∈ access e.new e.offset k' := by
  induction sw generalizing k with
  | nil => cases h
  | cons e sw ih =>
      have hsum : addressTempsAll (e :: sw) = addressTemps e.offset + addressTempsAll sw := by
        simp [addressTempsAll]
      rcases List.mem_append.1 h with h | h
      · refine ⟨e, List.mem_cons_self, k, Nat.le_refl k, ?_, h⟩
        rw [hsum]
        omega
      · rcases ih h with ⟨e', he', k', hle, hlt, hx⟩
        refine ⟨e', List.mem_cons_of_mem _ he', k', by omega, ?_, hx⟩
        rw [hsum]
        omega

/-- An inserted instruction with fresh operands that accesses at most a new slot. -/
structure Fresh (target : Target) (places : List (Temp × Int)) (k next : Nat) (y : Item) :
    Prop where
  item : ∃ x : Inserted, y = x.item target ∧ (∀ t, t = x.a ∨ t = x.b → k ≤ t.id ∧ t.id < next) ∧
    ∀ offset, x.what.slot? = some offset → offset ∈ places.map Prod.snd

theorem Fresh.of_mem {i : Instr} {direct indirect : Int → Insertion} {sw : List Swap} {x : Inserted}
    {k₁ next : Nat} (hdirect : ∀ offset, (direct offset).slot? = some offset)
    (hindirect : ∀ offset, (indirect offset).slot? = some offset) (hsw : sw ⊆ swaps i places k)
    (hk₁ : k + (swaps i places k).length ≤ k₁) (hnext : k₁ + addressTempsAll sw ≤ next)
    (h : x ∈ accessAll (accessCode direct indirect) sw k₁) :
    Fresh target places k next (x.item target) := by
  rcases mem_accessAll h with ⟨e, he, k', hle, hlt, hmem⟩
  have hswap := mem_swaps (hsw he)
  have haccess := mem_accessCode (hdirect e.offset) (hindirect e.offset) hmem
  refine ⟨x, rfl, fun t ht => ?_, fun offset ho => ?_⟩
  · rcases haccess.1 t ht with rfl | ht
    · omega
    · omega
  · rw [haccess.2 offset ho]
    exact List.mem_map.2 ⟨_, hswap.1, rfl⟩

/-- The code of an item is the item itself between fresh instructions. -/
theorem mem_spillItem {x y : Item} (h : y ∈ (spillItem target places x k).items) :
    y = coreItem places x k ∨ Fresh target places k (spillItem target places x k).next y := by
  rcases List.mem_append.1 h with h | h
  · rcases List.mem_map.1 h with ⟨z, hz, rfl⟩
    refine .inr (Fresh.of_mem (fun _ => rfl) (fun _ => rfl) (List.filter_subset_self _)
      (Nat.le_refl _) ?_ hz)
    exact Nat.le_add_right _ _
  · rcases List.mem_cons.1 h with rfl | h
    · exact .inl rfl
    · rcases List.mem_map.1 h with ⟨z, hz, rfl⟩
      exact .inr (Fresh.of_mem (fun _ => rfl) (fun _ => rfl) (List.filter_subset_self _)
        (Nat.le_add_right _ _) (Nat.le_refl _) hz)

theorem mem_spillItems {y : Item} (h : y ∈ (spillItems target places code k).items) :
    ∃ x ∈ code, ∃ k', k ≤ k' ∧
      (spillItem target places x k').next ≤ (spillItems target places code k).next ∧
      (y = coreItem places x k' ∨
        Fresh target places k' (spillItem target places x k').next y) := by
  induction code generalizing k with
  | nil => cases h
  | cons x rest ih =>
      rcases List.mem_append.1 h with h | h
      · refine ⟨x, List.mem_cons_self, k, Nat.le_refl k, ?_, mem_spillItem h⟩
        exact le_next_spillItems target places rest _
      · rcases ih h with ⟨x', hx', k', hk', hnext, hy⟩
        exact ⟨x', List.mem_cons_of_mem _ hx', k',
          Nat.le_trans (le_next_spillItem target places x k) hk', hnext, hy⟩

/-! ## The next round -/

/-- An inserted instruction is inserted still after its operands were renamed. -/
theorem rename_operation {what : Insertion} {a b : Temp} {f : Temp → Temp}
    (hf : f target.machine.stackPointer = target.machine.stackPointer) :
    ((what.operation a b).instr target).rename f = (what.operation (f a) (f b)).instr target := by
  cases what <;> simp [Insertion.operation, Operation.instr, Instr.plain, Instr.copy, Instr.rename,
    Address.register, Address.text, hf]

theorem notReserved_of_firstVirtual_le {t : Temp} (m : Machine) (h : Temp.firstVirtual ≤ t.id) :
    m.isReserved t = false := by
  refine Bool.eq_false_iff.2 fun hreserved => ?_
  have hlt := Machine.lt_firstVirtual (Machine.isRegister_of_isReserved hreserved)
  exact Nat.not_lt_of_le h hlt

/-- A temp of the renamed item is a temp of the item, or a fresh one. -/
theorem swapped_cases {i : Instr} (t : Temp) (hnodup : (places.map Prod.fst).Nodup) :
    swapped (swaps i places k) t = t ∨ (k ≤ (swapped (swaps i places k) t).id ∧
      (swapped (swaps i places k) t).id < k + (swaps i places k).length) := by
  by_cases ht : ∃ e ∈ swaps i places k, e.old = t
  · rcases ht with ⟨e, he, rfl⟩
    rw [swapped_of_mem (nodup_swaps_old hnodup) he]
    exact .inr (mem_swaps he).2.2
  · exact .inl (swapped_of_forall_ne fun e he heq => ht ⟨e, he, heq⟩)

/-- Spilling numbers its temps in order, behind those of the code. -/
theorem lt_spillItems (h : ∀ x ∈ code, ∀ t ∈ x.instr.defs ++ x.instr.uses, t.id < k)
    (hnodup : (places.map Prod.fst).Nodup) (hsp : target.machine.stackPointer.id < k) :
    ∀ y ∈ (spillItems target places code k).items, ∀ t ∈ y.instr.defs ++ y.instr.uses,
      t.id < (spillItems target places code k).next := by
  have hnext := le_next_spillItems target places code k
  intro y hy t ht
  rcases mem_spillItems hy with ⟨x, hx, k', hk', hle, rfl | ⟨z, rfl, hz, _⟩⟩
  · unfold coreItem at ht
    rw [Instr.defs_rename, Instr.uses_rename, ← List.map_append] at ht
    rcases List.mem_map.1 ht with ⟨u, hu, rfl⟩
    rcases swapped_cases (i := x.instr) (k := k') u hnodup with heq | ⟨_, hlt⟩
    · rw [heq]
      exact Nat.lt_of_lt_of_le (h x hx u hu) hnext
    · have hlen : k' + (swaps x.instr places k').length ≤ (spillItem target places x k').next := by
        change _ ≤ k' + _ + _ + _
        omega
      exact Nat.lt_of_lt_of_le hlt (Nat.le_trans hlen hle)
  · have hown : ∀ t, t = z.a ∨ t = z.b → t.id < (spillItems target places code k).next :=
      fun t ht => Nat.lt_of_lt_of_le (hz t ht).2 hle
    rcases mem_operands_item ht with ha | hb | rfl
    · exact hown t (.inl ha)
    · exact hown t (.inr hb)
    · exact Nat.lt_of_lt_of_le hsp hnext

/-- Spilling keeps code in order. -/
theorem Orderly.spillItems (h : Orderly target k used code) (hp : Placed target k used places) :
    Orderly target (spillItems target places code k).next (used ++ places.map Prod.snd)
      (spillItems target places code k).items := by
  have hnext := le_next_spillItems target places code k
  refine ⟨lt_spillItems h.lt hp.nodup h.sp_lt, ?reserved, ?jumps, ?slots, ?inserted,
    Nat.le_trans h.registers hnext⟩
  case reserved =>
    -- the stack pointer is only read: what is written is new, or was written before
    intro y hy d hd
    rcases mem_spillItems hy with ⟨x, hx, k', hk', hle, rfl | ⟨z, rfl, hz, _⟩⟩
    · unfold coreItem at hd
      rw [Instr.defs_rename] at hd
      rcases List.mem_map.1 hd with ⟨u, hu, rfl⟩
      rcases swapped_cases (i := x.instr) (k := k') u hp.nodup with heq | ⟨hge, _⟩
      · rw [heq]
        exact h.reserved x hx u hu
      · exact notReserved_of_firstVirtual_le _
          (Nat.le_trans h.registers (Nat.le_trans hk' hge))
    · rw [mem_defs_item hd]
      exact notReserved_of_firstVirtual_le _
        (Nat.le_trans h.registers (Nat.le_trans hk' (hz _ (.inl rfl)).1))
  case jumps =>
    intro y hy htargets
    rcases mem_spillItems hy with ⟨x, hx, k', hk', hle, rfl | ⟨z, rfl, hz, _⟩⟩
    · unfold coreItem at htargets ⊢
      rw [Instr.targets_rename] at htargets
      rw [Instr.defs_rename, h.jumps x hx htargets]
      rfl
    · exact absurd (targets_item z) htargets
  case slots =>
    intro y hy offset hoffset
    rcases mem_spillItems hy with ⟨x, hx, k', hk', hle, rfl | ⟨z, rfl, _, hz⟩⟩
    · exact List.mem_append_left _ (h.slots x hx offset hoffset)
    · exact List.mem_append_right _ (hz offset hoffset)
  case inserted =>
    intro y hy what hwhat
    rcases mem_spillItems hy with ⟨x, hx, k', hk', hle, rfl | ⟨z, rfl, _, _⟩⟩
    · -- an instruction of an earlier round takes other temps, but keeps the stack pointer
      rcases h.inserted x hx what hwhat with ⟨a, b, heq⟩
      have hsp : swapped (swaps x.instr places k') target.machine.stackPointer
          = target.machine.stackPointer := swapped_of_not_mem hp.sp_not_mem
      refine ⟨swapped (swaps x.instr places k') a, swapped (swaps x.instr places k') b, ?_⟩
      rw [← rename_operation hsp, ← heq]
      rfl
    · cases hwhat
      exact ⟨z.a, z.b, rfl⟩

/-! ## Slots of a frame -/

/-- Slots lie one word below each other. -/
theorem getElem?_slotsOf (frame : Frame) (ts : List Temp) (j : Nat) : (slotsOf frame ts)[j]? =
    ts[j]?.map fun t => (t, wrap64 (frame.offset - (j + 1 : Nat) * frame.wordSize)) := by
  induction ts generalizing frame j with
  | nil => rfl
  | cons t ts ih =>
      cases j with
      | zero =>
          rw [Nat.zero_add, Int.natCast_one, Int.one_mul]
          rfl
      | succ j =>
          rw [slotsOf, List.getElem?_cons_succ, List.getElem?_cons_succ, ih,
            ← offset_succ frame.offset _ (j + 1)]
          simp only [Frame.allocSlot, wrap64_sub]

theorem mem_slotsOf {frame : Frame} {ts : List Temp} {e : Temp × Int} (h : e ∈ slotsOf frame ts) :
    ∃ i : Nat, 1 ≤ i ∧ i ≤ ts.length ∧ e.2 = wrap64 (frame.offset - i * frame.wordSize) := by
  obtain ⟨j, hj⟩ := List.mem_iff_getElem?.1 h
  rw [getElem?_slotsOf] at hj
  obtain ⟨t, ht, rfl⟩ := Option.map_eq_some_iff.1 hj
  exact ⟨j + 1, Nat.le_add_left _ _, (List.getElem?_eq_some_iff.1 ht).1, rfl⟩

/-- Of two slots the later one lies further down. -/
theorem pairwise_slotsOf (frame : Frame) (ts : List Temp) :
    (slotsOf frame ts).Pairwise fun e e' => ∃ i j : Nat, i < j ∧ j ≤ ts.length ∧
      e.2 = wrap64 (frame.offset - i * frame.wordSize) ∧
      e'.2 = wrap64 (frame.offset - j * frame.wordSize) := by
  have hget : ∀ i (hi : i < (slotsOf frame ts).length), i < ts.length ∧
      (slotsOf frame ts)[i].2 = wrap64 (frame.offset - (i + 1 : Nat) * frame.wordSize) := by
    intro i hi
    have h := List.getElem?_eq_getElem hi
    rw [getElem?_slotsOf] at h
    obtain ⟨t, ht, heq⟩ := Option.map_eq_some_iff.1 h
    exact ⟨(List.getElem?_eq_some_iff.1 ht).1, heq ▸ rfl⟩
  refine List.pairwise_iff_getElem.2 fun i j hi hj hij => ?_
  exact ⟨i + 1, j + 1, Nat.succ_lt_succ hij, (hget j hj).1, (hget i hi).2, (hget j hj).2⟩

/-- One word more for each number. -/
theorem succ_mul_le {i j : Nat} {word : Int} (hword : 0 < word) (h : i < j) :
    i * word + word ≤ j * word := by
  have hle := Int.mul_le_mul_of_nonneg_right (show (i + 1 : Int) ≤ j by omega) (Int.le_of_lt hword)
  rwa [Int.add_mul, Int.one_mul] at hle

/-- Slots are fewer than there are addresses, so that none comes up twice. -/
theorem nodup_slotsOf {frame : Frame} {ts : List Temp} (hw : 0 < frame.wordSize)
    (hwords : ts.length * frame.wordSize ≤ 0x7fffffffffffffff) :
    ((slotsOf frame ts).map Prod.snd).Nodup := by
  refine List.pairwise_map.2 ((pairwise_slotsOf frame ts).imp ?_)
  rintro e e' ⟨i, j, hij, hj, he, he'⟩ heq
  have hnonneg : 0 ≤ (i : Int) * frame.wordSize :=
    Int.mul_nonneg (Int.natCast_nonneg i) (Int.le_of_lt hw)
  have hlt := succ_mul_le hw hij
  have hle : (j : Int) * frame.wordSize ≤ ts.length * frame.wordSize :=
    Int.mul_le_mul_of_nonneg_right (by omega) (Int.le_of_lt hw)
  -- the slots are less than 2^64 bytes apart, so they are as different as their depths
  have hsame := eq_of_wrap64_eq (he.symm.trans (heq.trans he')) (by omega) (by omega)
  omega

/-- Temps of the code that are spilled have a place, if their slots are none that are in use. -/
theorem placed_slotsOf {frame : Frame} {spilled : List Temp}
    (hslots : (used ++ (slotsOf frame spilled).map Prod.snd).Nodup) (hnodup : spilled.Nodup)
    (hlt : ∀ t ∈ spilled, t.id < k)
    (hreg : ∀ t ∈ spilled, target.machine.isRegister t = false) :
    Placed target k used (slotsOf frame spilled) := by
  have hfst := slotsOf_fst frame spilled
  have hmem : ∀ e ∈ slotsOf frame spilled, e.1 ∈ spilled := fun e he =>
    hfst ▸ List.mem_map_of_mem he
  obtain ⟨-, hnew, hapart⟩ := List.nodup_append.1 hslots
  exact ⟨hfst.symm ▸ hnodup, hnew, fun e he => hlt _ (hmem e he), fun e he => hreg _ (hmem e he),
    fun e he hold => hapart _ hold _ (List.mem_map_of_mem he) rfl⟩

end TreeCompiler
