import TreeCompiler.Proofs.Liveness
import TreeCompiler.Proofs.SpillRounds

/-!
# Spilled code runs like the code it was made from

Each step of an item is matched by the steps of its code: the loads bring the values of spilled
temps to fresh ones, the instruction does the same with them, and the stores bring the values that
it defined back to the slots (`Mirrors.step`).  In between, a live temp has the value that it has in
the run of the old code, and a live spilled temp has it in its slot (`Mirrors`).
-/

namespace TreeCompiler

open FlowGraph

variable {V M : Type} {target : Target} {w : Words V} {I : Interpretation V M} {code : List Item}
  {file : Temp → V} {slots : Int → V} {memory : M} {rest : List Item} {k : Nat}

/-! ## Accesses of slots -/

/-- The run of code that was inserted, on temps. -/
abbrev Runs (target : Target) (w : Words V) (I : Interpretation V M) (code : List Item)
    (s : State Temp V M) (tr : List (Event V M)) (s' : State Temp V M) : Prop :=
  Run id target.machine.stackPointer w I code s tr s'

/-- An inserted instruction falls through and leaves no trace. -/
theorem runs_inserted {x : Inserted} {v : V} {slots' : Int → V} (memory : M) (rest : List Item)
    (hacts : x.what.Acts w (file target.machine.stackPointer) slots
      ((x.item target).operands id file) v slots')
    (hfall : (x.item target).instr.fallsThrough = true) :
    Runs target w I code ⟨file, slots, memory, x.item target :: rest⟩ []
      ⟨write id (x.item target).instr.defs (fun _ => v) file, slots', memory, rest⟩ :=
  Step.run (.act (.inserted x.what _ _ v slots' hacts) (.fall hfall))

section Access

variable (target : Target) (w : Words V) (I : Interpretation V M) (code : List Item)
  (file : Temp → V) (slots : Int → V) (memory : M) (rest : List Item) (k : Nat)

/-- The address of a slot is computed in temps of its own. -/
theorem runs_addressCode (offset : Int) :
    ∃ file', Runs target w I code
        ⟨file, slots, memory, (addressCode offset k).map (·.item target) ++ rest⟩ []
        ⟨file', slots, memory, rest⟩ ∧
      file' ⟨k + 2⟩ = w.address (file target.machine.stackPointer) offset ∧
      ∀ t : Temp, t.id < k → file' t = file t := by
  have hne : ∀ (t : Temp) (j : Nat), t.id < k → t ≠ ⟨k + j⟩ := by
    intro t j ht heq
    rw [heq] at ht
    exact Nat.not_le_of_lt ht (Nat.le_add_right k j)
  -- the three temps are new: what the code uses keeps its value
  have h₀ := fun t ht => hne t 0 ht
  have h₁ := fun t ht => hne t 1 ht
  have h₂ := fun t ht => hne t 2 ht
  refine ⟨_, Run.trans (runs_inserted (x := ⟨.frameAddress, ⟨k⟩, ⟨k⟩⟩) _ _ .frameAddress rfl) <|
    Run.trans (runs_inserted (x := ⟨.constant offset, ⟨k + 1⟩, ⟨k + 1⟩⟩) _ _
      (.constant offset) rfl) <|
    Run.trans (runs_inserted (x := ⟨.copy, ⟨k + 2⟩, ⟨k⟩⟩) _ _ (.copy _) rfl) <|
    runs_inserted (x := ⟨.add, ⟨k + 2⟩, ⟨k + 1⟩⟩) _ _ (.add _ _) rfl, ?_, ?_⟩
  · have hadd := w.add_constant (file target.machine.stackPointer) offset
    simpa [write, Inserted.item, Inserted.operation, Insertion.operation, Operation.instr,
      Instr.defs, Instr.plain, Instr.copy, Function.update] using hadd
  · intro t ht
    have ht₀ := h₀ t ht
    have ht₁ := h₁ t ht
    have ht₂ := h₂ t ht
    simp_all [write, Inserted.item, Inserted.operation, Insertion.operation, Operation.instr,
      Instr.defs, Instr.plain, Instr.copy, Function.update]

/-- A load brings the value of a slot to a temp. -/
theorem runs_loadCode (v : Temp) (offset : Int) (hsp : target.machine.stackPointer.id < k) :
    ∃ file', Runs target w I code
        ⟨file, slots, memory, (loadCode v offset k).map (·.item target) ++ rest⟩ []
        ⟨file', slots, memory, rest⟩ ∧
      file' v = slots offset ∧ ∀ t : Temp, t ≠ v → t.id < k → file' t = file t := by
  unfold loadCode accessCode
  split
  · refine ⟨_, runs_inserted (x := ⟨.loadSlot offset, v, v⟩) _ _ (.loadSlot offset) rfl, ?_, ?_⟩
    · exact Function.update_self v (slots offset) file
    · intro t htv _
      exact Function.update_of_ne htv (slots offset) file
  · -- the slot is out of reach, and its address is computed first
    rcases runs_addressCode target w I code file slots memory
      ([Inserted.item target ⟨.loadAt offset, v, ⟨k + 2⟩⟩] ++ rest) k offset with
      ⟨file₁, hrun, haddress, hkeep⟩
    have hbase : ((Inserted.item target ⟨.loadAt offset, v, ⟨k + 2⟩⟩).operands id file₁)
        = [w.address (file₁ target.machine.stackPointer) offset] := by
      rw [hkeep _ hsp, ← haddress]
      rfl
    have hacts : (Insertion.loadAt offset).Acts w (file₁ target.machine.stackPointer) slots
        ((Inserted.item target ⟨.loadAt offset, v, ⟨k + 2⟩⟩).operands id file₁) (slots offset)
        slots := by
      rw [hbase]
      exact .loadAt offset
    have hload : Runs target w I code _ [] _ :=
      runs_inserted (x := ⟨.loadAt offset, v, ⟨k + 2⟩⟩) memory rest hacts rfl
    rw [List.map_append, List.append_assoc]
    refine ⟨_, hrun.trans hload, ?_, ?_⟩
    · exact Function.update_self v (slots offset) file₁
    · intro t htv ht
      exact (Function.update_of_ne htv (slots offset) file₁).trans (hkeep t ht)

/-- A store brings the value of a temp to a slot. -/
theorem runs_storeCode (v : Temp) (offset : Int) (hsp : target.machine.stackPointer.id < k)
    (hv : v.id < k) : ∃ file', Runs target w I code
        ⟨file, slots, memory, (storeCode v offset k).map (·.item target) ++ rest⟩ []
        ⟨file', Function.update slots offset (file v), memory, rest⟩ ∧
      ∀ t : Temp, t.id < k → file' t = file t := by
  unfold storeCode accessCode
  split
  · exact ⟨_, runs_inserted (x := ⟨.storeSlot offset, v, v⟩) _ _ (.storeSlot offset _) rfl,
      fun t _ => rfl⟩
  · rcases runs_addressCode target w I code file slots memory
      ([Inserted.item target ⟨.storeAt offset, v, ⟨k + 2⟩⟩] ++ rest) k offset with
      ⟨file₁, hrun, haddress, hkeep⟩
    have hbase : ((Inserted.item target ⟨.storeAt offset, v, ⟨k + 2⟩⟩).operands id file₁)
        = [file v, w.address (file₁ target.machine.stackPointer) offset] := by
      rw [hkeep _ hsp, ← haddress, ← hkeep v hv]
      rfl
    have hacts : (Insertion.storeAt offset).Acts w (file₁ target.machine.stackPointer) slots
        ((Inserted.item target ⟨.storeAt offset, v, ⟨k + 2⟩⟩).operands id file₁) (file v)
        (Function.update slots offset (file v)) := by
      rw [hbase]
      exact .storeAt offset (file v)
    have hstore : Runs target w I code _ [] _ :=
      runs_inserted (x := ⟨.storeAt offset, v, ⟨k + 2⟩⟩) memory rest hacts rfl
    rw [List.map_append, List.append_assoc]
    exact ⟨_, hrun.trans hstore, hkeep⟩

/-- All loads before an instruction. -/
theorem runs_loads (sw : List Swap) (hsp : target.machine.stackPointer.id < k)
    (hnew : (sw.map Swap.new).Nodup)
    (hlt : ∀ e ∈ sw, e.new.id < k ∧ e.new ≠ target.machine.stackPointer) :
    ∃ file', Runs target w I code
        ⟨file, slots, memory, (accessAll loadCode sw k).map (·.item target) ++ rest⟩ []
        ⟨file', slots, memory, rest⟩ ∧
      (∀ e ∈ sw, file' e.new = slots e.offset) ∧
      ∀ t : Temp, (∀ e ∈ sw, t ≠ e.new) → t.id < k → file' t = file t := by
  induction sw generalizing file k with
  | nil => exact ⟨file, .refl _, fun e he => absurd he List.not_mem_nil, fun t _ _ => rfl⟩
  | cons e sw ih =>
      rcases List.forall_mem_cons.1 hlt with ⟨he, hsw⟩
      rw [List.map_cons, List.nodup_cons] at hnew
      have hle : k ≤ k + addressTemps e.offset := Nat.le_add_right _ _
      rcases runs_loadCode target w I code file slots memory
        ((accessAll loadCode sw (k + addressTemps e.offset)).map (·.item target) ++ rest) k e.new
        e.offset hsp with ⟨file₁, hrun₁, hval₁, hkeep₁⟩
      rcases ih file₁ (k + addressTemps e.offset) (Nat.lt_of_lt_of_le hsp hle) hnew.2
        (fun e' he' => ⟨Nat.lt_of_lt_of_le (hsw e' he').1 hle, (hsw e' he').2⟩) with
        ⟨file₂, hrun₂, hval₂, hkeep₂⟩
      refine ⟨file₂, ?_, ?_, ?_⟩
      · unfold accessAll
        rw [List.map_append, List.append_assoc]
        exact hrun₁.trans hrun₂
      · intro e' he'
        rcases List.mem_cons.1 he' with rfl | he'
        · -- later loads are to other temps
          rw [← hval₁]
          refine hkeep₂ _ (fun e'' he'' heq => hnew.1 ?_) (Nat.lt_of_lt_of_le he.1 hle)
          exact List.mem_map.2 ⟨e'', he'', heq.symm⟩
        · exact hval₂ e' he'
      · intro t hne ht
        rcases List.forall_mem_cons.1 hne with ⟨hte, htsw⟩
        exact (hkeep₂ t htsw (Nat.lt_of_lt_of_le ht hle)).trans (hkeep₁ t hte ht)

/-- All stores behind an instruction. -/
theorem runs_stores (sw : List Swap) (hsp : target.machine.stackPointer.id < k)
    (hoffset : (sw.map Swap.offset).Nodup) (hlt : ∀ e ∈ sw, e.new.id < k) :
    ∃ file' slots', Runs target w I code
        ⟨file, slots, memory, (accessAll storeCode sw k).map (·.item target) ++ rest⟩ []
        ⟨file', slots', memory, rest⟩ ∧
      (∀ e ∈ sw, slots' e.offset = file e.new) ∧
      (∀ offset, (∀ e ∈ sw, offset ≠ e.offset) → slots' offset = slots offset) ∧
      ∀ t : Temp, t.id < k → file' t = file t := by
  induction sw generalizing file slots k with
  | nil =>
      exact ⟨file, slots, .refl _, fun e he => absurd he List.not_mem_nil, fun _ _ => rfl,
        fun t _ => rfl⟩
  | cons e sw ih =>
      rcases List.forall_mem_cons.1 hlt with ⟨he, hsw⟩
      rw [List.map_cons, List.nodup_cons] at hoffset
      have hle : k ≤ k + addressTemps e.offset := Nat.le_add_right _ _
      rcases runs_storeCode target w I code file slots memory
        ((accessAll storeCode sw (k + addressTemps e.offset)).map (·.item target) ++ rest) k e.new
        e.offset hsp he with ⟨file₁, hrun₁, hkeep₁⟩
      rcases ih file₁ (Function.update slots e.offset (file e.new)) (k + addressTemps e.offset)
        (Nat.lt_of_lt_of_le hsp hle) hoffset.2 (fun e' he' => Nat.lt_of_lt_of_le (hsw e' he') hle)
        with ⟨file₂, slots₂, hrun₂, hval₂, hother₂, hkeep₂⟩
      refine ⟨file₂, slots₂, ?_, ?_, ?_, ?_⟩
      · unfold accessAll
        rw [List.map_append, List.append_assoc]
        exact hrun₁.trans hrun₂
      · intro e' he'
        rcases List.mem_cons.1 he' with rfl | he'
        · -- later stores are to other slots
          have hlater : ∀ e'' ∈ sw, e'.offset ≠ e''.offset := fun e'' he'' heq =>
            hoffset.1 (List.mem_map.2 ⟨e'', he'', heq.symm⟩)
          rw [hother₂ _ hlater, Function.update_self]
        · rw [hval₂ e' he', hkeep₁ _ (hsw e' he')]
      · intro offset hne
        rcases List.forall_mem_cons.1 hne with ⟨hhead, htail⟩
        rw [hother₂ offset htail, Function.update_of_ne hhead]
      · intro t ht
        exact (hkeep₂ t (Nat.lt_of_lt_of_le ht hle)).trans (hkeep₁ t ht)

end Access

/-! ## An item with other operands -/

/-- An item acts in the same way with other operands and on other slots, where its own slot has the
same value. -/
theorem Item.Acts.transfer {x : Item} {sp : V} {vs : List V} {o : Outcome V M}
    {slots₁ slots' : Int → V} (h : x.Acts w I sp memory slots vs o slots₁) (f : Temp → Temp)
    (hslot : ∀ offset, x.slot? = some offset → slots' offset = slots offset) :
    ∃ slots₁', (⟨x.tag, x.instr.rename f⟩ : Item).Acts w I sp memory slots' vs o slots₁' ∧
      (∀ offset, slots' offset = slots offset → slots₁' offset = slots₁ offset) ∧
      ∀ offset, x.slot? ≠ some offset → slots₁' offset = slots' offset := by
  cases h with
  | label n text l values =>
      exact ⟨slots', .label n text l values, fun _ => id, fun _ _ => rfl⟩
  | copy n text d s v =>
      exact ⟨slots', .copy n text (f d) (f s) v, fun _ => id, fun _ _ => rfl⟩
  | oper n i vs hlabel hcopy =>
      refine ⟨slots', .oper n _ vs ?_ ?_, fun _ => id, fun _ _ => rfl⟩
      · rw [Instr.label?_rename, hlabel]
      · rw [Instr.movePair?_rename, hcopy]
        rfl
  | inserted what i vs v slots₁ h =>
      -- a store changes its own slot on both sides alike
      have hupdate : ∀ (offset : Int) (v : V),
          (∀ other, slots' other = slots other →
            Function.update slots' offset v other = Function.update slots offset v other) ∧
          ∀ other, some offset ≠ some other →
            Function.update slots' offset v other = slots' other := by
        intro offset v
        refine ⟨fun other hother => ?_, fun other hother => ?_⟩
        · simp only [Function.update_apply, hother]
        · exact Function.update_of_ne (fun heq => hother (congrArg some heq.symm)) _ _
      cases h with
      | loadSlot offset =>
          have hown : slots' offset = slots offset := hslot offset rfl
          exact ⟨slots', hown ▸ .inserted _ _ _ _ _ (.loadSlot offset), fun _ => id, fun _ _ => rfl⟩
      | storeSlot offset v =>
          exact ⟨_, .inserted _ _ _ _ _ (.storeSlot offset v), hupdate offset v⟩
      | frameAddress =>
          exact ⟨slots', .inserted _ _ _ _ _ .frameAddress, fun _ => id, fun _ _ => rfl⟩
      | constant c => exact ⟨slots', .inserted _ _ _ _ _ (.constant c), fun _ => id, fun _ _ => rfl⟩
      | copy v => exact ⟨slots', .inserted _ _ _ _ _ (.copy v), fun _ => id, fun _ _ => rfl⟩
      | add a b => exact ⟨slots', .inserted _ _ _ _ _ (.add a b), fun _ => id, fun _ _ => rfl⟩
      | loadAt offset =>
          have hown : slots' offset = slots offset := hslot offset rfl
          exact ⟨slots', hown ▸ .inserted _ _ _ _ _ (.loadAt offset), fun _ => id, fun _ _ => rfl⟩
      | storeAt offset v =>
          exact ⟨_, .inserted _ _ _ _ _ (.storeAt offset v), hupdate offset v⟩

/-- Writing to renamed temps is writing to other places. -/
theorem write_map (f : Temp → Temp) (ds : List Temp) (values : Nat → V) (file : Temp → V) :
    write id (ds.map f) values file = write f ds values file := by
  induction ds generalizing values file with
  | nil => rfl
  | cons d ds ih => exact ih _ _

/-! ## Rounds -/

/-- A run of spilled code is where the run of the old code is, with the same values. -/
structure Mirrors (target : Target) (code : List Item) (places : List (Temp × Int)) (k : Nat)
    (s s' : State Temp V M) : Prop where
  temps : ∀ t, Live (instrsOf code) t (instrsOf s.rest) → t ∉ places.map Prod.fst →
    s'.file t = s.file t
  spilled : ∀ e ∈ places, Live (instrsOf code) e.1 (instrsOf s.rest) → s'.slots e.2 = s.file e.1
  sp : s'.file target.machine.stackPointer = s.file target.machine.stackPointer
  slots : ∀ x ∈ code, ∀ offset, x.slot? = some offset → s'.slots offset = s.slots offset
  memory : s'.memory = s.memory
  rest : ∃ k', k ≤ k' ∧ s'.rest = (spillItems target places s.rest k').items

section Round

variable {places : List (Temp × Int)} {used : List Int} {s s' s₂ : State Temp V M} {x : Item}

theorem Orderly.lt_of_live (h : Orderly target k used code) {t : Temp}
    (hlive : Live (instrsOf code) t (instrsOf rest)) (hsuffix : rest <:+ code) : t.id < k := by
  have hmap : instrsOf rest <:+ instrsOf code := hsuffix.map Item.instr
  rcases hlive.exists_use hmap with ⟨i, hi, huse⟩
  rcases List.mem_map.1 hi with ⟨y, hy, rfl⟩
  exact h.lt y hy t (List.mem_append_right _ huse)

/-! ### Labels -/

theorem carries_item (l : Label) (x : Inserted) : carries l (x.item target).instr = false := by
  rcases x with ⟨what, a, b⟩
  cases what <;> rfl

theorem seekItem_append {l : Label} {before : List Item} (after : List Item)
    (h : ∀ x ∈ before, carries l x.instr = false) :
    seekItem l (before ++ after) = seekItem l after := by
  induction before with
  | nil => rfl
  | cons x before ih =>
      rcases List.forall_mem_cons.1 h with ⟨hx, hbefore⟩
      rw [List.cons_append, seekItem, hx]
      exact ih hbefore

theorem swaps_of_label {i : Instr} {l : Label} (h : i.label? = some l) (k' : Nat) :
    swaps i places k' = [] := by
  cases i with
  | label text l' =>
      induction places generalizing k' with
      | nil => rfl
      | cons p places ih => exact (if_neg List.not_mem_nil).trans (ih k')
  | move => cases h
  | oper => cases h

theorem carries_coreItem (l : Label) (x : Item) (k' : Nat) :
    carries l (coreItem places x k').instr = carries l x.instr := by
  unfold carries coreItem
  rw [Instr.label?_rename]

/-- Spilling puts no label in. -/
theorem carries_spillItem {l : Label} (hx : carries l x.instr = false) (k' : Nat) :
    ∀ y ∈ (spillItem target places x k').items, carries l y.instr = false := by
  have hinserted : ∀ xs : List Inserted, ∀ y ∈ xs.map (·.item target),
      carries l y.instr = false := by
    intro xs y hy
    rcases List.mem_map.1 hy with ⟨z, _, rfl⟩
    exact carries_item l z
  intro y hy
  unfold spillItem at hy
  dsimp only at hy
  rcases List.mem_append.1 hy with hy | hy
  · exact hinserted _ y hy
  · rcases List.mem_cons.1 hy with rfl | hy
    · rw [carries_coreItem]
      exact hx
    · exact hinserted _ y hy

/-- A label is at the beginning of the code of its item. -/
theorem seekItem_spillItems {l : Label} {dest : List Item} (h : seekItem l code = some dest)
    (k' : Nat) : ∃ front, code = front ++ dest ∧ seekItem l (spillItems target places code k').items
      = some (spillItems target places dest (spillItems target places front k').next).items := by
  induction code generalizing k' with
  | nil => cases h
  | cons x rest ih =>
      unfold seekItem at h
      split at h
      · -- a label has no operands, so no code is put in front of it
        rename_i hx
        cases h
        refine ⟨[], rfl, ?_⟩
        have hlabel : x.instr.label? = some l := of_decide_eq_true hx
        have hloads : loadItems target places x k' = [] := by
          unfold loadItems
          rw [swaps_of_label hlabel]
          rfl
        change seekItem l (spillItems target places (x :: rest) k').items
          = some (spillItems target places (x :: rest) k').items
        unfold spillItems spillItem
        dsimp only
        rw [hloads, List.nil_append, List.cons_append, seekItem,
          if_pos ((carries_coreItem l x k').trans hx)]
      · rename_i hx
        rcases ih h (spillItem target places x k').next with ⟨front, hfront, hseek⟩
        refine ⟨x :: front, by rw [hfront, List.cons_append], ?_⟩
        change seekItem l ((spillItem target places x k').items ++ _) = _
        exact (seekItem_append _ (carries_spillItem (Bool.eq_false_iff.2 hx) k')).trans hseek

/-! ### One item -/

/-- Behind the loads, the operands of the instruction have the values that they should have. -/
theorem runs_loadItems {file' : Temp → V} {slots' : Int → V} {k' : Nat}
    (hnodup : (places.map Prod.fst).Nodup) (hsp : target.machine.stackPointer.id < k) (hk : k ≤ k')
    (hlt : ∀ u ∈ x.instr.uses, u.id < k)
    (htemps : ∀ u ∈ x.instr.uses, u ∉ places.map Prod.fst → file' u = file u)
    (hspilled : ∀ e ∈ places, e.1 ∈ x.instr.uses → slots' e.2 = file e.1) (memory : M)
    (code' others : List Item) :
    ∃ file₁, Runs target w I code'
        ⟨file', slots', memory, loadItems target places x k' ++ others⟩ []
        ⟨file₁, slots', memory, others⟩ ∧
      (∀ u ∈ x.instr.uses, file₁ (swapped (swaps x.instr places k') u) = file u) ∧
      ∀ t : Temp, t.id < k → file₁ t = file' t := by
  have hsub : (loaded x.instr (swaps x.instr places k')).Sublist (swaps x.instr places k') :=
    List.filter_sublist
  have hspk := Nat.lt_of_lt_of_le hsp hk
  have hnew : ((loaded x.instr (swaps x.instr places k')).map Swap.new).Nodup :=
    (hsub.map Swap.new).nodup nodup_swaps_new
  have hold := nodup_swaps_old (i := x.instr) (k := k') hnodup
  -- the fresh temps are behind all temps of the code
  have hfresh : ∀ t : Temp, t.id < k → ∀ e ∈ swaps x.instr places k', t ≠ e.new := by
    intro t ht e he heq
    rw [heq] at ht
    exact Nat.not_le_of_lt ht (Nat.le_trans hk (mem_swaps he).2.2.1)
  rcases runs_loads target w I code' file' slots' memory others
    (k' + (swaps x.instr places k').length) (loaded x.instr (swaps x.instr places k'))
    (Nat.lt_of_lt_of_le hspk (Nat.le_add_right _ _)) hnew
    (fun e he => ⟨(mem_swaps (hsub.mem he)).2.2.2,
      Ne.symm (hfresh _ hsp e (hsub.mem he))⟩) with ⟨file₁, hrun, hval, hkeep⟩
  have hkeep' : ∀ t : Temp, t.id < k → file₁ t = file' t := fun t ht =>
    hkeep t (fun e he => hfresh t ht e (hsub.mem he))
      (Nat.lt_of_lt_of_le ht (Nat.le_trans hk (Nat.le_add_right _ _)))
  refine ⟨file₁, hrun, fun u hu => ?_, hkeep'⟩
  by_cases hmem : u ∈ places.map Prod.fst
  · rcases List.mem_map.1 hmem with ⟨p, hplace, rfl⟩
    rcases exists_swap (k := k') hplace (List.mem_append_right x.instr.defs hu) with
      ⟨e, he, hold', hoffset⟩
    have hloaded : e ∈ loaded x.instr (swaps x.instr places k') := by
      refine List.mem_filter.2 ⟨he, List.contains_iff_mem.2 ?_⟩
      rwa [hold']
    rw [← hold', swapped_of_mem hold he, hval e hloaded, hoffset, hold']
    exact hspilled p hplace hu
  · rw [swapped_of_not_mem hmem, hkeep' u (hlt u hu)]
    exact htemps u hu hmem

/-- An instruction uses the values of the temps that its operands are in the place of. -/
theorem operands_coreItem {file₁ : Temp → V} {k' : Nat}
    (h : ∀ u ∈ x.instr.uses, file₁ (swapped (swaps x.instr places k') u) = file u) :
    (coreItem places x k').operands id file₁ = x.operands id file := by
  unfold Item.operands coreItem
  rw [Instr.uses_rename, List.map_map]
  exact List.map_congr_left h

theorem write_coreItem (k' : Nat) (values : Nat → V) (file₁ : Temp → V) :
    write id (coreItem places x k').instr.defs values file₁
      = write (swapped (swaps x.instr places k')) x.instr.defs values file₁ := by
  unfold coreItem
  rw [Instr.defs_rename, write_map]

/-- The instruction itself does with the fresh temps what it does with the spilled ones. -/
theorem runs_core {file₁ : Temp → V} {slots' slots₁' : Int → V} {k' : Nat} {o : Outcome V M}
    {l : Option Label} {code' rest' dest' : List Item}
    (hoperands : ∀ u ∈ x.instr.uses, file₁ (swapped (swaps x.instr places k') u) = file u)
    (hsp : file₁ target.machine.stackPointer = file target.machine.stackPointer)
    (hacts : (coreItem places x k').Acts w I (file target.machine.stackPointer) memory slots'
      (x.operands id file) o slots₁')
    (hl : o.target = l) (hgoes : Goes code' (coreItem places x k').instr rest' l dest') :
    Runs target w I code' ⟨file₁, slots', memory, coreItem places x k' :: rest'⟩
      (x.events (x.operands id file) memory)
      ⟨write (swapped (swaps x.instr places k')) x.instr.defs o.values file₁, slots₁', o.memory,
        dest'⟩ := by
  have huses := operands_coreItem hoperands
  have hevents : (coreItem places x k').events ((coreItem places x k').operands id file₁) memory
      = x.events (x.operands id file) memory := by
    rw [huses]
    rfl
  rw [← hevents, ← write_coreItem]
  exact (Step.of_goes (huses.symm ▸ hsp.symm ▸ hacts) hl hgoes).run

/-- The stores bring the values of the fresh temps to the slots. -/
theorem runs_storeItems (hslots : (places.map Prod.snd).Nodup)
    (hsp : target.machine.stackPointer.id < k) {k' : Nat} (hk : k ≤ k') (file₂ : Temp → V)
    (slots₂ : Int → V) (memory₂ : M) (code' others : List Item) :
    ∃ file₃ slots₃, Runs target w I code'
        ⟨file₂, slots₂, memory₂, storeItems target places x k' ++ others⟩ []
        ⟨file₃, slots₃, memory₂, others⟩ ∧
      (∀ t : Temp, t.id < k → file₃ t = file₂ t) ∧
      (∀ e ∈ stored x.instr (swaps x.instr places k'), slots₃ e.offset = file₂ e.new) ∧
      ∀ offset, (∀ e ∈ stored x.instr (swaps x.instr places k'), offset ≠ e.offset) →
        slots₃ offset = slots₂ offset := by
  have hsub : (stored x.instr (swaps x.instr places k')).Sublist (swaps x.instr places k') :=
    List.filter_sublist
  have hle : k' + (swaps x.instr places k').length ≤ loadNext places x k' := Nat.le_add_right _ _
  have hle' : k ≤ loadNext places x k' := hk.trans ((Nat.le_add_right _ _).trans hle)
  rcases runs_stores target w I code' file₂ slots₂ memory₂ others (loadNext places x k')
    (stored x.instr (swaps x.instr places k')) (Nat.lt_of_lt_of_le hsp hle')
    (((hsub.map Swap.offset).trans swaps_offset_sublist).nodup hslots)
    (fun e he => Nat.lt_of_lt_of_le (mem_swaps (hsub.mem he)).2.2.2 hle) with
    ⟨file₃, slots₃, hstores, hstored, hslots₃, hfile₃⟩
  exact ⟨file₃, slots₃, hstores, fun t ht =>
    hfile₃ t (Nat.lt_of_lt_of_le ht hle'), hstored, hslots₃⟩

/-- A spilled temp that an instruction defines is stored. -/
theorem exists_stored {i : Instr} {p : Temp × Int} (hplace : p ∈ places) (hdef : p.1 ∈ i.defs)
    (k' : Nat) : ∃ e ∈ stored i (swaps i places k'), e.old = p.1 ∧ e.offset = p.2 := by
  rcases exists_swap (k := k') hplace (List.mem_append_left i.uses hdef) with ⟨e, he, hold, hoffset⟩
  exact ⟨e, List.mem_filter.2 ⟨he, List.contains_iff_mem.2 (hold ▸ hdef)⟩, hold, hoffset⟩

/-- Behind an instruction that defines nothing there is nothing to store. -/
theorem stored_eq_nil {i : Instr} (h : i.defs = []) (sw : List Swap) : stored i sw = [] := by
  unfold stored
  rw [h]
  exact List.filter_eq_nil_iff.2 fun e _ => by simp

/-- Nothing is stored to the place of a spilled temp that an instruction does not define. -/
theorem Placed.not_stored (hp : Placed target k used places) {i : Instr} {p : Temp × Int}
    (hplace : p ∈ places) (hdef : p.1 ∉ i.defs) (k' : Nat) :
    ∀ e ∈ stored i (swaps i places k'), p.2 ≠ e.offset := by
  intro e he heq
  have hmem := List.mem_filter.1 he
  have hpair : p = (e.old, e.offset) :=
    List.inj_on_of_nodup_map hp.nodup_slots hplace (mem_swaps hmem.1).1 heq
  exact hdef (hpair ▸ List.contains_iff_mem.1 hmem.2)

/-- Nothing is stored to a slot that was in use. -/
theorem Placed.not_stored_of_used (hp : Placed target k used places) {i : Instr} {offset : Int}
    (hoffset : offset ∈ used) (k' : Nat) :
    ∀ e ∈ stored i (swaps i places k'), offset ≠ e.offset := by
  rintro e he rfl
  exact hp.unused _ (mem_swaps (List.mem_of_mem_filter he)).1 hoffset

section Written

variable {k' : Nat} {file₁ : Temp → V} {values : Nat → V}

/-- Writing to the fresh temps is writing to the spilled ones. -/
theorem write_swapped (hnodup : (places.map Prod.fst).Nodup) (hlt : ∀ d ∈ x.instr.defs, d.id < k)
    (hk : k ≤ k') {t : Temp} (ht : t.id < k)
    (hval : t ∈ x.instr.defs ∨ file₁ (swapped (swaps x.instr places k') t) = file t) :
    write (swapped (swaps x.instr places k')) x.instr.defs values file₁
      (swapped (swaps x.instr places k') t) = write id x.instr.defs values file t := by
  refine write_eq (fun d hd hdt heq => hdt ?_) hval
  exact swapped_inj hnodup (Nat.lt_of_lt_of_le (hlt d hd) hk) (Nat.lt_of_lt_of_le ht hk) heq

/-- A temp that keeps its place has the value that was written to it, or that it had. -/
theorem write_kept (hnodup : (places.map Prod.fst).Nodup) (hlt : ∀ d ∈ x.instr.defs, d.id < k)
    (hk : k ≤ k') {t : Temp} (ht : t.id < k) (hkept : t ∉ places.map Prod.fst)
    (hval : t ∈ x.instr.defs ∨ file₁ t = file t) :
    write (swapped (swaps x.instr places k')) x.instr.defs values file₁ t
      = write id x.instr.defs values file t := by
  have hid : swapped (swaps x.instr places k') t = t := swapped_of_not_mem hkept
  have hwrite : write (swapped (swaps x.instr places k')) x.instr.defs values file₁
      (swapped (swaps x.instr places k') t) = write id x.instr.defs values file t :=
    write_swapped hnodup hlt hk ht (hval.imp_right fun h => by rw [hid, h])
  rwa [hid] at hwrite

/-- A spilled temp that is defined has its new value in its slot, once the stores are made. -/
theorem slot_stored {slots₃ : Int → V} (hnodup : (places.map Prod.fst).Nodup)
    (hlt : ∀ d ∈ x.instr.defs, d.id < k) (hk : k ≤ k') {p : Temp × Int} (hplace : p ∈ places)
    (hdef : p.1 ∈ x.instr.defs)
    (hstored : ∀ e ∈ stored x.instr (swaps x.instr places k'), slots₃ e.offset =
      write (swapped (swaps x.instr places k')) x.instr.defs values file₁ e.new) :
    slots₃ p.2 = write id x.instr.defs values file p.1 := by
  rcases exists_stored hplace hdef k' with ⟨e, he, hold, hoffset⟩
  have hnew := swapped_of_mem (nodup_swaps_old (i := x.instr) (k := k') hnodup)
    (List.mem_of_mem_filter he)
  rw [← hoffset, hstored e he, ← hnew, hold]
  exact write_swapped hnodup hlt hk (hlt p.1 hdef) (.inl hdef)

end Written

/-- The same values and slots behind an item, once the stores are made. -/
theorem Mirrors.after_stores {file' file₁ file₃ : Temp → V} {slots' slots₁ slots₁' slots₃ : Int → V}
    {k' k₃ : Nat} {after dest : List Item} {o : Outcome V M} {l : Option Label}
    (h : Mirrors target code places k ⟨file, slots, memory, x :: rest⟩
      ⟨file', slots', memory, after⟩)
    (ho : Orderly target k used code) (hp : Placed target k used places)
    (hsuffix : x :: rest <:+ code) (hgoes : Goes code x.instr rest l dest) (hk : k ≤ k')
    (hk₃ : k ≤ k₃) (hfile₁ : ∀ t : Temp, t.id < k → file₁ t = file' t)
    (hsame : ∀ offset, slots' offset = slots offset → slots₁' offset = slots₁ offset)
    (hother : ∀ offset, x.slot? ≠ some offset → slots₁' offset = slots' offset)
    (hfile₃ : ∀ t : Temp, t.id < k →
      file₃ t = write (swapped (swaps x.instr places k')) x.instr.defs o.values file₁ t)
    (hstored : ∀ e ∈ stored x.instr (swaps x.instr places k'), slots₃ e.offset =
      write (swapped (swaps x.instr places k')) x.instr.defs o.values file₁ e.new)
    (hslots₃ : ∀ offset, (∀ e ∈ stored x.instr (swaps x.instr places k'), offset ≠ e.offset) →
      slots₃ offset = slots₁' offset) :
    Mirrors target code places k
      ⟨write id x.instr.defs o.values file, slots₁, o.memory, dest⟩
      ⟨file₃, slots₃, o.memory, (spillItems target places dest k₃).items⟩ := by
  have hx : x ∈ code := hsuffix.mem List.mem_cons_self
  have hdest := hgoes.suffix hsuffix
  have hthrough : ∀ t, Live (instrsOf code) t (instrsOf dest) → t ∉ x.instr.defs →
      Live (instrsOf code) t (instrsOf (x :: rest)) := fun t hlive hdef =>
    .through hdef hgoes.next hlive
  have hlt : ∀ d ∈ x.instr.defs, d.id < k := fun d hd =>
    ho.lt x hx d (List.mem_append_left _ hd)
  -- a temp that is not spilled is written where it was, or keeps its value
  have hplain : ∀ t : Temp, t.id < k → t ∉ places.map Prod.fst →
      (t ∈ x.instr.defs ∨ file' t = file t) → file₃ t = write id x.instr.defs o.values file t :=
    fun t ht hkept hval => (hfile₃ t ht).trans <|
      write_kept hp.nodup hlt hk ht hkept (hval.imp_right (hfile₁ t ht).trans)
  refine ⟨?temps, ?spilled, ?sp, ?slots, rfl, k₃, hk₃, rfl⟩
  case temps =>
    intro t hlive hspilled
    refine hplain t (ho.lt_of_live hlive hdest) hspilled ?_
    exact Decidable.or_iff_not_imp_left.2 fun hdef => h.temps t (hthrough t hlive hdef) hspilled
  case spilled =>
    intro p hplace hlive
    dsimp only
    by_cases hdef : p.1 ∈ x.instr.defs
    · exact slot_stored hp.nodup hlt hk hplace hdef hstored
    · -- the slot is neither written nor that of an inserted instruction of the old code
      have hown : x.slot? ≠ some p.2 := fun heq =>
        hp.unused p hplace (ho.slots x hx _ heq)
      have hold : slots' p.2 = file p.1 := h.spilled p hplace (hthrough _ hlive hdef)
      rw [hslots₃ _ (hp.not_stored hplace hdef k'), hother _ hown, hold]
      exact (write_of_forall_ne fun d hd heq => hdef ((show d = p.1 from heq) ▸ hd)).symm
  case sp => exact hplain _ ho.sp_lt hp.sp_not_mem (.inr h.sp)
  case slots =>
    intro y hy offset hoffset
    exact (hslots₃ _ (hp.not_stored_of_used (ho.slots y hy offset hoffset) k')).trans
      (hsame _ (h.slots y hy offset hoffset))

/-- Each step of the old code is matched by steps of the spilled code. -/
theorem Mirrors.step {es : List (Event V M)} (h : Mirrors target code places k s s')
    (ho : Orderly target k used code) (hp : Placed target k used places) (hsuffix : s.rest <:+ code)
    (hstep : Step id target.machine.stackPointer w I code s es s₂) :
    ∃ s₂', Runs target w I (spillItems target places code k).items s' es s₂' ∧
      Mirrors target code places k s₂ s₂' := by
  cases hstep with
  | @act file slots slots₁ memory x rest dest o hacts hgoes =>
      rcases s' with ⟨file', slots', memory', rest'⟩
      have hmemory : memory' = memory := h.memory
      subst hmemory
      rcases h.rest with ⟨k', hk, hrest⟩
      have hrest : rest' = (spillItems target places (x :: rest) k').items := hrest
      subst hrest
      have hx : x ∈ code := hsuffix.mem List.mem_cons_self
      have htemps : ∀ u ∈ x.instr.uses, u ∉ places.map Prod.fst → file' u = file u :=
        fun u hu => h.temps u (.use hu)
      have hspilled : ∀ e ∈ places, e.1 ∈ x.instr.uses → slots' e.2 = file e.1 :=
        fun e he hu => h.spilled e he (.use hu)
      rcases runs_loadItems hp.nodup ho.sp_lt hk
        (fun u hu => ho.lt x hx u (List.mem_append_right _ hu)) htemps hspilled (w := w) (I := I)
        memory' (spillItems target places code k).items
        (coreItem places x k' :: storeItems target places x k' ++
          (spillItems target places rest (spillItem target places x k').next).items) with
        ⟨file₁, hloads, hoperands, hfile₁⟩
      have hsp : file₁ target.machine.stackPointer = file target.machine.stackPointer :=
        (hfile₁ _ ho.sp_lt).trans h.sp
      rcases hacts.transfer (swapped (swaps x.instr places k')) (h.slots x hx) with
        ⟨slots₁', hacts', hsame, hother⟩
      -- what is behind the instruction depends on how control leaves it
      have hgoes' := hgoes
      generalize hl : o.target = l at hgoes'
      cases hgoes' with
      | fall hfall =>
          have hfall' : (coreItem places x k').instr.fallsThrough = true := by
            rwa [fallsThrough_coreItem]
          rcases runs_storeItems hp.nodup_slots ho.sp_lt hk (x := x) (w := w) (I := I)
            (write (swapped (swaps x.instr places k')) x.instr.defs o.values file₁) slots₁' o.memory
            (spillItems target places code k).items
            (spillItems target places rest (spillItem target places x k').next).items with
            ⟨file₃, slots₃, hstores, hfile₃, hstored, hslots₃⟩
          have hnext := hk.trans (le_next_spillItem target places x k')
          refine ⟨⟨file₃, slots₃, o.memory, _⟩, ?_,
            h.after_stores ho hp hsuffix hgoes hk hnext hfile₁ hsame hother hfile₃ hstored hslots₃⟩
          have hall := hloads.trans
            ((runs_core hoperands hsp hacts' hl (.fall hfall')).trans hstores)
          rwa [List.nil_append, List.append_nil, ← List.append_assoc] at hall
      | @jump l dest hmem hseek =>
          -- an instruction that may jump defines nothing, so there is nothing to store
          have hdefs : x.instr.defs = [] := ho.jumps x hx (List.ne_nil_of_mem hmem)
          have hstored := stored_eq_nil hdefs (swaps x.instr places k')
          have hmem' : l ∈ (coreItem places x k').instr.targets := by
            rwa [targets_coreItem]
          rcases seekItem_spillItems hseek k with ⟨front, _, hseek'⟩
          have hk'' := le_next_spillItems target places front k
          refine ⟨⟨_, slots₁', o.memory, _⟩, ?_, h.after_stores ho hp hsuffix hgoes hk hk'' hfile₁
            hsame hother (fun t _ => rfl) ?_ fun _ _ => rfl⟩
          · have hall := hloads.trans (runs_core hoperands hsp hacts' hl (.jump hmem' hseek'))
            rwa [List.nil_append, ← List.append_assoc] at hall
          · intro e he
            rw [hstored] at he
            cases he

/-- Each run of the old code is matched by a run of the spilled code. -/
theorem Mirrors.run {tr : List (Event V M)} (h : Mirrors target code places k s s')
    (ho : Orderly target k used code) (hp : Placed target k used places) (hsuffix : s.rest <:+ code)
    (hrun : Runs target w I code s tr s₂) :
    ∃ s₂', Runs target w I (spillItems target places code k).items s' tr s₂' ∧
      Mirrors target code places k s₂ s₂' := by
  induction hrun generalizing s' with
  | refl s => exact ⟨s', .refl s', h⟩
  | @step s₁ s₂ s₃ es tr hstep _ ih =>
      rcases h.step ho hp hsuffix hstep with ⟨s₂', hfirst, h₂⟩
      have hsuffix₂ : s₂.rest <:+ code := by
        cases hstep with
        | act hacts hgoes => exact hgoes.suffix hsuffix
      rcases ih h₂ hsuffix₂ with ⟨s₃', hrest, h₃⟩
      exact ⟨s₃', hfirst.trans hrest, h₃⟩

end Round

end TreeCompiler
