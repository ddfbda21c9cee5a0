import TreeCompiler.Machine.TwoRegisters
import TreeCompiler.Proofs.SwappedTemps

/-!
# IntroducedTemps — the temps that spilling brings into the code, and those that it reports

All temps that are handed out while code is spilled occur in the spilled code
(`mentions_spillItems`).  Those in the place of spilled temps are reported.  The three that hold the
address of a slot, wherever its offset is no immediate, are not: what is reported is everything that
was brought in if and only if the slots of all temps that the code mentions are in reach
(`reports_all_iff`). -/

namespace TreeCompiler

open Allocation

variable {target : Target} {places : List (Temp × Int)} {code rest : List Item} {k j : Nat}
  {x : Item}

/-! ## All numbers are used -/

theorem mentions_of_mem {y : Item} {t : Temp} (hy : y ∈ code)
    (ht : t ∈ y.instr.defs ++ y.instr.uses) : Mentions (instrsOf code) t :=
  ⟨y.instr, List.mem_map_of_mem hy, ht⟩

/-- Each temp of an address is defined by the code that computes the address. -/
theorem exists_mem_accessAll {direct indirect : Int → Insertion} {sw : List Swap} (target : Target)
    (hle : k ≤ j) (hlt : j < k + addressTempsAll sw) :
    ∃ y ∈ accessAll (accessCode direct indirect) sw k, ⟨j⟩ ∈ (y.item target).instr.defs := by
  -- the addresses of the accesses take consecutive blocks of numbers, three each
  induction sw generalizing k with
  | nil => exact absurd hlt (Nat.not_lt_of_le hle)
  | cons e sw ih =>
      unfold accessAll
      have hsum : addressTempsAll (e :: sw) = addressTemps e.offset + addressTempsAll sw := rfl
      by_cases hfirst : j < k + addressTemps e.offset
      · unfold addressTemps at hfirst
        unfold accessCode
        split at hfirst
        · omega
        · rename_i hfar
          rw [if_neg hfar]
          have hcases : j = k ∨ j = k + 1 ∨ j = k + 2 := by omega
          rcases hcases with rfl | rfl | rfl
          · exact ⟨⟨.frameAddress, ⟨j⟩, ⟨j⟩⟩, by simp [addressCode], List.mem_singleton_self _⟩
          · exact ⟨⟨.constant e.offset, ⟨k + 1⟩, ⟨k + 1⟩⟩, by simp [addressCode],
              List.mem_singleton_self _⟩
          · exact ⟨⟨.copy, ⟨k + 2⟩, ⟨k⟩⟩, by simp [addressCode], List.mem_singleton_self _⟩
      · rcases ih (Nat.le_of_not_lt hfirst) (by omega) with ⟨y, hy, hdef⟩
        exact ⟨y, List.mem_append_right _ hy, hdef⟩

/-- The code of an item mentions all temps that were handed out for it. -/
theorem mentions_spillItem (hnodup : (places.map Prod.fst).Nodup) (hle : k ≤ j)
    (hlt : j < (spillItem target places x k).next) :
    Mentions (instrsOf (spillItem target places x k).items) ⟨j⟩ := by
  have hload : ∀ y ∈ loadItems target places x k, y ∈ (spillItem target places x k).items :=
    fun y hy => List.mem_append_left _ hy
  have hcore : coreItem places x k ∈ (spillItem target places x k).items :=
    List.mem_append_right _ List.mem_cons_self
  have hstore : ∀ y ∈ storeItems target places x k, y ∈ (spillItem target places x k).items :=
    fun y hy => List.mem_append_right _ (List.mem_cons_of_mem _ hy)
  -- the temps of the swaps come first, then those of the loads and of the stores
  by_cases hswap : j < k + (swaps x.instr places k).length
  · rcases List.mem_map.1 (mem_map_new_iff.2 ⟨hle, hswap⟩) with ⟨e, he, hnew⟩
    refine mentions_of_mem hcore ?_
    unfold coreItem
    rw [Instr.defs_rename, Instr.uses_rename, ← List.map_append, ← hnew,
      ← swapped_of_mem (nodup_swaps_old hnodup) he]
    exact List.mem_map_of_mem (mem_swaps he).2.1
  · by_cases hloads : j < loadNext places x k
    · rcases exists_mem_accessAll target (Nat.le_of_not_lt hswap) hloads with ⟨y, hy, hdef⟩
      exact mentions_of_mem (hload _ (List.mem_map_of_mem hy)) (List.mem_append_left _ hdef)
    · rcases exists_mem_accessAll target (Nat.le_of_not_lt hloads) hlt with ⟨y, hy, hdef⟩
      exact mentions_of_mem (hstore _ (List.mem_map_of_mem hy)) (List.mem_append_left _ hdef)

theorem mentions_append {xs ys : List Item} {t : Temp} : Mentions (instrsOf (xs ++ ys)) t ↔
    Mentions (instrsOf xs) t ∨ Mentions (instrsOf ys) t := by
  unfold Mentions instrsOf
  simp only [List.map_append, List.mem_append, or_and_right, exists_or]

/-- Spilled code mentions all temps that were handed out for it. -/
theorem mentions_spillItems (hnodup : (places.map Prod.fst).Nodup) (hle : k ≤ j)
    (hlt : j < (spillItems target places code k).next) :
    Mentions (instrsOf (spillItems target places code k).items) ⟨j⟩ := by
  induction code generalizing k with
  | nil => exact absurd hlt (Nat.not_lt_of_le hle)
  | cons x rest ih =>
      rw [spillItems]
      refine mentions_append.2 ?_
      by_cases hfirst : j < (spillItem target places x k).next
      · exact .inl (mentions_spillItem hnodup hle hfirst)
      · exact .inr (ih (Nat.le_of_not_lt hfirst) hlt)

/-! ## Slots in reach -/

/-- The slots of all temps that the code mentions are in reach of an immediate. -/
def InReach (places : List (Temp × Int)) (code : List Item) : Prop :=
  ∀ p ∈ places, Mentions (instrsOf code) p.1 → isImm32 p.2 = true

/-- No temps but those of the swaps are handed out for an item with its slots in reach. -/
theorem next_spillItem_iff :
    (spillItem target places x k).next = k + (swaps x.instr places k).length ↔
      InReach places [x] := by
  have hnext : (spillItem target places x k).next = k + (swaps x.instr places k).length ↔
      addressTempsAll (loaded x.instr (swaps x.instr places k)) = 0 ∧
        addressTempsAll (stored x.instr (swaps x.instr places k)) = 0 := by
    unfold spillItem loadNext
    dsimp only
    omega
  rw [hnext, addressTempsAll_eq_zero_iff, addressTempsAll_eq_zero_iff]
  -- each swap is loaded or stored, as the instruction uses or defines its temp
  constructor
  · rintro ⟨hloaded, hstored⟩ p hp ⟨i, hi, hmem⟩
    cases List.mem_singleton.1 hi
    rcases exists_swap (k := k) hp hmem with ⟨e, he, hold, hoffset⟩
    rw [← hoffset]
    rcases List.mem_append.1 hmem with hdef | huse
    · exact hstored e (List.mem_filter.2 ⟨he, List.contains_iff_mem.2 (hold ▸ hdef)⟩)
    · exact hloaded e (List.mem_filter.2 ⟨he, List.contains_iff_mem.2 (hold ▸ huse)⟩)
  · intro h
    have hall : ∀ e ∈ swaps x.instr places k, isImm32 e.offset = true := fun e he =>
      h _ (mem_swaps he).1 ⟨x.instr, List.mem_singleton_self _, (mem_swaps he).2.1⟩
    exact ⟨fun e he => hall e (List.mem_of_mem_filter he),
      fun e he => hall e (List.mem_of_mem_filter he)⟩

theorem inReach_cons : InReach places (x :: rest) ↔ InReach places [x] ∧ InReach places rest := by
  unfold InReach
  rw [← List.singleton_append]
  simp only [mentions_append, or_imp, imp_and, forall_and]

/-- The reported temps are all that were handed out if and only if all slots are in reach. -/
theorem reports_all_iff (target : Target) (places : List (Temp × Int)) (code : List Item)
    (k : Nat) :
    (∀ j, k ≤ j → j < (spillItems target places code k).next →
      ⟨j⟩ ∈ (spillItems target places code k).fresh) ↔ InReach places code := by
  induction code generalizing k with
  | nil =>
      refine iff_of_true (fun j hle hlt => absurd hlt (Nat.not_lt_of_le hle)) ?_
      rintro p _ ⟨i, hi, _⟩
      cases hi
  | cons x rest ih =>
      have hlength := length_swaps_le target places x k
      have hle := le_next_spillItem target places x k
      have hnext := le_next_spillItems target places rest (spillItem target places x k).next
      -- what is handed out for an item is numbered before what is handed out for the rest
      have hmem : ∀ j, (⟨j⟩ : Temp) ∈ (spillItems target places (x :: rest) k).fresh ↔
          (k ≤ j ∧ j < k + (swaps x.instr places k).length) ∨
            ⟨j⟩ ∈ (spillItems target places rest (spillItem target places x k).next).fresh := by
        intro j
        rw [← mem_map_new_iff]
        exact List.mem_append
      rw [inReach_cons, ← ih, ← next_spillItem_iff]
      change (∀ j, k ≤ j → j < (spillItems target places rest _).next → _) ↔ _
      constructor
      · intro h
        refine ⟨?_, fun j hle' hlt => ?_⟩
        · refine Nat.le_antisymm (Nat.le_of_not_lt fun hlt => ?_) hlength
          -- the first temp behind those of the swaps would have been reported
          rcases (hmem _).1 (h _ (Nat.le_add_right _ _) (Nat.lt_of_lt_of_le hlt hnext)) with hj | hj
          · exact Nat.lt_irrefl _ hj.2
          · exact Nat.not_lt_of_le (mem_fresh_spillItems hj).1 hlt
        · rcases (hmem j).1 (h j (Nat.le_trans hle hle') hlt) with hj | hj
          · exact absurd (Nat.lt_of_lt_of_le hj.2 hlength) (Nat.not_lt_of_le hle')
          · exact hj
      · rintro ⟨hfirst, h⟩ j hle' hlt
        refine (hmem j).2 ?_
        by_cases hj : j < k + (swaps x.instr places k).length
        · exact .inl ⟨hle', hj⟩
        · exact .inr (h j (by omega) hlt)

/-! ## What spilling reports -/

/-- A temp occurs in some code, but not in the code that it was made from. -/
def Introduced (code behind : List Instr) (t : Temp) : Prop := Mentions behind t ∧ ¬ Mentions code t

/-- What spilling reports of the temps that it brings into the code; only the stack pointer may
occur anew without being made. -/
structure Reports (m : Machine) (code : List Instr) (r : SpilledCode) (n n' : Namer) : Prop where
  nodup : r.fresh.Nodup
  fresh : ∀ t ∈ r.fresh, Introduced code r.instrs t ∧ m.isRegister t = false
  introduced : ∀ t, t ≠ m.stackPointer →
    (Introduced code r.instrs t ↔ n.nextTemp ≤ t.id ∧ t.id < n'.nextTemp)

variable {m : Machine} {frame : Frame} {instrs : List Instr} {spilled : List Temp} {n : Namer}
  {t : Temp}

/-- What is brought into spilled code are the temps that were handed out for it. -/
theorem introduced_spillItems_iff (target : Target)
    (hlt : ∀ x ∈ code, ∀ t ∈ x.instr.defs ++ x.instr.uses, t.id < k)
    (hnodup : (places.map Prod.fst).Nodup) (hsp : target.machine.stackPointer.id < k)
    (ht : t ≠ target.machine.stackPointer) :
    Introduced (instrsOf code) (instrsOf (spillItems target places code k).items) t ↔
      k ≤ t.id ∧ t.id < (spillItems target places code k).next := by
  constructor
  · rintro ⟨hmem, hnew⟩
    -- spilling brings no temp back that the code does not mention
    have hle : k ≤ t.id := Nat.le_of_not_lt fun hold =>
      not_mentions_spillItems hnodup hold ht (.inr hnew) hmem
    rcases hmem with ⟨i, hi, hmem⟩
    rcases List.mem_map.1 hi with ⟨y, hy, rfl⟩
    exact ⟨hle, lt_spillItems hlt hnodup hsp y hy t hmem⟩
  · rintro ⟨hle, hnext⟩
    refine ⟨mentions_spillItems hnodup hle hnext, ?_⟩
    rintro ⟨i, hi, hmem⟩
    rcases List.mem_map.1 hi with ⟨x, hx, rfl⟩
    exact Nat.not_lt_of_le hle (hlt x hx t hmem)

/-- Spilling reports each temp that it brings into the code, if and only if the slots of all temps
that the code mentions are in reach. -/
theorem reports_spill (hfirst : Temp.firstVirtual ≤ n.nextTemp)
    (htemps : ∀ i ∈ instrs, ∀ t ∈ i.defs ++ i.uses, t.id < n.nextTemp) (hnodup : spilled.Nodup)
    (hspilled : ∀ t ∈ spilled, t.id < n.nextTemp) :
    ∃ r frame' n', frame.spill m instrs spilled n = (.ok r, frame', n') ∧ Reports m instrs r n n' ∧
      ((∀ t, t ∈ r.fresh ↔ Introduced instrs r.instrs t ∧ t ≠ m.stackPointer) ↔
        ∀ e ∈ slotsOf frame spilled, Mentions instrs e.1 → isImm32 e.2 = true) := by
  have hregister : ∀ t : Temp, m.isRegister t = true → t.id < n.nextTemp := fun t ht =>
    Nat.lt_of_lt_of_le (Machine.lt_firstVirtual ht) hfirst
  -- so the stack pointer, which `spillItems` mentions as well, is not one of the new temps
  have hnotRegister : ∀ t : Temp, n.nextTemp ≤ t.id → m.isRegister t = false := fun t ht =>
    Machine.isVirtual_of_not_register (decide_eq_true (hfirst.trans ht))
  have hspill := frame.spill_eq m (itemsOf instrs 0) n hnodup hspilled
    (hregister _ m.isRegister_framePointer)
  have hplaces : ((slotsOf frame spilled).map Prod.fst).Nodup :=
    (slotsOf_fst frame spilled).symm ▸ hnodup
  have hcode := instrsOf_itemsOf instrs 0
  have hlt : ∀ x ∈ itemsOf instrs 0, ∀ t ∈ x.instr.defs ++ x.instr.uses, t.id < n.nextTemp :=
    fun x hx => htemps _ (hcode ▸ List.mem_map_of_mem hx)
  generalize hs : spillItems ⟨m, frame.sizeSymbol⟩ (slotsOf frame spilled) (itemsOf instrs 0)
    n.nextTemp = s at hspill
  have hintroduced : ∀ t, t ≠ m.stackPointer →
      (Introduced instrs (instrsOf s.items) t ↔ n.nextTemp ≤ t.id ∧ t.id < s.next) := by
    intro t ht
    have hiff := introduced_spillItems_iff ⟨m, frame.sizeSymbol⟩ hlt hplaces
      (hregister _ m.isRegister_stackPointer) ht
    rwa [hcode, hs] at hiff
  have hfresh : ∀ t ∈ s.fresh, n.nextTemp ≤ t.id ∧ t.id < s.next := by
    rw [← hs]
    exact fun t ht => mem_fresh_spillItems ht
  have hall : (∀ j, n.nextTemp ≤ j → j < s.next → ⟨j⟩ ∈ s.fresh) ↔
      ∀ e ∈ slotsOf frame spilled, Mentions instrs e.1 → isImm32 e.2 = true := by
    have hiff := reports_all_iff ⟨m, frame.sizeSymbol⟩ (slotsOf frame spilled) (itemsOf instrs 0)
      n.nextTemp
    unfold InReach at hiff
    rwa [hcode, hs] at hiff
  rw [hcode] at hspill
  refine ⟨_, _, _, hspill, ⟨?nodup, fun t ht => ?fresh, hintroduced⟩, ?all⟩
  case nodup =>
    dsimp only
    rw [← hs, fresh_spillItems]
    exact nodup_swapsOf
  case fresh =>
    have hreg := hnotRegister t (hfresh t ht).1
    exact ⟨(hintroduced t (ne_stackPointer hreg)).2 (hfresh t ht), hreg⟩
  case all =>
    rw [← hall]
    constructor
    · intro h j hle hj
      have hne := ne_stackPointer (hnotRegister ⟨j⟩ hle)
      exact (h ⟨j⟩).2 ⟨(hintroduced ⟨j⟩ hne).2 ⟨hle, hj⟩, hne⟩
    · intro h t
      constructor
      · intro ht
        have hne := ne_stackPointer (hnotRegister t (hfresh t ht).1)
        exact ⟨(hintroduced t hne).2 (hfresh t ht), hne⟩
      · rintro ⟨hnew, hne⟩
        have hrange := (hintroduced t hne).1 hnew
        exact h t.id hrange.1 hrange.2

/-- What the rounds of an allocation bring into the code is spilled last, as long as the slots are
in reach. -/
theorem Allocation.Reaches.mem_introduced {options : AllocOptions} {p : Progress}
    {slots : List (Temp × Access)} (h : Reaches m options (.first frame instrs n) p slots)
    (hfirst : Temp.firstVirtual ≤ n.nextTemp)
    (htemps : ∀ i ∈ instrs, ∀ t ∈ i.defs ++ i.uses, t.id < n.nextTemp)
    (hreach : ∀ e ∈ slotsOf frame p.spilled, isImm32 e.2 = true)
    (ht : Introduced instrs p.instrs t) : t = m.stackPointer ∨ t ∈ p.introduced := by
  have hmentions : ∀ t, Mentions instrs t → t.id < n.nextTemp := fun t ⟨i, hi, hmem⟩ =>
    htemps i hi t hmem
  induction h with
  | start => exact absurd ht.1 ht.2
  | @spill p slots g r s frame' n' h hcolor hsome hspill ih =>
      obtain ⟨⟨items, htracked⟩, -⟩ := h.tracked hfirst hmentions
      have hframe : p.frame = frame.allocSlots p.spilled.length := htracked.frame
      dsimp only at hreach ht ⊢
      rw [slotsOf_append, ← hframe] at hreach
      rw [SortedSet.mem_union, SortedSet.mem_ofList]
      -- a temp is brought in by this round, or was by one before
      by_cases hold : Mentions p.instrs t
      · refine (ih (fun e he => hreach e (List.mem_append_left _ he)) ⟨hold, ht.2⟩).imp_right .inl
      · have hlt : ∀ i ∈ p.instrs, ∀ t ∈ i.defs ++ i.uses, t.id < p.namer.nextTemp :=
          fun i hi t hmem => htracked.lt_of_mentions ⟨i, hi, hmem⟩
        have hspilled : ∀ t ∈ r.spilled.toList, t.id < p.namer.nextTemp :=
          fun t ht => htracked.lt_of_mentions (spilled_colorCode hcolor ht).1
        obtain ⟨s', frame'', n'', hspill', -, hall⟩ :=
          reports_spill (hfirst.trans htracked.le) hlt r.spilled.nodup hspilled
        cases hspill'.symm.trans hspill
        have hfresh := hall.2 fun e he _ => hreach e (List.mem_append_right _ he)
        by_cases hsp : t = m.stackPointer
        · exact .inl hsp
        · exact .inr (.inr ((hfresh t).2 ⟨⟨ht.1, hold⟩, hsp⟩))

/-- Spilling reports no temp twice and none that it does not bring into the code.  It reports all of
them if and only if the slots of all temps that the code mentions are in reach of an immediate, and
where this is so in all rounds of an allocation, all temps made by spilling are spilled last. -/
theorem Frame.spill_reports (frame : Frame) (m : Machine) (instrs : List Instr) (n : Namer)
    (hfirst : Temp.firstVirtual ≤ n.nextTemp)
    (htemps : ∀ i ∈ instrs, ∀ t ∈ i.defs ++ i.uses, t.id < n.nextTemp) :
    (∀ spilled : List Temp, spilled.Nodup → (∀ t ∈ spilled, t.id < n.nextTemp) →
      ∃ r frame' n', frame.spill m instrs spilled n = (.ok r, frame', n') ∧
        Reports m instrs r n n' ∧
        ((∀ t, t ∈ r.fresh ↔ Introduced instrs r.instrs t ∧ t ≠ m.stackPointer) ↔
          ∀ e ∈ slotsOf frame spilled, Mentions instrs e.1 → isImm32 e.2 = true)) ∧
      ∀ options p slots, Reaches m options (.first frame instrs n) p slots →
        (∀ e ∈ slotsOf frame p.spilled, isImm32 e.2 = true) →
        ∀ t, Introduced instrs p.instrs t → t = m.stackPointer ∨ t ∈ p.introduced :=
  ⟨fun _ hnodup hspilled => reports_spill hfirst htemps hnodup hspilled,
    fun _ _ _ h hreach _ ht => h.mem_introduced hfirst htemps hreach ht⟩

/-- Two uses of a temp whose slot is next to the frame pointer. -/
theorem Frame.spill_reports_near :
    let code : List Instr := [.plain "movq $1, `d0" [⟨100⟩] [], .plain "" [] [⟨100⟩]]
    let frame := Frame.new "f" 0 .twoRegisters
    ∃ r frame' n',
      frame.spill .twoRegisters code [⟨100⟩] { nextTemp := 101 } = (.ok r, frame', n') ∧
      Reports .twoRegisters code r { nextTemp := 101 } n' ∧
      ∀ t, t ∈ r.fresh ↔ Introduced code r.instrs t ∧ t ≠ Machine.twoRegisters.stackPointer := by
  intro code frame
  have hreach : ∀ e ∈ slotsOf frame [⟨100⟩], isImm32 e.2 = true := by decide
  obtain ⟨hspill, -⟩ := spill_reports frame .twoRegisters code { nextTemp := 101 } (by decide)
    (by decide)
  obtain ⟨r, frame', n', heq, hreports, hall⟩ := hspill [⟨100⟩] (by decide) (by decide)
  exact ⟨r, frame', n', heq, hreports, hall.2 fun e he _ => hreach e he⟩

/-- The address of a slot out of reach is not reported. -/
theorem Frame.spill_misses_address :
    let code : List Instr := [.plain "movq $1, `d0" [⟨100⟩] [], .plain "" [] [⟨100⟩, ⟨3⟩]]
    let frame := Frame.new "f" 0x100000000 .twoRegisters
    ∃ r, (frame.spill .twoRegisters code [⟨100⟩] { nextTemp := 101 }).1 = .ok r ∧
      ¬ ∀ t, t ∈ r.fresh ↔ Introduced code r.instrs t := by
  intro code frame
  have hspill := frame.spill_eq .twoRegisters (itemsOf code 0) { nextTemp := 101 }
    (List.nodup_singleton (⟨100⟩ : Temp)) (by decide) (by decide)
  rw [instrsOf_itemsOf] at hspill
  refine ⟨_, congrArg Prod.fst hspill, fun h => ?_⟩
  have hnew : ∃ i ∈ instrsOf (spillItems ⟨.twoRegisters, frame.sizeSymbol⟩ (slotsOf frame [⟨100⟩])
      (itemsOf code 0) 101).items, (⟨102⟩ : Temp) ∈ i.defs ++ i.uses := by decide
  have hold : ¬ ∃ i ∈ code, (⟨102⟩ : Temp) ∈ i.defs ++ i.uses := by decide
  have hfresh : (⟨102⟩ : Temp) ∉ (spillItems ⟨.twoRegisters, frame.sizeSymbol⟩
      (slotsOf frame [⟨100⟩]) (itemsOf code 0) 101).fresh := by decide
  exact hfresh ((h ⟨102⟩).2 ⟨hnew, hold⟩)

end TreeCompiler
