import TreeCompiler.Proofs.Executions

/-!
# Progress — what the rounds of an allocation make of any code

Rounds spill temps until one spills nothing (`Allocation.Reaches`, `Allocation.Finishes`).  Nothing
is assumed of the code here but that its temps were handed out: it may define reserved registers
too.  Each instruction of a later round is one of the code with other operands, or was inserted and
has only fresh temps and the stack pointer for operands (`Item.Origin`).  What is accessed are the
words that the frame gives to the spilled temps, each of which is spilled once (`Reaches.tracked`).
-/

namespace TreeCompiler

open FlowGraph Coloring

/-! ## Rounds -/

namespace Allocation

/-- What the first round starts with. -/
def Progress.first (frame : Frame) (code : List Instr) (n : Namer) : Progress :=
  { instrs := code, frame, namer := n }

/-- What some rounds that spilled left to the next one, and the slots that they handed out. -/
inductive Reaches (m : Machine) (options : AllocOptions) (start : Progress) :
    Progress → List (Temp × Access) → Prop
  | start : Reaches m options start start []
  | spill {p : Progress} {slots : List (Temp × Access)} {g : Interference} {r : ColorResult}
      {s : SpilledCode} {frame : Frame} {n : Namer} (h : Reaches m options start p slots)
      (hcolor : colorCode m options p.introduced p.instrs = .ok (g, r))
      (hsome : r.spilled.isEmpty = false)
      (hspill : p.frame.spill m p.instrs r.spilled.toList p.namer = (.ok s, frame, n)) :
      Reaches m options start
        { instrs := s.instrs, frame, namer := n, introduced := p.introduced.union (.ofList s.fresh)
          spilled := p.spilled ++ r.spilled.toList }
        (slots ++ (Spill.slots p.frame r.spilled.toList).1)

/-- The last round: it spills nothing and names all temps. -/
structure Finishes (m : Machine) (options : AllocOptions) (p : Progress) (a : Allocation) :
    Prop where
  colors : ∃ g r, colorCode m options p.introduced p.instrs = .ok (g, r) ∧
    registerNames m r g.temps .empty = .ok a.coloring
  instrs : a.instrs = if options.eliminateRedundantMoves then
    removeRedundantMoves a.coloring p.instrs
    else p.instrs
  spilled : a.spilled = p.spilled
  frame : a.frame = p.frame

variable {m : Machine} {options : AllocOptions} {start p : Progress} {slots : List (Temp × Access)}
  {a : Allocation}

theorem exists_finishes_of_reaches {left done : Nat} (h : Reaches m options start p slots)
    (hok : (allocateWithin m options done left p).1 = .ok a) :
    ∃ q slots', Reaches m options start q slots' ∧ Finishes m options q a ∧
      (allocateWithin m options done left p).2 = q.namer := by
  induction left generalizing done p slots with
  | zero => cases hok
  | succ left ih =>
      have hturn := turn m options done left p
      generalize allocateWithin m options done (left + 1) p = outcome at hturn hok
      cases hturn with
      | uncolored | stop => cases hok
      | @last g r hcolor _ =>
          obtain ⟨names, hnames, rfl⟩ := map_eq_ok_iff.1 hok
          exact ⟨p, slots, h, ⟨⟨g, r, hcolor, hnames⟩, rfl, rfl, rfl⟩, rfl⟩
      | next hcolor hsome hspill => exact ih (h.spill hcolor hsome hspill) hok

/-- An allocation comes from some rounds that spilled and one that did not. -/
theorem exists_finishes {frame : Frame} {code : List Instr} {n n' : Namer}
    (h : frame.allocate m options code n = (.ok a, n')) :
    ∃ q slots, Reaches m options (.first frame code n) q slots ∧ Finishes m options q a ∧
      n' = q.namer := by
  obtain ⟨q, slots, hreaches, hfinishes, hnamer⟩ :=
    exists_finishes_of_reaches .start (congrArg Prod.fst h)
  exact ⟨q, slots, hreaches, hfinishes, (congrArg Prod.snd h).symm.trans hnamer⟩

end Allocation

/-! ## Where instructions come from -/

/-- An instruction of the code with other operands, or one that was inserted for some places.  Other
operands are fresh temps, and registers stay what they are. -/
inductive Item.Origin (target : Target) (code : List Instr) (k : Nat) (places : List (Temp × Int)) :
    Item → Prop
  | source {n : Nat} {i : Instr} {f : Temp → Temp} (hi : code[n]? = some i)
      (hf : ∀ t, f t = t ∨ k ≤ (f t).id)
      (hregister : ∀ t, target.machine.isRegister t = true → f t = t) :
      Item.Origin target code k places ⟨.source n, i.rename f⟩
  | inserted {what : Insertion} {a b : Temp} (ha : k ≤ a.id) (hb : k ≤ b.id)
      (hslot : ∀ offset, what.slot? = some offset → offset ∈ places.map Prod.snd) :
      Item.Origin target code k places ⟨.inserted what, (what.operation a b).instr target⟩

section Origin

variable {target : Target} {code : List Instr} {k k' : Nat} {places places' : List (Temp × Int)}
  {x : Item}

theorem Item.Origin.mono (h : Item.Origin target code k places x)
    (hsub : ∀ offset ∈ places.map Prod.snd, offset ∈ places'.map Prod.snd) :
    Item.Origin target code k places' x := by
  cases h with
  | source hi hf hregister => exact .source hi hf hregister
  | inserted ha hb hslot => exact .inserted ha hb fun offset h => hsub offset (hslot offset h)

/-- Fresh temps in the place of some operands do not change where an item comes from. -/
theorem Item.Origin.rename {f : Temp → Temp} (h : Item.Origin target code k places x)
    (hf : ∀ t, f t = t ∨ k ≤ (f t).id)
    (hregister : ∀ t, target.machine.isRegister t = true → f t = t) :
    Item.Origin target code k places ⟨x.tag, x.instr.rename f⟩ := by
  cases h with
  | @source n i g hi hg hgregister =>
      rw [Instr.rename_rename]
      refine .source hi (fun t => ?_) fun t ht => ?_
      · rcases hf (g t) with heq | hle
        · rw [heq]
          exact hg t
        · exact .inr hle
      · rw [hgregister t ht, hregister t ht]
  | inserted ha hb hslot =>
      have hle : ∀ t : Temp, k ≤ t.id → k ≤ (f t).id := by
        intro t ht
        rcases hf t with heq | hle
        · rwa [heq]
        · exact hle
      rw [rename_operation (hregister _ target.machine.isRegister_stackPointer)]
      exact .inserted (hle _ ha) (hle _ hb) hslot

/-- An item defines fresh temps, and registers that the code defines. -/
theorem Item.Origin.defs (h : Item.Origin target code k places x) {d : Temp} (hd : d ∈ x.instr.defs)
    (hlt : d.id < k) : ∃ i ∈ code, d ∈ i.defs := by
  cases h with
  | source hi hf _ =>
      rw [Instr.defs_rename] at hd
      obtain ⟨t, ht, rfl⟩ := List.mem_map.1 hd
      rcases hf t with heq | hle
      · rw [heq]
        exact ⟨_, List.mem_of_getElem? hi, ht⟩
      · exact absurd hlt (Nat.not_lt_of_le hle)
  | @inserted what a b ha _ _ =>
      obtain rfl := mem_defs_item (x := ⟨what, a, b⟩) hd
      exact absurd hlt (Nat.not_lt_of_le ha)

/-- Spilling keeps where items come from. -/
theorem origin_spillItems {items : List Item} (h : ∀ x ∈ items, Item.Origin target code k places x)
    (hk : k ≤ k') (hnodup : (places'.map Prod.fst).Nodup)
    (hplaces : ∀ t, target.machine.isRegister t = true → t ∉ places'.map Prod.fst) :
    ∀ y ∈ (spillItems target places' items k').items,
      Item.Origin target code k (places ++ places') y := by
  intro y hy
  obtain ⟨x, hx, k₁, hk₁, -, rfl | ⟨z, rfl, hz, hslot⟩⟩ := mem_spillItems hy
  · have horigin : Item.Origin target code k (places ++ places') x :=
      (h x hx).mono fun offset hmem => by
        rw [List.map_append]
        exact List.mem_append_left _ hmem
    refine horigin.rename (fun t => ?_) fun t ht => swapped_of_not_mem (hplaces t ht)
    rcases swapped_cases (i := x.instr) (k := k₁) t hnodup with heq | ⟨hge, -⟩
    · exact .inl heq
    · exact .inr (hk.trans (hk₁.trans hge))
  · refine .inserted ?_ ?_ fun offset hoffset => ?_
    · exact hk.trans (hk₁.trans (hz z.a (.inl rfl)).1)
    · exact hk.trans (hk₁.trans (hz z.b (.inr rfl)).1)
    · rw [List.map_append]
      exact List.mem_append_right _ (hslot offset hoffset)

end Origin

/-! ## The code of each round -/

open Allocation

/-- What holds of the items of each round. -/
structure Tracked (m : Machine) (start p : Progress) (items : List Item) : Prop where
  instrs : instrsOf items = p.instrs
  lt : ∀ x ∈ items, ∀ t ∈ x.instr.defs ++ x.instr.uses, t.id < p.namer.nextTemp
  le : start.namer.nextTemp ≤ p.namer.nextTemp
  origin : ∀ x ∈ items, Item.Origin ⟨m, start.frame.sizeSymbol⟩ start.instrs start.namer.nextTemp
    (slotsOf start.frame p.spilled) x
  numbers : numbersOf items = List.range start.instrs.length
  nodup : p.spilled.Nodup
  spilled_lt : ∀ t ∈ p.spilled, t.id < p.namer.nextTemp
  notRegister : ∀ t ∈ p.spilled, m.isRegister t = false
  /-- A spilled temp no longer occurs. -/
  gone : ∀ t ∈ p.spilled, ¬ Mentions p.instrs t
  frame : p.frame = start.frame.allocSlots p.spilled.length

section Tracked

variable {m : Machine} {options : AllocOptions} {start p : Progress} {items : List Item}
  {g : Interference} {r : ColorResult} {avoid : TempSet}

/-- A spilled temp occurs no more in the code that spilling makes. -/
theorem not_mentions_spillItems {target : Target} {places : List (Temp × Int)} {k : Nat} {t : Temp}
    (hnodup : (places.map Prod.fst).Nodup) (hlt : t.id < k)
    (hsp : t ≠ target.machine.stackPointer)
    (h : t ∈ places.map Prod.fst ∨ ¬ Mentions (instrsOf items) t) :
    ¬ Mentions (instrsOf (spillItems target places items k).items) t := by
  rintro ⟨i, hi, ht⟩
  obtain ⟨y, hy, rfl⟩ := List.mem_map.1 hi
  obtain ⟨x, hx, k', hk', -, rfl | ⟨z, rfl, hz, -⟩⟩ := mem_spillItems hy
  · unfold coreItem at ht
    rw [Instr.defs_rename, Instr.uses_rename, ← List.map_append] at ht
    obtain ⟨u, hu, heq⟩ := List.mem_map.1 ht
    rcases swapped_cases (i := x.instr) (k := k') u hnodup with hself | ⟨hge, -⟩
    · obtain rfl : u = t := hself.symm.trans heq
      rcases h with hplace | hgone
      · -- a temp with a place is swapped wherever it occurs
        obtain ⟨e, he, rfl⟩ := List.mem_map.1 hplace
        obtain ⟨s, hs, hold, -⟩ := exists_swap (k := k') he hu
        rw [← hold, swapped_of_mem (nodup_swaps_old hnodup) hs] at heq
        have hge := (mem_swaps hs).2.2.1
        rw [heq, hold] at hge
        omega
      · exact hgone ⟨x.instr, List.mem_map_of_mem hx, hu⟩
    · rw [heq] at hge
      omega
  · -- an access mentions new temps and the stack pointer
    have hown : ¬ (t = z.a ∨ t = z.b) := fun heq => by
      have hge := (hz t heq).1
      omega
    rcases mem_operands_item ht with ha | hb | rfl
    · exact hown (.inl ha)
    · exact hown (.inr hb)
    · exact hsp rfl

/-- The code that a round starts with, before the first one. -/
theorem tracked_first {frame : Frame} {code : List Instr} {n : Namer}
    (htemps : ∀ t, Mentions code t → t.id < n.nextTemp) :
    Tracked m (.first frame code n) (.first frame code n) (itemsOf code 0) := by
  refine ⟨instrsOf_itemsOf code 0, fun x hx t ht => ?_, Nat.le_refl _, fun x hx => ?_, ?_, .nil,
    fun t ht => absurd ht List.not_mem_nil, fun t ht => absurd ht List.not_mem_nil,
    fun t ht => absurd ht List.not_mem_nil, rfl⟩
  · obtain ⟨j, i, rfl, -, hi⟩ := mem_itemsOf.1 hx
    exact htemps t ⟨i, List.mem_of_getElem? hi, ht⟩
  · obtain ⟨j, i, rfl, -, hi⟩ := mem_itemsOf.1 hx
    have hsource : Item.Origin ⟨m, frame.sizeSymbol⟩ code n.nextTemp (slotsOf frame [])
        ⟨.source j, i.rename id⟩ := .source hi (fun _ => .inl rfl) fun _ _ => rfl
    rwa [Instr.rename_id] at hsource
  · rw [numbersOf_itemsOf, List.range_eq_range']
    rfl

theorem Tracked.lt_of_mentions (h : Tracked m start p items) {t : Temp} (ht : Mentions p.instrs t) :
    t.id < p.namer.nextTemp := by
  obtain ⟨i, hi, hmem⟩ := ht
  rw [← h.instrs] at hi
  obtain ⟨x, hx, rfl⟩ := List.mem_map.1 hi
  exact h.lt x hx t hmem

/-- The slots of a round come behind those of the rounds before it. -/
theorem Tracked.slotsOf_spilled (h : Tracked m start p items) (ts : List Temp) :
    slotsOf start.frame (p.spilled ++ ts) = slotsOf start.frame p.spilled ++
      slotsOf p.frame ts := by
  rw [slotsOf_append, h.frame]

/-- Spilling temps of the code that are no registers keeps what holds of the items. -/
theorem Tracked.after_spill (h : Tracked m start p items)
    (hfirst : Temp.firstVirtual ≤ start.namer.nextTemp) {ts : List Temp} (hnodup : ts.Nodup)
    (hts : ∀ t ∈ ts, Mentions p.instrs t ∧ m.isRegister t = false) (introduced : TempSet) :
    let s := spillItems ⟨m, start.frame.sizeSymbol⟩ (slotsOf p.frame ts) items p.namer.nextTemp
    Tracked m start
      { instrs := instrsOf s.items
        frame := p.frame.allocSlots ts.length
        namer := { p.namer with nextTemp := s.next }
        introduced, spilled := p.spilled ++ ts } s.items := by
  intro s
  have hfst : (slotsOf p.frame ts).map Prod.fst = ts := slotsOf_fst p.frame ts
  have hplaces : ((slotsOf p.frame ts).map Prod.fst).Nodup := hfst.symm ▸ hnodup
  have hlt : ∀ t ∈ ts, t.id < p.namer.nextTemp := fun t ht => h.lt_of_mentions (hts t ht).1
  have hsp : m.stackPointer.id < p.namer.nextTemp :=
    Nat.lt_of_lt_of_le (Machine.lt_firstVirtual m.isRegister_stackPointer) (hfirst.trans h.le)
  have hnotPlace : ∀ t, m.isRegister t = true → t ∉ (slotsOf p.frame ts).map Prod.fst := by
    intro t ht hmem
    rw [hfst] at hmem
    exact Bool.false_ne_true ((hts t hmem).2.symm.trans ht)
  have hnext : p.namer.nextTemp ≤ s.next := le_next_spillItems _ _ items p.namer.nextTemp
  have horigin := origin_spillItems h.origin h.le hplaces hnotPlace
  rw [← h.slotsOf_spilled] at horigin
  refine {
    instrs := rfl
    lt := lt_spillItems h.lt hplaces hsp
    le := h.le.trans hnext
    origin := horigin
    numbers := (numbersOf_spillItems _).trans h.numbers
    nodup := ?nodup
    spilled_lt := ?spilled_lt
    notRegister := fun t ht => (List.mem_append.1 ht).elim (h.notRegister t) fun ht => (hts t ht).2
    gone := ?gone
    frame := ?frame }
  case nodup =>
    -- what was spilled before does not occur, and what is spilled now does
    refine List.nodup_append.2 ⟨h.nodup, hnodup, ?_⟩
    rintro t ht u hu rfl
    exact h.gone t ht (hts t hu).1
  case spilled_lt =>
    intro t ht
    rcases List.mem_append.1 ht with ht | ht
    · exact Nat.lt_of_lt_of_le (h.spilled_lt t ht) hnext
    · exact Nat.lt_of_lt_of_le (hlt t ht) hnext
  case gone =>
    intro t ht
    rcases List.mem_append.1 ht with ht | ht
    · exact not_mentions_spillItems hplaces (h.spilled_lt t ht)
        (ne_stackPointer (h.notRegister t ht)) (.inr (h.instrs.symm ▸ h.gone t ht))
    · exact not_mentions_spillItems hplaces (hlt t ht) (ne_stackPointer (hts t ht).2)
        (.inl (hfst.symm ▸ ht))
  case frame =>
    dsimp only
    rw [List.length_append, Frame.allocSlots_add, h.frame]

/-- A round that spills goes on with code of which the same holds. -/
theorem Tracked.spill (h : Tracked m start p items)
    (hfirst : Temp.firstVirtual ≤ start.namer.nextTemp)
    (hcolor : colorCode m options p.introduced p.instrs = .ok (g, r)) {s : SpilledCode}
    {frame : Frame} {n : Namer}
    (hspill : p.frame.spill m p.instrs r.spilled.toList p.namer = (.ok s, frame, n)) :
    ∃ items', Tracked m start
      { instrs := s.instrs, frame, namer := n, introduced := p.introduced.union (.ofList s.fresh)
        spilled := p.spilled ++ r.spilled.toList } items' := by
  have hspilled : ∀ t ∈ r.spilled.toList, Mentions p.instrs t ∧ m.isRegister t = false :=
    fun t ht => spilled_colorCode hcolor ht
  have hfp : m.framePointer.id < p.namer.nextTemp :=
    Nat.lt_of_lt_of_le (Machine.lt_firstVirtual m.isRegister_framePointer) (hfirst.trans h.le)
  have hsymbol : p.frame.sizeSymbol = start.frame.sizeSymbol := by
    rw [h.frame, Frame.sizeSymbol_allocSlots]
  rw [← h.instrs, p.frame.spill_eq m items p.namer r.spilled.nodup
    (fun t ht => h.lt_of_mentions (hspilled t ht).1) hfp, hsymbol] at hspill
  obtain ⟨hs, hframe, hn⟩ : _ ∧ _ ∧ _ := by simpa using hspill
  subst hs hframe hn
  exact ⟨_, h.after_spill hfirst r.spilled.nodup hspilled _⟩

end Tracked

namespace Allocation

variable {m : Machine} {options : AllocOptions} {frame : Frame} {code : List Instr} {n : Namer}
  {p : Progress} {slots : List (Temp × Access)}

/-- Each round starts with items that come from the code, and the slots are those that the frame of
the code gives to the spilled temps in order. -/
theorem Reaches.tracked (h : Reaches m options (.first frame code n) p slots)
    (hfirst : Temp.firstVirtual ≤ n.nextTemp) (htemps : ∀ t, Mentions code t → t.id < n.nextTemp) :
    (∃ items, Tracked m (.first frame code n) p items) ∧
      slots = (slotsOf frame p.spilled).map slotPlace := by
  induction h with
  | start => exact ⟨⟨_, tracked_first htemps⟩, rfl⟩
  | @spill p slots g r s frame' n' h hcolor hsome hspill ih =>
      obtain ⟨⟨items, htracked⟩, hslots⟩ := ih
      refine ⟨htracked.spill hfirst hcolor hspill, ?_⟩
      have hframe : p.frame = frame.allocSlots p.spilled.length := htracked.frame
      rw [slots_eq, hslots, ← List.map_append, slotsOf_append, ← hframe]

/-! ## The last round -/

/-- A temp has the name of a register: its own if it is one, else that of an allocatable one. -/
inductive Names (m : Machine) (names : NameMap) (t : Temp) : Prop
  | register {name : String} (hregister : m.isRegister t = true) (hname : m.asmName? t = some name)
      (h : names.get? t = some name)
  | allocated {r : Temp} {name : String} (hregister : m.isRegister t = false)
      (hr : r ∈ m.allocatable) (hname : m.asmName? r = some name) (h : names.get? t = some name)

section Last

variable {m : Machine} {options : AllocOptions} {code : List Instr} {g : Interference}
  {r : ColorResult}
  {names names' : NameMap} {ts : List Temp} {t u : Temp} {name : String}

/-- Only temps of the list get names. -/
theorem mem_of_get?_registerNames (h : registerNames m r ts names = .ok names')
    (ht : names'.get? t = some name) : t ∈ ts ∨ names.get? t = some name := by
  induction ts generalizing names with
  | nil =>
      cases h
      exact .inr ht
  | cons u ts ih =>
      rcases exists_of_registerNames_cons h with ⟨q, _, ⟨name', _, hrest⟩ | ⟨_, hrest⟩⟩
      · by_cases hut : u = t
        · exact .inl (hut ▸ List.mem_cons_self)
        · have hname := ih hrest
          rw [TempMap.get?_insert, if_neg hut] at hname
          exact hname.imp_left (List.mem_cons_of_mem u)
      · exact (ih hrest).imp_left (List.mem_cons_of_mem u)

variable (hproper : Proper m g r) (hnames : registerNames m r g.temps .empty = .ok names)

include hproper hnames

/-- Each temp of the graph has the name of a register. -/
theorem names_of_mem_temps (ht : t ∈ g.temps) : Names m names t := by
  obtain ⟨p, name, hp, hname, hget, -⟩ := exists_lookup hproper hnames ht
  cases hreg : m.isRegister t with
  | true =>
      rw [registerOf_of_isRegister hproper hreg] at hp
      cases hp
      exact .register hreg hname hget
  | false =>
      rcases registerOf_spec hproper hp with ⟨hreserved, -⟩ | ⟨-, -, hlt⟩
      · exact absurd (Machine.isRegister_of_isReserved hreserved) (Bool.eq_false_iff.1 hreg)
      · exact .allocated hreg (Machine.mem_allocatable_iff.2 hlt) hname hget

/-- No other temp has the name of a reserved register. -/
theorem eq_of_get?_reserved (hu : m.isReserved u = true) (hname : m.asmName? u = some name)
    (h : names.get? t = some name) : t = u := by
  have ht : t ∈ g.temps := (mem_of_get?_registerNames hnames h).resolve_right fun hempty => by
    rw [TempMap.get?_empty] at hempty
    cases hempty
  obtain ⟨p, name', hp, hname', hget, -⟩ := exists_lookup hproper hnames ht
  obtain rfl : name = name' := Option.some.inj (h.symm.trans hget)
  obtain rfl : p = u := asmName?_inj hname' hname
  rcases registerOf_spec hproper hp with ⟨-, heq⟩ | ⟨-, -, hlt⟩
  · exact heq.symm
  · exact absurd hlt (Nat.not_lt_of_le (Machine.colors_le_of_isReserved hu))

end Last

/-- What holds of the items that an allocation is left with. -/
structure Finished (m : Machine) (start : Progress) (a : Allocation) (items : List Item) :
    Prop where
  instrs : instrsOf items = a.instrs
  origin : ∀ x ∈ items, Item.Origin ⟨m, start.frame.sizeSymbol⟩ start.instrs start.namer.nextTemp
    (slotsOf start.frame a.spilled) x
  /-- Only copies are dropped. -/
  kept : ∀ n i, start.instrs[n]? = some i → i.movePair? = none → n ∈ numbersOf items
  nodup : a.spilled.Nodup
  frame : a.frame = start.frame.allocSlots a.spilled.length
  named : ∀ i ∈ a.instrs, ∀ t ∈ i.defs ++ i.uses, Names m a.coloring t
  register : ∀ t, m.isRegister t = true → Names m a.coloring t
  reserved : ∀ t u name, m.isReserved u = true → m.asmName? u = some name →
    a.coloring.get? t = some name → t = u

variable {a : Allocation}

theorem Finishes.finished {start : Progress} {items : List Item} (h : Finishes m options p a)
    (htracked : Tracked m start p items) :
    Finished m start a (items.filter (keeps options a.coloring)) := by
  obtain ⟨g, r, hcolor, hnames⟩ := h.colors
  obtain ⟨hportrays, hproper⟩ := colorCode_spec hcolor
  have hinstrs : instrsOf (items.filter (keeps options a.coloring)) = a.instrs := by
    rw [instrsOf_filter_keeps, htracked.instrs, h.instrs]
  refine ⟨hinstrs, fun x hx => ?_, fun n i hi hmove => ?_, h.spilled ▸ htracked.nodup, ?_,
    fun i hi t ht => names_of_mem_temps hproper hnames ((hportrays.node t).2 (.inr ⟨i, ?_, ht⟩)),
    fun t ht => names_of_mem_temps hproper hnames
      ((hportrays.node t).2 (.inl (mem_registers.2 ht))),
    fun t u name hu hname hget => eq_of_get?_reserved hproper hnames hu hname hget⟩
  · rw [h.spilled]
    exact htracked.origin x (List.mem_of_mem_filter hx)
  · have hn : n ∈ numbersOf items := by
      rw [htracked.numbers]
      exact List.mem_range.2 (List.getElem?_eq_some_iff.1 hi).1
    obtain ⟨x, hx, htag⟩ := mem_numbersOf.1 hn
    refine mem_numbersOf.2 ⟨x, List.mem_filter.2 ⟨hx, ?_⟩, htag⟩
    -- what is dropped is a copy still, with other operands
    refine Classical.byContradiction fun hkeep => ?_
    obtain ⟨s, d, hpair, -⟩ := (drops_keeps items a.coloring).redundant x hx
      (Bool.eq_false_iff.2 hkeep)
    cases htracked.origin x hx with
    | source hi' =>
        cases htag
        cases hi'.symm.trans hi
        rw [Instr.movePair?_rename, hmove] at hpair
        cases hpair
    | inserted => cases htag
  · rw [h.frame, h.spilled]
    exact htracked.frame
  · rw [← hinstrs] at hi
    rw [← htracked.instrs]
    exact List.map_subset _ (List.filter_subset_self _) hi

end Allocation

end TreeCompiler
