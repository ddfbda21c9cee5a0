import TreeCompiler.Machine.TwoRegisters
import TreeCompiler.Proofs.AllocationRounds
import TreeCompiler.Proofs.Registers

/-!
# Behaviour — allocated code does what the code did

The last round puts temps into registers, and each round before it moved some to the frame.  Runs of
the code are followed through the rounds, the last one first: what registers and slots hold at the
start determines what the temps of each round hold there (`Realizes`).
-/

namespace TreeCompiler

open FlowGraph Coloring Allocation

/-! ## Runs in registers -/

/-- Code on temps is realized by items on places: with some values that agree with those of the
registers, each of its runs is matched. -/
def Realizes {L : Type} [DecidableEq L] (target : Target) (code items : List Item)
    (loc : Temp → L) :
    Prop :=
  ∀ (V M : Type) (w : Words V) (I : Interpretation V M) (s' : State L V M), s'.rest = items →
    ∃ file : Temp → V,
      (∀ t, target.machine.isRegister t = true → file t = s'.file (loc t)) ∧
      ∀ (tr : List (Event V M)) (s₂ : State Temp V M),
        Run id target.machine.stackPointer w I code ⟨file, s'.slots, s'.memory, code⟩ tr s₂ →
        ∃ s₂', Run loc target.machine.stackPointer w I items s' (keptEvents items tr) s₂' ∧
          s₂'.memory = s₂.memory ∧ (s₂.rest = [] → s₂'.rest = [])

theorem numbersOf_spillItems {target : Target} {places : List (Temp × Int)} {code : List Item}
    (k : Nat) : numbersOf (spillItems target places code k).items = numbersOf code := by
  have hinserted : ∀ xs : List Inserted, (xs.map (·.item target)).filterMap Item.number? = [] := by
    intro xs
    refine List.filterMap_eq_nil_iff.2 fun y hy => ?_
    rcases List.mem_map.1 hy with ⟨z, _, rfl⟩
    rfl
  induction code generalizing k with
  | nil => rfl
  | cons x rest ih =>
      have hcore : (coreItem places x k).number? = x.number? := rfl
      have hitem : numbersOf (spillItem target places x k).items = numbersOf [x] := by
        unfold numbersOf spillItem loadItems storeItems
        dsimp only
        rw [List.filterMap_append, List.filterMap_cons, List.filterMap_cons, hinserted, hinserted,
          hcore]
        rfl
      calc
        numbersOf (spillItems target places (x :: rest) k).items
            = numbersOf (spillItem target places x k).items
                ++ numbersOf (spillItems target places rest
                  (spillItem target places x k).next).items :=
              List.filterMap_append
        _ = numbersOf [x] ++ numbersOf rest := by rw [hitem, ih]
        _ = numbersOf (x :: rest) := List.filterMap_append.symm

/-- Each step of code on temps is matched by steps of items on places. -/
structure Simulation {V M L : Type} [DecidableEq L] (target : Target) (w : Words V)
    (code items : List Item) (loc : Temp → L) (R : State Temp V M → State L V M → Prop) : Prop where
  start : ∀ s' : State L V M, s'.rest = items → ∃ file : Temp → V,
    (∀ t, target.machine.isRegister t = true → file t = s'.file (loc t)) ∧
      R ⟨file, s'.slots, s'.memory, code⟩ s'
  step : ∀ {I : Interpretation V M} {s s₂ : State Temp V M} {s' : State L V M}
    {es : List (Event V M)}, R s s' → Step id target.machine.stackPointer w I code s es s₂ →
      ∃ s₂', Run loc target.machine.stackPointer w I items s' (keptEvents items es) s₂' ∧ R s₂ s₂'
  memory : ∀ {s : State Temp V M} {s' : State L V M}, R s s' → s'.memory = s.memory
  /-- What is left of the items is what is left of the code. -/
  numbers : ∀ {s : State Temp V M} {s' : State L V M}, R s s' →
    numbersOf s'.rest = (numbersOf s.rest).filter fun n => decide (n ∈ numbersOf items)
  finish : ∀ {s : State Temp V M} {s' : State L V M}, R s s' → s.rest = [] → s'.rest = []

/-- Items on places simulate code on temps, and end with the same instruction if it defines
nothing. -/
structure Simulates {L : Type} [DecidableEq L] (target : Target) (code items : List Item)
    (loc : Temp → L) : Prop where
  simulation : ∀ (V M : Type) (w : Words V), ∃ R : State Temp V M → State L V M → Prop,
    Simulation target w code items loc R
  last : ∀ x, code.getLast? = some x → x.instr.defs = [] →
    items.getLast?.map Item.tag = some x.tag

section Realizes

variable {L : Type} [DecidableEq L] {target : Target} {code items : List Item} {loc : Temp → L}
  {k : Nat} {used : List Int} {keep : Item → Bool} {places : List (Temp × Int)}

section Simulation

variable {V M : Type} {w : Words V} {I : Interpretation V M}
  {R : State Temp V M → State L V M → Prop} {s s₂ : State Temp V M} {s' : State L V M}
  {tr : List (Event V M)}

theorem keptEvents_append (items : List Item) (tr tr' : List (Event V M)) :
    keptEvents items (tr ++ tr') = keptEvents items tr ++ keptEvents items tr' :=
  List.filter_append ..

/-- Each run is matched by a run of the items. -/
theorem Simulation.run (h : Simulation target w code items loc R) (hR : R s s')
    (hrun : Run id target.machine.stackPointer w I code s tr s₂) :
    ∃ s₂', Run loc target.machine.stackPointer w I items s' (keptEvents items tr) s₂' ∧
      R s₂ s₂' := by
  induction hrun generalizing s' with
  | refl s => exact ⟨s', .refl s', hR⟩
  | step hstep _ ih =>
      rcases h.step hR hstep with ⟨s₁', hfirst, hR₁⟩
      rcases ih hR₁ with ⟨s₂', hrest, hR₂⟩
      rw [keptEvents_append]
      exact ⟨s₂', hfirst.trans hrest, hR₂⟩

end Simulation

theorem Simulates.realizes (h : Simulates target code items loc) :
    Realizes target code items loc := by
  intro V M w I s' hrest
  rcases h.simulation V M w with ⟨R, hR⟩
  rcases hR.start s' hrest with ⟨file, hregisters, hstart⟩
  refine ⟨file, hregisters, fun tr s₂ hrun => ?_⟩
  rcases hR.run hstart hrun with ⟨s₂', hrun', h₂⟩
  exact ⟨s₂', hrun', hR.memory h₂, hR.finish h₂⟩

/-- The numbers of the items that are left. -/
theorem numbersOf_filter (hnodup : (numbersOf code).Nodup) {rest : List Item}
    (hsuffix : rest <:+ code) : numbersOf (rest.filter keep)
      = (numbersOf rest).filter fun n => decide (n ∈ numbersOf (code.filter keep)) := by
  induction rest with
  | nil => rfl
  | cons x rest ih =>
      have ih := ih ((List.suffix_cons x rest).trans hsuffix)
      have hx : x ∈ code := hsuffix.mem List.mem_cons_self
      have hcons : ∀ xs : List Item, numbersOf (x :: xs) = x.number?.toList ++ numbersOf xs :=
        fun xs => by cases h : x.number? <;> simp [numbersOf, h]
      have hhead : (x.number?.toList.filter fun n => decide (n ∈ numbersOf (code.filter keep)))
          = if keep x then x.number?.toList else [] := by
        cases hnumber : x.number? with
        | none => simp
        | some n =>
            have hmem : n ∈ numbersOf (code.filter keep) ↔ keep x = true :=
              mem_numbersOf_filter hnodup hx (Item.tag_of_number? hnumber)
            cases hkeep : keep x <;> simp [hmem, hkeep]
      rw [hcons, List.filter_append, hhead, ← ih]
      cases hkeep : keep x with
      | true => rw [List.filter_cons_of_pos hkeep, hcons, if_pos rfl]
      | false => rw [List.filter_cons_of_neg (Bool.eq_false_iff.1 hkeep)]; rfl

/-- Separated places realize the temps, also when copies within one place are dropped. -/
theorem Simulates.of_separates (hloc : Separates target code loc) (hdrops : Drops code loc keep)
    (ho : Orderly target k used code) (hnodup : (numbersOf code).Nodup) :
    Simulates target code (code.filter keep) loc where
  simulation V M w := by
    refine ⟨fun s s' => s.rest <:+ code ∧ ∃ mid : State L V M, Agrees target code loc s mid ∧
      s' = { mid with rest := mid.rest.filter keep }, ?_, ?_, ?_, ?_, ?_⟩
    · intro s' hrest
      rcases s' with ⟨file', slots, memory, rest'⟩
      cases hrest
      refine ⟨fun t => file' (loc t), fun _ _ => rfl, List.suffix_refl code,
        ⟨file', slots, memory, code⟩, ?_, rfl⟩
      exact ⟨fun _ _ => rfl, rfl, fun _ _ _ _ => rfl, rfl, rfl⟩
    · rintro I s s₂ s' es ⟨hsuffix, mid, hagrees, rfl⟩ hstep
      rcases hagrees.step hloc ho hsuffix hstep with ⟨mid₂, hstep', h₂⟩
      refine ⟨_, ?_, hstep.suffix hsuffix, mid₂, h₂, rfl⟩
      exact hdrops.run ho hnodup (hagrees.rest ▸ hsuffix) hstep'.run
    · rintro s s' ⟨_, mid, hagrees, rfl⟩
      exact hagrees.memory
    · rintro s s' ⟨hsuffix, mid, hagrees, rfl⟩
      dsimp only
      rw [hagrees.rest]
      exact numbersOf_filter hnodup hsuffix
    · rintro s s' ⟨_, mid, hagrees, rfl⟩ hend
      dsimp only
      rw [hagrees.rest, hend]
      rfl
  last x hx hdefs := by
    rcases List.getLast?_eq_some_iff.1 hx with ⟨front, rfl⟩
    have hkeep : keep x = true := by
      -- what is dropped defines something
      refine Classical.byContradiction fun hdrop => ?_
      have hx : x ∈ front ++ [x] := List.mem_append_right front (List.mem_singleton_self x)
      rcases hdrops.redundant x hx (Bool.eq_false_iff.2 hdrop) with ⟨s, d, hpair, _⟩
      rcases Instr.eq_copy_of_movePair? hpair with ⟨text, hinstr⟩
      rw [hinstr] at hdefs
      cases hdefs
    rw [List.filter_append, List.filter_cons_of_pos hkeep]
    simp

/-- Spilled temps start with the values of their slots. -/
theorem Placed.exists_mirrors {V M : Type} (hp : Placed target k used places) (slots : Int → V)
    (memory : M) (file' : Temp → V) : ∃ file : Temp → V,
      (∀ t, target.machine.isRegister t = true → file t = file' t) ∧
        Mirrors target code places k ⟨file, slots, memory, code⟩
          ⟨file', slots, memory, (spillItems target places code k).items⟩ := by
  -- a spilled temp has what its slot holds, every other one what it has in the spilled code
  let file : Temp → V := fun t => ((places.lookup t).map slots).getD (file' t)
  have hother : ∀ t, t ∉ places.map Prod.fst → file t = file' t := by
    intro t ht
    have hlookup : places.lookup t = none := by
      refine List.lookup_eq_none_iff.2 fun e he => ?_
      simpa using fun heq : t = e.1 => ht (List.mem_map.2 ⟨e, he, heq.symm⟩)
    dsimp only [file]
    rw [hlookup]
    rfl
  have hspilled : ∀ e ∈ places, file e.1 = slots e.2 := by
    intro e he
    have hlookup : places.lookup e.1 = some e.2 := lookup_of_mem hp.nodup he
    dsimp only [file]
    rw [hlookup]
    rfl
  have hregister : ∀ t, target.machine.isRegister t = true → t ∉ places.map Prod.fst := by
    intro t hreg hmem
    rcases List.mem_map.1 hmem with ⟨e, he, rfl⟩
    exact absurd (hreg.symm.trans (hp.notRegister e he)) nofun
  refine ⟨file, fun t hreg => hother t (hregister t hreg), ?_⟩
  exact ⟨fun t _ ht => (hother t ht).symm, fun e he _ => (hspilled e he).symm,
    (hother _ hp.sp_not_mem).symm, fun _ _ _ _ => rfl, rfl, k, Nat.le_refl k, rfl⟩

/-- What simulates spilled code simulates the code that it was made from: a spilled temp starts with
the value of its slot. -/
theorem Simulates.of_spillItems
    (h : Simulates target (spillItems target places code k).items items loc)
    (ho : Orderly target k used code) (hp : Placed target k used places) :
    Simulates target code items loc where
  simulation V M w := by
    rcases h.simulation V M w with ⟨R, hR⟩
    refine ⟨fun s s'' => s.rest <:+ code ∧ ∃ s', Mirrors target code places k s s' ∧ R s' s'',
      ?_, ?_, ?_, ?_, ?_⟩
    · intro s'' hrest
      rcases hR.start s'' hrest with ⟨file', hregisters, hstart⟩
      rcases hp.exists_mirrors s''.slots s''.memory file' with ⟨file, hfile, hmirrors⟩
      exact ⟨file, fun t hreg => (hfile t hreg).trans (hregisters t hreg), List.suffix_refl code, _,
        hmirrors, hstart⟩
    · rintro I s s₂ s'' es ⟨hsuffix, s', hmirrors, hs'⟩ hstep
      rcases hmirrors.step ho hp hsuffix hstep with ⟨s₂', hrun, h₂⟩
      rcases hR.run hs' hrun with ⟨s₂'', hrun', hR₂⟩
      exact ⟨s₂'', hrun', hstep.suffix hsuffix, s₂', h₂, hR₂⟩
    · rintro s s'' ⟨_, s', hmirrors, hs'⟩
      exact (hR.memory hs').trans hmirrors.memory
    · rintro s s'' ⟨_, s', hmirrors, hs'⟩
      rcases hmirrors.rest with ⟨k', _, hrest⟩
      rw [hR.numbers hs', hrest, numbersOf_spillItems]
    · rintro s s'' ⟨_, s', hmirrors, hs'⟩ hend
      rcases hmirrors.rest with ⟨k', _, hrest⟩
      refine hR.finish hs' ?_
      rw [hrest, hend]
      rfl
  last x hx hdefs := by
    rcases List.getLast?_eq_some_iff.1 hx with ⟨front, rfl⟩
    let k' := (spillItems target places front k).next
    -- nothing is stored behind an instruction that defines nothing
    have hstores : storeItems target places x k' = [] := by
      unfold storeItems stored
      rw [hdefs]
      simp [accessAll]
    have hcore : (coreItem places x k').instr.defs = [] := by
      unfold coreItem
      rw [Instr.defs_rename, hdefs]
      rfl
    have hlast : (spillItems target places (front ++ [x]) k).items.getLast? =
        some (coreItem places x k') := by
      rw [spillItems_append]
      simp [spillItems, spillItem, hstores, k']
    exact h.last (coreItem places x k') hlast hcore

/-- A run depends only on the values of temps that are live at its start. -/
theorem Realizes.run (h : Realizes target code items loc) (ho : Orderly target k used code)
    (hslots : ∀ x ∈ code, x.slot? = none) {V M : Type} {w : Words V} {I : Interpretation V M}
    {s s₂ : State Temp V M} {s' : State L V M} {tr : List (Event V M)}
    (hlive : ∀ t, Live (instrsOf code) t (instrsOf code) → target.machine.isRegister t = true)
    (hs : s.rest = code) (hs' : s'.rest = items) (hmemory : s'.memory = s.memory)
    (hfile : ∀ t, target.machine.isRegister t = true → s'.file (loc t) = s.file t)
    (hrun : Run id target.machine.stackPointer w I code s tr s₂) :
    ∃ s₂', Run loc target.machine.stackPointer w I items s' (keptEvents items tr) s₂' ∧
      s₂'.memory = s₂.memory ∧ (s₂.rest = [] → s₂'.rest = []) := by
  rcases h V M w I s' hs' with ⟨file, hregisters, hmatch⟩
  have hagree : ∀ t, target.machine.isRegister t = true → file t = s.file t := fun t hreg =>
    (hregisters t hreg).trans (hfile t hreg)
  have hsp : target.machine.isRegister target.machine.stackPointer = true :=
    Machine.isRegister_iff.2 (Nat.lt_succ_self _)
  -- what the registers hold at the start decides all that the run may read
  have hagrees : Agrees target code id s ⟨file, s'.slots, s'.memory, code⟩ := by
    refine ⟨fun t ht => hagree t (hlive t ?_), hagree _ hsp, ?_, hmemory, hs.symm⟩
    · rwa [hs] at ht
    · intro x hx offset hoffset
      rw [hslots x hx] at hoffset
      cases hoffset
  rcases hagrees.run ho.separates_id ho (hs ▸ List.suffix_refl _) hrun with ⟨s₁, hrun₁, h₁⟩
  rcases hmatch tr s₁ hrun₁ with ⟨s₂', hrun', hmemory', hend⟩
  refine ⟨s₂', hrun', hmemory'.trans h₁.memory, fun hnil => hend ?_⟩
  rw [h₁.rest, hnil]

end Realizes

/-! ## Rounds -/

/-- Items are instructions of the program with other operands, and what spilling inserts. -/
structure Stems (target : Target) (code : List Instr) (spilled : List Temp) (items : List Item) :
    Prop where
  /-- Temps that are not spilled stay what they are. -/
  source : ∀ x ∈ items, ∀ n, x.tag = .source n →
    ∃ i f, code[n]? = some i ∧ x.instr = i.rename f ∧ ∀ t, t ∉ spilled → f t = t
  inserted : ∀ x ∈ items, ∀ what, x.tag = .inserted what →
    ∃ a b, x.instr = (what.operation a b).instr target

/-- The items that a round works on, and the slots that are in use. -/
structure Stage (m : Machine) (code : List Instr) (p : Progress) (used : List Int)
    (items : List Item) : Prop where
  instrs : instrsOf items = p.instrs
  orderly : Orderly ⟨m, p.frame.sizeSymbol⟩ p.namer.nextTemp used items
  numbers : numbersOf items = List.range code.length
  stems : Stems ⟨m, p.frame.sizeSymbol⟩ code p.spilled items

variable {m : Machine} {options : AllocOptions} {code : List Instr} {p : Progress}
  {used : List Int} {items : List Item} {a : Allocation}

/-- Spilling puts other temps in for the spilled ones only. -/
theorem Stems.source_spillItems {target : Target} {frame : Frame} {old spilled : List Temp}
    {k : Nat} (h : Stems target code old items) {y : Item}
    (hy : y ∈ (spillItems target (slotsOf frame spilled) items k).items) {n : Nat}
    (htag : y.tag = .source n) :
    ∃ i f, code[n]? = some i ∧ y.instr = i.rename f ∧ ∀ t, t ∉ old ++ spilled → f t = t := by
  rcases mem_spillItems hy with ⟨x, hx, k', _, _, rfl | ⟨z, rfl, _⟩⟩
  · rcases h.source x hx n htag with ⟨i, f, hi, hinstr, hf⟩
    refine ⟨i, fun t => swapped (swaps x.instr (slotsOf frame spilled) k') (f t), hi, ?_, ?_⟩
    · unfold coreItem
      dsimp only
      rw [hinstr, Instr.rename_rename]
    · intro t ht
      rw [List.mem_append, not_or] at ht
      dsimp only
      rw [hf t ht.1]
      refine swapped_of_not_mem ?_
      rw [slotsOf_fst]
      exact ht.2
  · cases htag

/-- The code of the next round. -/
theorem Stage.spill {spilled : List Temp} (h : Stage m code p used items)
    (hplaced : Placed ⟨m, p.frame.sizeSymbol⟩ p.namer.nextTemp used (slotsOf p.frame spilled))
    (introduced : TempSet) :
    let s := spillItems ⟨m, p.frame.sizeSymbol⟩ (slotsOf p.frame spilled) items p.namer.nextTemp
    Stage m code
      { instrs := instrsOf s.items
        frame := p.frame.allocSlots spilled.length
        namer := { p.namer with nextTemp := s.next }, introduced
        spilled := p.spilled ++ spilled } (used ++ (slotsOf p.frame spilled).map Prod.snd)
      s.items := by
  intro s
  have horderly : Orderly ⟨m, (p.frame.allocSlots spilled.length).sizeSymbol⟩ s.next
      (used ++ (slotsOf p.frame spilled).map Prod.snd) s.items :=
    p.frame.sizeSymbol_allocSlots _ ▸ h.orderly.spillItems hplaced
  exact {
    instrs := rfl
    orderly := horderly
    numbers := (numbersOf_spillItems _).trans h.numbers
    stems := ⟨fun _ hy _ => h.stems.source_spillItems hy, horderly.inserted⟩ }

/-- Allocated items: numbered as the instructions of the program, of which only copies are
dropped. -/
structure Stands (target : Target) (options : AllocOptions) (code : List Instr) (a : Allocation)
    (items : List Item) : Prop where
  instrs : instrsOf items = a.instrs
  stems : Stems target code a.spilled items
  /-- Every temp is in a register, and each register in itself. -/
  registers : ∀ x ∈ items, ∀ t ∈ x.instr.defs ++ x.instr.uses,
    ∃ p, target.machine.isRegister p = true ∧ a.coloring.get? t = target.machine.asmName? p
  fixed : ∀ t, target.machine.isRegister t = true →
    a.coloring.get? t = target.machine.asmName? t
  /-- Instructions stay in order, each at most once. -/
  order : (numbersOf items).Sublist (List.range code.length)
  dropped : ∀ n i, code[n]? = some i → n ∉ numbersOf items →
    options.eliminateRedundantMoves = true ∧ i.movePair? ≠ none

/-- The items that the last round leaves. -/
def keeps (options : AllocOptions) (names : NameMap) (x : Item) : Bool :=
  !(options.eliminateRedundantMoves && x.instr.isRedundant names)

theorem drops_keeps (items : List Item) (names : NameMap) :
    Drops items names.lookup (keeps options names) := by
  refine ⟨fun x hx hkeep => (drops_isRedundant items names).redundant x hx ?_⟩
  unfold keeps at hkeep
  rw [Bool.not_eq_false', Bool.and_eq_true] at hkeep
  rw [hkeep.2]
  rfl

theorem instrsOf_filter_keeps (names : NameMap) : instrsOf (items.filter (keeps options names)) =
    if options.eliminateRedundantMoves then removeRedundantMoves names (instrsOf items)
    else instrsOf items := by
  unfold removeRedundantMoves instrsOf
  split
  · rename_i heliminate
    rw [List.filter_map]
    refine congrArg _ (List.filter_congr fun x _ => ?_)
    unfold keeps
    rw [heliminate]
    rfl
  · rename_i heliminate
    refine congrArg _ (List.filter_eq_self.2 fun x _ => ?_)
    unfold keeps
    rw [Bool.eq_false_iff.2 heliminate]
    rfl

/-- The last round. -/
theorem Stage.finish {names : NameMap} {rounds : Nat} {g : Interference} {r : ColorResult}
    (h : Stage m code p used items) (hportrays : g.Portrays m (instrsOf items))
    (hproper : Proper m g r) (hnames : registerNames m r g.temps .empty = .ok names) :
    Stands ⟨m, p.frame.sizeSymbol⟩ options code
      ⟨if options.eliminateRedundantMoves then removeRedundantMoves names p.instrs else p.instrs,
        names, p.spilled, rounds, p.frame⟩ (items.filter (keeps options names)) := by
  have hmem : ∀ x, x ∈ items.filter (keeps options names) → x ∈ items := fun x =>
    List.mem_of_mem_filter
  refine {
    instrs := ?instrs
    stems := ⟨fun x hx => h.stems.source x (hmem x hx), fun x hx => h.stems.inserted x (hmem x hx)⟩
    registers := ?registers
    fixed := ?fixed
    order := ?order
    dropped := ?dropped }
  case instrs => rw [instrsOf_filter_keeps, h.instrs]
  case registers =>
    intro x hx t ht
    have htemp : t ∈ g.temps :=
      (hportrays.node t).2 (.inr ⟨x.instr, List.mem_map_of_mem (hmem x hx), ht⟩)
    rcases exists_lookup hproper hnames htemp with ⟨q, b, hq, hb, hget, _⟩
    exact ⟨q, isRegister_registerOf hproper hq, hget.trans hb.symm⟩
  case fixed =>
    intro t hreg
    have htemp : t ∈ g.temps := (hportrays.node t).2 (.inl (mem_registers.2 hreg))
    rcases exists_lookup hproper hnames htemp with ⟨q, b, hq, hb, hget, _⟩
    rw [registerOf_of_isRegister hproper hreg] at hq
    cases hq
    exact hget.trans hb.symm
  case order =>
    rw [← h.numbers]
    exact List.filter_sublist.filterMap _
  case dropped =>
    -- an item of the stage has the number, and the filter drops copies only
    intro n i hi hdropped
    have hn : n ∈ numbersOf items := by
      rw [h.numbers]
      exact List.mem_range.2 (List.getElem?_eq_some_iff.1 hi).1
    rcases mem_numbersOf.1 hn with ⟨x, hx, htag⟩
    have hkeep : keeps options names x = false := by
      refine Bool.eq_false_iff.2 fun hkeep => hdropped ?_
      exact mem_numbersOf.2 ⟨x, List.mem_filter.2 ⟨hx, hkeep⟩, htag⟩
    rcases (drops_keeps items names).redundant x hx hkeep with ⟨s, d, hpair, _⟩
    rcases h.stems.source x hx n htag with ⟨i', f, hi', hinstr, _⟩
    cases hi'.symm.trans hi
    unfold keeps at hkeep
    rw [Bool.not_eq_false', Bool.and_eq_true] at hkeep
    refine ⟨hkeep.1, fun hnone => ?_⟩
    rw [hinstr, Instr.movePair?_rename, hnone] at hpair
    cases hpair

/-- What all rounds together make of some code, if all slots are different.  No register is
spilled. -/
theorem allocateWithin_simulates {left done : Nat} {spilled : List Temp}
    (h : Stage m code p used items) (hok : (allocateWithin m options done left p).1 = .ok a)
    (hspilled : a.spilled = p.spilled ++ spilled)
    (hslots : (used ++ (slotsOf p.frame spilled).map Prod.snd).Nodup) :
    ∃ items', Stands ⟨m, p.frame.sizeSymbol⟩ options code a items' ∧
      Simulates ⟨m, p.frame.sizeSymbol⟩ items items' a.coloring.lookup ∧
      ((∀ t ∈ p.spilled, m.isRegister t = false) → ∀ t ∈ a.spilled, m.isRegister t = false) := by
  -- one round at a time: each stage is simulated by the next, and the last by what it leaves
  induction left generalizing done p used items spilled with
  | zero => cases hok
  | succ left ih =>
      have hturn := turn m options done left p
      generalize allocateWithin m options done (left + 1) p = outcome at hturn hok
      cases hturn with
      | uncolored | stop => cases hok
      | @last g r hcolor _ =>
          -- nothing is spilled: temps and places are apart, and only copies are dropped
          obtain ⟨names, hnames, rfl⟩ := map_eq_ok_iff.1 hok
          rw [← h.instrs] at hcolor
          rcases colorCode_spec hcolor with ⟨hportrays, hproper⟩
          refine ⟨_, h.finish hportrays hproper hnames, ?_, id⟩
          have hloc := separates_lookup h.orderly hportrays hproper hnames
          exact .of_separates hloc (drops_keeps items names) h.orderly
            (h.numbers ▸ List.nodup_range)
      | @next g r s frame n hcolor _ hspill =>
          rw [← h.instrs] at hcolor hspill
          have hlt : ∀ t ∈ r.spilled.toList, t.id < p.namer.nextTemp := by
            intro t ht
            rcases (spilled_colorCode hcolor ht).1 with ⟨i, hi, hmem⟩
            rcases List.mem_map.1 hi with ⟨x, hx, rfl⟩
            exact h.orderly.lt x hx t hmem
          have hregister : ∀ t ∈ r.spilled.toList, m.isRegister t = false :=
            fun t ht => (spilled_colorCode hcolor ht).2
          have hnodup : r.spilled.toList.Nodup := r.spilled.nodup
          have hframe : m.framePointer.id < p.namer.nextTemp :=
            Nat.lt_of_succ_lt h.orderly.sp_lt
          rw [p.frame.spill_eq m items p.namer hnodup hlt hframe] at hspill
          cases hspill
          -- the slots of this round come first, then those of the rounds behind it
          obtain ⟨others, hothers⟩ := exists_spilled hok
          obtain rfl : spilled = r.spilled.toList ++ others :=
            List.append_cancel_left (hspilled.symm.trans (hothers.trans (List.append_assoc ..)))
          rw [slotsOf_append, List.map_append, ← List.append_assoc] at hslots
          have hplaced : Placed ⟨m, p.frame.sizeSymbol⟩ p.namer.nextTemp used
              (slotsOf p.frame r.spilled.toList) :=
            placed_slotsOf (List.nodup_append.1 hslots).1 hnodup hlt hregister
          rcases ih (h.spill hplaced _) hok hothers hslots with
            ⟨items', hstands, hsimulates, hregisters⟩
          dsimp only at hstands hsimulates
          rw [Frame.sizeSymbol_allocSlots] at hstands hsimulates
          refine ⟨items', hstands, .of_spillItems hsimulates h.orderly hplaced, fun hold => ?_⟩
          refine hregisters fun t ht => ?_
          exact (List.mem_append.1 ht).elim (hold t) (hregister t)

/-- The instructions of a program are numbered in order. -/
theorem numbersOf_itemsOf (code : List Instr) (n : Nat) :
    numbersOf (itemsOf code n) = List.range' n code.length := by
  induction code generalizing n with
  | nil => rfl
  | cons i rest ih =>
      calc
        numbersOf (itemsOf (i :: rest) n) = n :: numbersOf (itemsOf rest (n + 1)) := by
          unfold numbersOf itemsOf
          rw [List.zipIdx_cons, List.map_cons, List.filterMap_cons]
          rfl
        _ = n :: List.range' (n + 1) rest.length := by rw [ih]
        _ = List.range' n (i :: rest).length := List.range'_succ.symm

/-- Code that was not allocated yet. -/
theorem stage_itemsOf {frame : Frame} {n : Namer} (hfirst : Temp.firstVirtual ≤ n.nextTemp)
    (htemps : ∀ t, Mentions code t → t.id < n.nextTemp)
    (hreserved : ∀ i ∈ code, ∀ d ∈ i.defs, m.isReserved d = false)
    (hjumps : ∀ i ∈ code, i.targets ≠ [] → i.defs = []) :
    Stage m code { instrs := code, frame, namer := n } [] (itemsOf code 0) := by
  have hitem : ∀ x ∈ itemsOf code 0, ∃ n i, x = ⟨.source n, i⟩ ∧ code[n]? = some i := by
    intro x hx
    rcases List.mem_map.1 hx with ⟨⟨i, n⟩, he, rfl⟩
    exact ⟨n, i, rfl, List.mem_zipIdx_iff_getElem?.1 he⟩
  have hmem : ∀ x ∈ itemsOf code 0, x.instr ∈ code := by
    intro x hx
    rcases hitem x hx with ⟨n, i, rfl, hi⟩
    exact List.mem_of_getElem? hi
  have hinserted : ∀ x ∈ itemsOf code 0, ∀ what, x.tag ≠ .inserted what := by
    intro x hx what
    rcases hitem x hx with ⟨n, i, rfl, _⟩
    exact nofun
  exact {
    instrs := instrsOf_itemsOf code 0
    orderly := {
      lt := fun x hx t ht => htemps t ⟨x.instr, hmem x hx, ht⟩
      reserved := fun x hx => hreserved x.instr (hmem x hx)
      jumps := fun x hx => hjumps x.instr (hmem x hx)
      slots := by
        intro x hx offset hoffset
        rcases hitem x hx with ⟨n, i, rfl, _⟩
        cases hoffset
      inserted := fun x hx what htag => absurd htag (hinserted x hx what)
      registers := hfirst }
    numbers := by rw [numbersOf_itemsOf, List.range_eq_range']
    stems := {
      source := by
        intro x hx n htag
        rcases hitem x hx with ⟨n', i, rfl, hi⟩
        cases htag
        exact ⟨i, id, hi, Instr.rename_id.symm, fun _ _ => rfl⟩
      inserted := fun x hx what htag => absurd htag (hinserted x hx what) } }

/-- Allocation makes items that simulate the code, if its slots have fewer than 2^63 bytes. -/
theorem allocate_simulates {frame : Frame} {n n' : Namer} (hw : 0 < frame.wordSize)
    (hfirst : Temp.firstVirtual ≤ n.nextTemp) (htemps : ∀ t, Mentions code t → t.id < n.nextTemp)
    (hreserved : ∀ i ∈ code, ∀ d ∈ i.defs, m.isReserved d = false)
    (hjumps : ∀ i ∈ code, i.targets ≠ [] → i.defs = [])
    (hok : frame.allocate m options code n = (.ok a, n'))
    (hwords : a.spilled.length * frame.wordSize < 2 ^ 63) :
    ∃ items, Stands ⟨m, frame.sizeSymbol⟩ options code a items ∧
      Simulates ⟨m, frame.sizeSymbol⟩ (itemsOf code 0) items a.coloring.lookup ∧
      ∀ t ∈ a.spilled, m.isRegister t = false := by
  have hstage : Stage m code { instrs := code, frame, namer := n } [] (itemsOf code 0) :=
    stage_itemsOf hfirst htemps hreserved hjumps
  have hok : (allocateWithin m options 0 ((unallocated m code).size + 1)
      { instrs := code, frame, namer := n }).1 = .ok a := congrArg Prod.fst hok
  obtain ⟨items, hstands, hsimulates, hregisters⟩ :=
    allocateWithin_simulates hstage hok rfl (nodup_slotsOf hw (Int.le_of_lt_add_one hwords))
  exact ⟨items, hstands, hsimulates, hregisters fun t ht => absurd ht List.not_mem_nil⟩

/-- Allocated items execute the same instructions as the code in the same order, each with the same
operands and the same memory, except for copies that were dropped, and end when the code ends.  The
temps of the code have places of their own, those of the items the registers that the coloring
names; only registers may have a value at the start. -/
def Refines (m : Machine) (code : List Instr) (a : Allocation) (items : List Item) : Prop :=
  ∀ (V M : Type) (w : Words V) (I : Interpretation V M) (s : State Temp V M)
    (s' : State String V M),
    s.rest = itemsOf code 0 → s'.rest = items → s'.memory = s.memory →
    (∀ t, m.isRegister t = true → s'.file (a.coloring.lookup t) = s.file t) →
    (∀ t, Live code t code → m.isRegister t = true) →
    ∀ (tr : List (Event V M)) (s₂ : State Temp V M),
      Run id m.stackPointer w I (itemsOf code 0) s tr s₂ →
      ∃ s₂', Run a.coloring.lookup m.stackPointer w I items s' (keptEvents items tr) s₂' ∧
        s₂'.memory = s₂.memory ∧ (s₂.rest = [] → s₂'.rest = [])

/-- Allocation preserves the behavior of code that defines no reserved register, and defines nothing
where it jumps, as long as the words of the spilled temps have fewer than 2^63 bytes. -/
theorem allocate_refines {frame : Frame} {n n' : Namer} (hw : 0 < frame.wordSize)
    (hfirst : Temp.firstVirtual ≤ n.nextTemp) (htemps : ∀ t, Mentions code t → t.id < n.nextTemp)
    (hreserved : ∀ i ∈ code, ∀ d ∈ i.defs, m.isReserved d = false)
    (hjumps : ∀ i ∈ code, i.targets ≠ [] → i.defs = [])
    (hok : frame.allocate m options code n = (.ok a, n'))
    (hwords : a.spilled.length * frame.wordSize < 2 ^ 63) :
    ∃ items, Stands ⟨m, frame.sizeSymbol⟩ options code a items ∧ Refines m code a items := by
  have hstage : Stage m code { instrs := code, frame, namer := n } [] (itemsOf code 0) :=
    stage_itemsOf hfirst htemps hreserved hjumps
  obtain ⟨items, hstands, hsimulates, -⟩ :=
    allocate_simulates hw hfirst htemps hreserved hjumps hok hwords
  refine ⟨items, hstands, ?_⟩
  intro V M w I s s' hs hs' hmemory hfile hlive tr s₂ hrun
  refine hsimulates.realizes.run hstage.orderly ?_ ?_ hs hs' hmemory hfile hrun
  · intro x hx
    rcases List.mem_map.1 hx with ⟨e, _, rfl⟩
    rfl
  · rw [instrsOf_itemsOf]
    exact hlive

/-- Two temps live across the uses of a third, on a machine with two registers: both are moved to
the frame, and the copies at the ends are dropped. -/
theorem allocate_refines_two_registers :
    let code : List Instr := [.plain "movq $1, `d0" [⟨100⟩] [], .plain "movq $2, `d0" [⟨101⟩] [],
      .copy "movq `s0, `d0" ⟨102⟩ ⟨0⟩, .plain "addq `s0, `d0" [⟨102⟩] [⟨100⟩, ⟨102⟩],
      .plain "addq `s0, `d0" [⟨102⟩] [⟨101⟩, ⟨102⟩], .copy "movq `s0, `d0" ⟨0⟩ ⟨102⟩,
      .plain "" [] [⟨0⟩]]
    let frame := Frame.new "f" 0 .twoRegisters
    ∃ a n' items, frame.allocate .twoRegisters {} code { nextTemp := 103 } = (.ok a, n') ∧
      a.spilled ≠ [] ∧ Stands ⟨.twoRegisters, frame.sizeSymbol⟩ {} code a items ∧
      Refines .twoRegisters code a items := by
  intro code frame
  have hspills : (frame.allocate .twoRegisters {} code { nextTemp := 103 }).1.toOption.map
      (·.spilled.length) = some 2 := by decide +kernel
  have htemps : ∀ i ∈ code, ∀ t ∈ i.defs ++ i.uses, t.id < 103 := by decide
  generalize hresult : frame.allocate .twoRegisters {} code { nextTemp := 103 } = outcome at hspills
  rcases outcome with ⟨e | a, n'⟩
  · cases hspills
  · have hlength : a.spilled.length = 2 := Option.some.inj hspills
    rcases allocate_refines (m := .twoRegisters) (by decide) (by decide)
      (fun t ⟨i, hi, ht⟩ => htemps i hi t ht) (by decide) (by decide) hresult (by
        rw [hlength]
        decide)
      with ⟨items, hstands, hrefines⟩
    exact ⟨a, n', items, rfl, List.ne_nil_of_length_pos (hlength ▸ Nat.two_pos), hstands, hrefines⟩

end TreeCompiler
