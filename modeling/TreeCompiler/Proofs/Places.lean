import TreeCompiler.Proofs.SpillRun

/-!
# Places — the same code with its values elsewhere

A temp may share its place with others as long as no definition overwrites what is needed later
(`Separates`); a copy within one place overwrites a value by itself.  Then code runs in these places
as it does with a place for each temp (`Agrees.run`).
-/

namespace TreeCompiler

open FlowGraph

variable {V M L : Type} {target : Target} {w : Words V} {I : Interpretation V M}
  {code : List Item} {loc : Temp → L} {k : Nat} {used : List Int}

/-- No definition overwrites a value that is needed later, nor the stack pointer. -/
structure Separates (target : Target) (code : List Item) (loc : Temp → L) : Prop where
  apart : ∀ {x : Item} {rest : List Item} {d t : Temp}, x :: rest <:+ code → d ∈ x.instr.defs →
    LiveOut (instrsOf code) t (instrsOf (x :: rest)) → d ≠ t → loc d = loc t →
    x.instr.movePair?.map (·.1) = some t
  stackPointer : ∀ x ∈ code, ∀ d ∈ x.instr.defs, loc d ≠ loc target.machine.stackPointer

/-- Every temp in a place of its own. -/
theorem Orderly.separates_id (h : Orderly target k used code) : Separates target code id where
  apart _ _ _ hne heq := absurd heq hne
  stackPointer := by
    intro x hx d hd heq
    have hreserved := h.reserved x hx d hd
    have hd : d = target.machine.stackPointer := heq
    simp [hd, Machine.isReserved] at hreserved

/-! ## Agreement -/

/-- A copy defines the value that it uses, and changes nothing else. -/
theorem Item.Acts.of_movePair? {x : Item} {sp : V} {memory : M} {slots slots' : Int → V}
    {vs : List V} {o : Outcome V M} {s d : Temp} (h : x.Acts w I sp memory slots vs o slots')
    (hpair : x.instr.movePair? = some (s, d))
    (hinserted : ∀ what, x.tag = .inserted what →
      ∃ a b, x.instr = (what.operation a b).instr target) :
    vs = [o.values 0] ∧ slots' = slots ∧ o.memory = memory ∧ o.target = none := by
  cases h with
  | label => cases hpair
  | copy n text d s v => exact ⟨rfl, rfl, rfl, rfl⟩
  | oper n i vs hlabel hcopy => exact absurd (hpair.symm.trans hcopy) nofun
  | inserted what i vs v slots' hacts =>
      rcases hinserted what rfl with ⟨a, b, heq⟩
      have heq : i = (what.operation a b).instr target := heq
      subst heq
      -- of what is inserted, only a copy is one
      cases hacts with
      | copy v => exact ⟨rfl, rfl, rfl, rfl⟩
      | loadSlot | storeSlot | frameAddress | constant | add | loadAt | storeAt => cases hpair

/-- Values at places are those of the temps that are live, and control is at the same place. -/
structure Agrees (target : Target) (code : List Item) (loc : Temp → L) (s : State Temp V M)
    (s' : State L V M) : Prop where
  temps : ∀ t, Live (instrsOf code) t (instrsOf s.rest) → s'.file (loc t) = s.file t
  sp : s'.file (loc target.machine.stackPointer) = s.file target.machine.stackPointer
  slots : ∀ x ∈ code, ∀ offset, x.slot? = some offset → s'.slots offset = s.slots offset
  memory : s'.memory = s.memory
  rest : s'.rest = s.rest

section Agreement

variable [DecidableEq L] {s s₂ : State Temp V M} {s' : State L V M}

/-- Behind an item, the values that are still needed are in their places. -/
theorem Separates.write_eq {x : Item} {rest dest : List Item} {o : Outcome V M}
    {file : Temp → V} {file' : L → V} {sp : V} {memory : M} {slots slots' : Int → V}
    {l : Option Label} (h : Separates target code loc) (ho : Orderly target k used code)
    (hsuffix : x :: rest <:+ code) (hgoes : Goes code x.instr rest l dest)
    (hacts : x.Acts w I sp memory slots (x.operands loc file') o slots')
    (hagree : ∀ t, Live (instrsOf code) t (instrsOf (x :: rest)) → file' (loc t) = file t)
    {t : Temp} (hlive : Live (instrsOf code) t (instrsOf dest)) :
    write loc x.instr.defs o.values file' (loc t) = write id x.instr.defs o.values file t := by
  have hx : x ∈ code := hsuffix.mem List.mem_cons_self
  have hout : LiveOut (instrsOf code) t (instrsOf (x :: rest)) := ⟨_, hgoes.next, hlive⟩
  have hvalue : t ∈ x.instr.defs ∨ file' (loc t) = file t := by
    by_cases hdef : t ∈ x.instr.defs
    · exact .inl hdef
    · exact .inr (hagree t (.through hdef hgoes.next hlive))
  by_cases hshare : ∃ d ∈ x.instr.defs, d ≠ t ∧ loc d = loc t
  · -- the definition of a copy shares its place with the source, and has the same value
    rcases hshare with ⟨d, hd, hne, heq⟩
    have hsource := h.apart hsuffix hd hout hne heq
    rcases Option.map_eq_some_iff.1 hsource with ⟨⟨s, d'⟩, hpair, hst⟩
    have hst : s = t := hst
    subst hst
    have hvs := (hacts.of_movePair? hpair (ho.inserted x hx)).1
    rcases Instr.eq_copy_of_movePair? hpair with ⟨text, hinstr⟩
    unfold Item.operands at hvs
    rw [hinstr] at hd hvs hvalue ⊢
    have hd : d = d' := List.mem_singleton.1 hd
    subst hd
    have hnot : s ∉ (Instr.copy text d s).defs := fun hmem =>
      hne (List.mem_singleton.1 hmem).symm
    have hv : file' (loc s) = o.values 0 := List.head_eq_of_cons_eq hvs
    calc
      write loc [d] o.values file' (loc s)
          = Function.update file' (loc d) (o.values 0) (loc s) := rfl
      _ = o.values 0 := by rw [heq, Function.update_self]
      _ = file s := hv.symm.trans (hvalue.resolve_left hnot)
      _ = write id [d] o.values file s := (write_of_forall_ne fun e he heq' =>
            hne ((List.mem_singleton.1 he).symm.trans heq')).symm
  · -- nothing else is written to the place of the temp
    refine TreeCompiler.write_eq (fun d hd hne heq => hshare ⟨d, hd, hne, heq⟩) hvalue

/-- Each step is matched by one step in other places. -/
theorem Agrees.step {es : List (Event V M)} (h : Agrees target code loc s s')
    (hloc : Separates target code loc) (ho : Orderly target k used code) (hsuffix : s.rest <:+ code)
    (hstep : Step id target.machine.stackPointer w I code s es s₂) :
    ∃ s₂', Step loc target.machine.stackPointer w I code s' es s₂' ∧
      Agrees target code loc s₂ s₂' := by
  cases hstep with
  | @act file slots slots₁ memory x rest dest o hacts hgoes =>
      rcases s' with ⟨file', slots', memory', rest'⟩
      have hmemory : memory' = memory := h.memory
      have hrest : rest' = x :: rest := h.rest
      subst hmemory hrest
      have hx : x ∈ code := hsuffix.mem List.mem_cons_self
      have huses : x.operands loc file' = x.operands id file :=
        List.map_congr_left fun t ht => h.temps t (.use ht)
      have hsp : file' (loc target.machine.stackPointer) = file target.machine.stackPointer := h.sp
      -- the item has the operands that it had, and so the outcome
      rcases hacts.transfer id (h.slots x hx) with ⟨slots₁', hacts', hsame, -⟩
      rw [Instr.rename_id] at hacts'
      have hacts' : x.Acts w I (file' (loc target.machine.stackPointer)) memory' slots'
          (x.operands loc file') o slots₁' := by
        rw [huses, hsp]
        exact hacts'
      have hstep' : Step loc target.machine.stackPointer w I code
          ⟨file', slots', memory', x :: rest⟩ (x.events (x.operands id file) memory')
          ⟨write loc x.instr.defs o.values file', slots₁', o.memory, dest⟩ := by
        rw [← huses]
        exact .act hacts' hgoes
      refine ⟨_, hstep', ?temps, ?sp, ?slots, rfl, rfl⟩
      case temps =>
        intro t hlive
        exact hloc.write_eq ho hsuffix hgoes hacts' h.temps hlive
      case sp =>
        have hid := ho.separates_id.stackPointer x hx
        calc
          write loc x.instr.defs o.values file' (loc target.machine.stackPointer)
              = file' (loc target.machine.stackPointer) :=
                write_of_forall_ne (hloc.stackPointer x hx)
          _ = file target.machine.stackPointer := hsp
          _ = write id x.instr.defs o.values file target.machine.stackPointer :=
                (write_of_forall_ne hid).symm
      case slots =>
        intro y hy offset hoffset
        exact hsame offset (h.slots y hy offset hoffset)

theorem Step.suffix {es : List (Event V M)} {s₁ s₂ : State L V M} {sp : Temp}
    (h : Step loc sp w I code s₁ es s₂) (hsuffix : s₁.rest <:+ code) : s₂.rest <:+ code := by
  cases h with
  | act hacts hgoes => exact hgoes.suffix hsuffix

/-- Each run is matched by a run in other places. -/
theorem Agrees.run {tr : List (Event V M)} (h : Agrees target code loc s s')
    (hloc : Separates target code loc) (ho : Orderly target k used code) (hsuffix : s.rest <:+ code)
    (hrun : Run id target.machine.stackPointer w I code s tr s₂) :
    ∃ s₂', Run loc target.machine.stackPointer w I code s' tr s₂' ∧
      Agrees target code loc s₂ s₂' := by
  induction hrun generalizing s' with
  | refl s => exact ⟨s', .refl s', h⟩
  | step hstep _ ih =>
      rcases h.step hloc ho hsuffix hstep with ⟨s₂', hfirst, h₂⟩
      rcases ih h₂ (hstep.suffix hsuffix) with ⟨s₃', hrest, h₃⟩
      exact ⟨s₃', .step hfirst hrest, h₃⟩

end Agreement

/-! ## Copies within one place -/

/-- The numbers of the instructions of the program that some items are. -/
def numbersOf (code : List Item) : List Nat := code.filterMap Item.number?

/-- What a trace has of the instructions that are left. -/
def keptEvents (items : List Item) (tr : List (Event V M)) : List (Event V M) :=
  tr.filter fun e => decide (e.number ∈ numbersOf items)

/-- The items that are left copy between two places, or are no copies. -/
structure Drops (code : List Item) (loc : Temp → L) (keep : Item → Bool) : Prop where
  redundant : ∀ x ∈ code, keep x = false →
    ∃ s d, x.instr.movePair? = some (s, d) ∧ loc s = loc d

variable {keep : Item → Bool}

theorem Item.tag_of_number? {x : Item} {n : Nat} (h : x.number? = some n) : x.tag = .source n := by
  unfold Item.number? at h
  split at h
  · rename_i heq
    cases h
    exact heq
  · cases h

theorem mem_numbersOf {n : Nat} : n ∈ numbersOf code ↔ ∃ x ∈ code, x.tag = .source n := by
  unfold numbersOf
  rw [List.mem_filterMap]
  constructor
  · rintro ⟨x, hx, hnumber⟩
    exact ⟨x, hx, Item.tag_of_number? hnumber⟩
  · rintro ⟨x, hx, htag⟩
    refine ⟨x, hx, ?_⟩
    unfold Item.number?
    rw [htag]

/-- An instruction of the program occurs once. -/
theorem eq_of_tag (hnodup : (numbersOf code).Nodup) {x y : Item} {n : Nat} (hx : x ∈ code)
    (hy : y ∈ code) (hxn : x.tag = .source n) (hyn : y.tag = .source n) : x = y := by
  have hpairs := List.pairwise_filterMap.1 hnodup
  refine Classical.byContradiction fun hne => ?_
  have hforall := @List.Pairwise.forall Item _ code
    ⟨fun a b hab i hi j hj => (hab j hj i hi).symm⟩ hpairs
  refine hforall hx hy hne n ?_ n ?_ rfl
  · unfold Item.number?
    rw [hxn]
  · unfold Item.number?
    rw [hyn]

/-- An instruction of the program is left if its item is. -/
theorem mem_numbersOf_filter (hnodup : (numbersOf code).Nodup) {x : Item} {n : Nat} (hx : x ∈ code)
    (htag : x.tag = .source n) : n ∈ numbersOf (code.filter keep) ↔ keep x = true := by
  rw [mem_numbersOf]
  constructor
  · rintro ⟨y, hy, hytag⟩
    rcases List.mem_filter.1 hy with ⟨hy, hkeep⟩
    rwa [eq_of_tag hnodup hx hy htag hytag]
  · exact fun hkeep => ⟨x, List.mem_filter.2 ⟨hx, hkeep⟩, htag⟩

/-- Labels are left. -/
theorem Drops.seekItem (h : Drops code loc keep) (l : Label) :
    seekItem l (code.filter keep) = (seekItem l code).map (·.filter keep) := by
  have hrec : ∀ rest, rest <:+ code →
      TreeCompiler.seekItem l (rest.filter keep)
        = (TreeCompiler.seekItem l rest).map (·.filter keep) := by
    intro rest
    induction rest with
    | nil => exact fun _ => rfl
    | cons x rest ih =>
        intro hsuffix
        have ih := ih ((List.suffix_cons x rest).trans hsuffix)
        have hx : x ∈ code := hsuffix.mem List.mem_cons_self
        cases hkeep : keep x with
        | true =>
            rw [List.filter_cons_of_pos hkeep]
            unfold TreeCompiler.seekItem
            rw [ih]
            split
            · rw [Option.map_some, List.filter_cons_of_pos hkeep]
            · rfl
        | false =>
            -- a copy carries no label
            rcases h.redundant x hx hkeep with ⟨s, d, hpair, _⟩
            rcases Instr.eq_copy_of_movePair? hpair with ⟨text, hinstr⟩
            have hcarries : carries l x.instr = false := by
              rw [hinstr]
              rfl
            rw [List.filter_cons_of_neg (Bool.eq_false_iff.1 hkeep)]
            conv => rhs; unfold TreeCompiler.seekItem
            rw [hcarries, ih]
            rfl
  exact hrec code (List.suffix_refl code)

theorem Drops.goes (h : Drops code loc keep) {i : Instr} {rest dest : List Item} {l : Option Label}
    (hgoes : Goes code i rest l dest) :
    Goes (code.filter keep) i (rest.filter keep) l (dest.filter keep) := by
  cases hgoes with
  | fall hfall => exact .fall hfall
  | jump hl hseek =>
      refine .jump hl ?_
      rw [h.seekItem, hseek]
      rfl

/-- A kept item leaves its events, and a dropped one leaves none. -/
theorem keptEvents_events (keep : Item → Bool) (hnodup : (numbersOf code).Nodup) {x : Item}
    (hx : x ∈ code) (vs : List V) (memory : M) : keptEvents (code.filter keep) (x.events vs memory)
      = if keep x then x.events vs memory else [] := by
  unfold Item.events
  cases htag : x.tag with
  | inserted what => cases keep x <;> rfl
  | source n =>
      have honly : n ∈ numbersOf (code.filter keep) ↔ keep x = true :=
        mem_numbersOf_filter hnodup hx htag
      unfold keptEvents
      dsimp only
      cases hkeep : keep x with
      | true => simp [honly.2 hkeep]
      | false =>
          have hnot : n ∉ numbersOf (code.filter keep) := fun hmem =>
            Bool.eq_false_iff.1 hkeep (honly.1 hmem)
          simp [hnot]

/-- A copy within one place changes no place. -/
theorem Item.write_of_redundant [DecidableEq L] {x : Item} {file : L → V} {values : Nat → V}
    {s d : Temp} (hpair : x.instr.movePair? = some (s, d)) (hloc : loc s = loc d)
    (hvs : x.operands loc file = [values 0]) : write loc x.instr.defs values file = file := by
  rcases Instr.eq_copy_of_movePair? hpair with ⟨text, hinstr⟩
  unfold Item.operands at hvs
  rw [hinstr] at hvs ⊢
  have hvalue : file (loc s) = values 0 := List.head_eq_of_cons_eq hvs
  calc
    write loc [d] values file = Function.update file (loc d) (values 0) := rfl
    _ = Function.update file (loc d) (file (loc d)) := by rw [← hvalue, hloc]
    _ = file := Function.update_eq_self _ _

/-- Each run is matched by a run of the items that are left. -/
theorem Drops.run [DecidableEq L] {sp : Temp} {s s₂ : State L V M} {tr : List (Event V M)}
    (h : Drops code loc keep) (ho : Orderly target k used code) (hnodup : (numbersOf code).Nodup)
    (hsuffix : s.rest <:+ code) (hrun : Run loc sp w I code s tr s₂) :
    Run loc sp w I (code.filter keep) { s with rest := s.rest.filter keep }
      (keptEvents (code.filter keep) tr) { s₂ with rest := s₂.rest.filter keep } := by
  induction hrun with
  | refl s => exact .refl _
  | step hstep hrun ih =>
      have ih := ih (hstep.suffix hsuffix)
      cases hstep with
      | @act file slots slots₁ memory x rest dest o hacts hgoes =>
          have hx : x ∈ code := hsuffix.mem List.mem_cons_self
          have hevents := keptEvents_events keep hnodup hx (x.operands loc file) memory
          unfold keptEvents at hevents ih ⊢
          rw [List.filter_append, hevents]
          dsimp only at ih ⊢
          cases hkeep : keep x with
          | true =>
              rw [List.filter_cons_of_pos hkeep, if_pos rfl]
              exact .step (.act hacts (h.goes hgoes)) ih
          | false =>
              -- the copy writes a value to the place where it is
              rcases h.redundant x hx hkeep with ⟨s, d, hpair, hloc⟩
              rcases hacts.of_movePair? hpair (ho.inserted x hx) with
                ⟨hvs, hslots, hmemory, htarget⟩
              rw [htarget] at hgoes
              cases hgoes
              rw [Item.write_of_redundant hpair hloc hvs, hslots, hmemory] at ih
              rw [List.filter_cons_of_neg (Bool.eq_false_iff.1 hkeep)]
              exact ih

end TreeCompiler
