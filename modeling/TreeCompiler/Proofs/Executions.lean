import TreeCompiler.Proofs.Behaviour

/-!
# Executions — what items may do, whatever the program does

In an execution each instruction of the program may give its definitions any values and go to any of
its targets (`Choice`); only a copy has to copy.  It leaves the slots alone, and inserted
instructions work on them.  Memory is left out: what is read from it is one more value that may be
anything.

An execution of allocated items to their end comes from one of the code they were made from, which
makes the same choices (`Simulation.exists_execution`): an item that is left is reached with the
values that it should use, as in the simulation of the code by the items, and from there on the
choice of the execution is the outcome of the instruction.
-/

namespace TreeCompiler

open FlowGraph

variable {V L : Type} [DecidableEq L]

/-- What an instruction of the program does in an execution. -/
structure Choice (V : Type) where
  /-- The value of each definition, in order. -/
  values : Nat → V
  /-- The label that is jumped to; control falls through if there is none. -/
  target : Option Label

/-- What an inserted instruction may do to its definition and to the slots.  One that accesses a
slot through a wrong address may do anything. -/
inductive Insertion.May (w : Words V) (sp : V) (slots : Int → V) (what : Insertion) (vs : List V) :
    V → (Int → V) → Prop
  | acts {v : V} {slots' : Int → V} (h : what.Acts w sp slots vs v slots') :
      May w sp slots what vs v slots'
  | astray (v : V) (slots' : Int → V)
      (h : ∀ v' slots'', ¬ what.Acts w sp slots vs v' slots'') : May w sp slots what vs v slots'

/-- A choice of an instruction, which copies if it is a copy. -/
def Choice.Fits (loc : Temp → L) (file : L → V) (c : Choice V) (i : Instr) : Prop :=
  ∀ s d, i.movePair? = some (s, d) → c.values = fun _ => file (loc s)

section Executions

variable (loc : Temp → L) (sp : Temp) (w : Words V) (code : List Item)

/-- Some steps of an execution, with the choices that instructions of the program make in them. -/
inductive Execution : State L V Unit → List (Choice V) → State L V Unit → Prop
  | refl (s : State L V Unit) : Execution s [] s
  | source {file : L → V} {slots : Int → V} {x : Item} {rest dest : List Item} {n : Nat}
      {c : Choice V} {cs : List (Choice V)} {s : State L V Unit} (htag : x.tag = .source n)
      (hfits : c.Fits loc file x.instr) (hgoes : Goes code x.instr rest c.target dest)
      (h : Execution ⟨write loc x.instr.defs c.values file, slots, (), dest⟩ cs s) :
      Execution ⟨file, slots, (), x :: rest⟩ (c :: cs) s
  | inserted {file : L → V} {slots slots' : Int → V} {x : Item} {rest dest : List Item}
      {what : Insertion} {v : V} {cs : List (Choice V)} {s : State L V Unit}
      (htag : x.tag = .inserted what)
      (hmay : what.May w (file (loc sp)) slots (x.operands loc file) v slots')
      (hgoes : Goes code x.instr rest none dest)
      (h : Execution ⟨write loc x.instr.defs (fun _ => v) file, slots', (), dest⟩ cs s) :
      Execution ⟨file, slots, (), x :: rest⟩ cs s

end Executions

/-! ## Steps are determined -/

section Determined

variable {M : Type} {loc : Temp → L} {sp : Temp} {w : Words V} {I : Interpretation V M}
  {code : List Item} {s s₁ s₂ e : State L V M} {es es' tr : List (Event V M)}

theorem Insertion.Acts.unique {what : Insertion} {a : V} {slots slots₁ slots₂ : Int → V}
    {vs : List V}
    {v₁ v₂ : V} (h₁ : what.Acts w a slots vs v₁ slots₁) (h₂ : what.Acts w a slots vs v₂ slots₂) :
    v₁ = v₂ ∧ slots₁ = slots₂ := by
  cases h₁ <;> cases h₂ <;> exact ⟨rfl, rfl⟩

theorem Goes.unique {i : Instr} {rest dest dest' : List Item} {l : Option Label}
    (h : Goes code i rest l dest) (h' : Goes code i rest l dest') : dest = dest' := by
  cases h with
  | fall => cases h'; rfl
  | jump hl hseek =>
      cases h' with
      | jump hl' hseek' => exact Option.some.inj (hseek.symm.trans hseek')

/-- What an item does, it does to definitions, memory and slots in one way. -/
theorem Item.Acts.unique {x : Item} {a : V} {memory : M} {slots slots₁ slots₂ : Int → V}
    {vs : List V} {o₁ o₂ : Outcome V M} (h₁ : x.Acts w I a memory slots vs o₁ slots₁)
    (h₂ : x.Acts w I a memory slots vs o₂ slots₂) (loc : Temp → L) (file : L → V) :
    write loc x.instr.defs o₁.values file = write loc x.instr.defs o₂.values file ∧
      o₁.memory = o₂.memory ∧ o₁.target = o₂.target ∧ slots₁ = slots₂ := by
  cases h₁ with
  | label n text l values =>
      cases h₂ with
      | label => exact ⟨rfl, rfl, rfl, rfl⟩
      | oper _ _ _ hlabel => cases hlabel
  | copy n text d s v =>
      cases h₂ with
      | copy => exact ⟨rfl, rfl, rfl, rfl⟩
      | oper _ _ _ _ hcopy => cases hcopy
  | oper n i vs hlabel hcopy =>
      cases h₂ with
      | label => cases hlabel
      | copy => cases hcopy
      | oper => exact ⟨rfl, rfl, rfl, rfl⟩
  | inserted what i vs v slots' h =>
      cases h₂ with
      | inserted _ _ _ v₂ slots₂ h' =>
          obtain ⟨rfl, rfl⟩ := h.unique h'
          exact ⟨rfl, rfl, rfl, rfl⟩

theorem Step.unique (h₁ : Step loc sp w I code s es s₁) (h₂ : Step loc sp w I code s es' s₂) :
    es = es' ∧ s₁ = s₂ := by
  cases h₁ with
  | act hacts₁ hgoes₁ =>
      cases h₂ with
      | act hacts₂ hgoes₂ =>
          obtain ⟨hwrite, hmemory, htarget, rfl⟩ := hacts₁.unique hacts₂ loc _
          rw [htarget] at hgoes₁
          rw [hwrite, hmemory, hgoes₁.unique hgoes₂]
          exact ⟨rfl, rfl⟩

/-- An item that leaves an event is the instruction of the program that the event tells of. -/
theorem Item.of_events_eq {x : Item} {n : Nat} {vs us : List V} {memory memory' : M}
    (h : x.events vs memory = [⟨n, us, memory'⟩]) : x.tag = .source n ∧ vs = us := by
  unfold Item.events at h
  split at h
  · rename_i n' htag
    obtain ⟨rfl, rfl, -⟩ := Event.mk.inj (List.head_eq_of_cons_eq h)
    exact ⟨htag, rfl⟩
  · cases h

/-- A run that leaves one event: silent steps, the step that leaves it, and silent steps. -/
theorem Run.exists_step (h : Run loc sp w I code s tr e) {ev : Event V M} (htr : tr = [ev]) :
    ∃ s₁ s₂, Run loc sp w I code s [] s₁ ∧ Step loc sp w I code s₁ [ev] s₂ ∧
      Run loc sp w I code s₂ [] e := by
  induction h with
  | refl => cases htr
  | @step s s' e es tr hstep hrun ih =>
      have hlength : es = [] ∨ ∃ ev, es = [ev] := by
        cases hstep with
        | act =>
            unfold Item.events
            split
            · exact .inr ⟨_, rfl⟩
            · exact .inl rfl
      rcases hlength with rfl | ⟨ev', rfl⟩
      · obtain ⟨s₁, s₂, hsilent, hev, hrest⟩ := ih htr
        exact ⟨s₁, s₂, .step hstep hsilent, hev, hrest⟩
      · obtain ⟨rfl, rfl⟩ := List.cons.inj htr
        exact ⟨s, s', .refl s, hstep, hrun⟩

theorem Run.suffix (h : Run loc sp w I code s tr e) (hsuffix : s.rest <:+ code) :
    e.rest <:+ code := by
  induction h with
  | refl => exact hsuffix
  | step hstep _ ih => exact ih (hstep.suffix hsuffix)

end Determined

/-! ## Executions and runs -/

section Following

variable {loc : Temp → L} {sp : Temp} {w : Words V} {code rest dest : List Item} {x : Item}
  {n : Nat}
  {file : L → V} {slots : Int → V} {s s₁ e : State L V Unit} {c : Choice V} {cs : List (Choice V)}

/-- The interpretation by which an instruction makes a choice. -/
def Choice.interpretation (c : Choice V) : Interpretation V Unit :=
  fun _ _ _ => ⟨c.values, (), c.target⟩

/-- Without targets there is no jump. -/
theorem Goes.eq_none {l : Option Label} {i : Instr} (h : Goes code i rest l dest)
    (htargets : i.targets = []) : l = none := by
  cases h with
  | fall => rfl
  | jump hl =>
      rw [htargets] at hl
      cases hl

theorem Choice.step (htag : x.tag = .source n) (hfits : c.Fits loc file x.instr)
    (hgoes : Goes code x.instr rest c.target dest) :
    Step loc sp w c.interpretation code ⟨file, slots, (), x :: rest⟩
      (x.events (x.operands loc file) ())
      ⟨write loc x.instr.defs c.values file, slots, (), dest⟩ := by
  rcases x with ⟨tag, i⟩
  cases htag
  have hoper : i.label? = none → i.movePair? = none → Step loc sp w c.interpretation code
      ⟨file, slots, (), ⟨.source n, i⟩ :: rest⟩ _
        ⟨write loc i.defs c.values file, slots, (), dest⟩ :=
    fun hlabel hcopy => Step.of_goes (.oper n i _ hlabel hcopy) rfl hgoes
  cases i with
  | label text l =>
      exact Step.of_goes (.label n text l c.values) (hgoes.eq_none rfl).symm hgoes
  | oper => exact hoper rfl rfl
  | move text dst src =>
      cases dst with
      | none => exact hoper rfl rfl
      | some d =>
          cases src with
          | none => exact hoper rfl rfl
          | some s =>
              rw [hfits s d rfl]
              exact Step.of_goes (.copy n text d s _) (hgoes.eq_none rfl).symm hgoes

/-- An execution to the end goes where silent steps go. -/
theorem Execution.of_silent {I : Interpretation V Unit} {tr : List (Event V Unit)}
    (h : Execution loc sp w code s cs e) (hend : e.rest = [])
    (hrun : Run loc sp w I code s tr s₁) (htr : tr = []) : Execution loc sp w code s₁ cs e := by
  induction hrun with
  | refl => exact h
  | step hstep _ ih =>
      rcases List.append_eq_nil_iff.1 htr with ⟨hevents, htr⟩
      refine ih ?_ htr
      cases hstep with
      | @act file slots slots' memory x rest dest o hacts hgoes =>
          cases h with
          | refl => cases hend
          | source htag =>
              -- an instruction of the program leaves an event
              unfold Item.events at hevents
              rw [htag] at hevents
              cases hevents
          | inserted htag hmay hgoes' h =>
              cases hacts with
              | label => cases htag
              | copy => cases htag
              | oper => cases htag
              | inserted what i vs v slots' hacts =>
                  cases htag
                  cases hmay with
                  | acts hacts' =>
                      obtain ⟨rfl, rfl⟩ := hacts.unique hacts'
                      rwa [hgoes.unique hgoes']
                  | astray hnot => exact absurd hacts (hnot _ _)

/-- An execution to the end makes a choice for the first instruction of the program that is left. -/
theorem Execution.exists_choice {before : List Item} (hbefore : ∀ y ∈ before, y.number? = none)
    (htag : x.tag = .source n)
    (h : Execution loc sp w code ⟨file, slots, (), before ++ x :: rest⟩ cs e) (hend : e.rest = []) :
    ∃ c cs' dest, cs = c :: cs' ∧ Goes code x.instr rest c.target dest := by
  induction before generalizing file slots with
  | nil =>
      cases h with
      | refl => cases hend
      | source _ _ hgoes => exact ⟨_, _, _, rfl, hgoes⟩
      | inserted htag' => exact absurd (htag.symm.trans htag') nofun
  | cons y before ih =>
      rcases List.forall_mem_cons.1 hbefore with ⟨hy, hbefore⟩
      cases h with
      | refl => cases hend
      | source htag' =>
          unfold Item.number? at hy
          rw [htag'] at hy
          cases hy
      | inserted _ _ hgoes h =>
          cases hgoes
          exact ih hbefore h

end Following

/-! ## From items to the code -/

/-- Items that some code was allocated to, of which only copies are missing. -/
structure Descends (target : Target) (code items : List Item) : Prop where
  source : ∀ x ∈ code, ∃ n, x.tag = .source n
  stems : ∀ x ∈ code, ∀ y ∈ items, y.tag = x.tag → ∃ f : Temp → Temp,
    y.instr = x.instr.rename f ∧ ∀ t, target.machine.isRegister t = true → f t = t
  resolves : ∀ x ∈ code, ∀ l ∈ x.instr.targets, ∃ dest, seekItem l code = some dest
  dropped : ∀ x ∈ code, ∀ n, x.tag = .source n → n ∉ numbersOf items → x.instr.movePair? ≠ none

section Descent

variable {target : Target} {w : Words V} {code items rest : List Item} {loc : Temp → L}
  {R : State Temp V Unit → State L V Unit → Prop} {s : State Temp V Unit} {s' e : State L V Unit}
  {x : Item} {n : Nat} {cs : List (Choice V)}

/-- Where items can go, the code can go. -/
theorem Descends.exists_goes (h : Descends target code items) (hx : x ∈ code) {y : Item}
    (hy : y ∈ items) (htag : y.tag = x.tag) {rest' dest' : List Item} {l : Option Label}
    (hgoes : Goes items y.instr rest' l dest') : ∃ dest, Goes code x.instr rest l dest := by
  obtain ⟨f, hinstr, -⟩ := h.stems x hx y hy htag
  rw [hinstr] at hgoes
  cases hgoes with
  | fall hfall => exact ⟨rest, .fall (Instr.fallsThrough_rename ▸ hfall)⟩
  | jump hl =>
      rw [Instr.targets_rename] at hl
      obtain ⟨dest, hdest⟩ := h.resolves x hx _ hl
      exact ⟨dest, .jump hl hdest⟩

/-- A choice of values for an instruction that may be a copy. -/
def Choice.fitted (c : Choice V) (file : Temp → V) (i : Instr) : Choice V :=
  match i.movePair? with
  | some e => ⟨fun _ => file e.1, c.target⟩
  | none => c

theorem Choice.target_fitted (c : Choice V) (file : Temp → V) (i : Instr) :
    (c.fitted file i).target = c.target := by
  unfold fitted
  cases i.movePair? <;> rfl

theorem Choice.fits_fitted (c : Choice V) (file : Temp → V) (i : Instr) :
    (c.fitted file i).Fits id file i := by
  intro s d hpair
  unfold fitted
  rw [hpair]
  rfl

omit [DecidableEq L] in
/-- A choice that fits an item with the same operands needs no other values. -/
theorem Choice.fitted_eq {c : Choice V} {file : Temp → V} {file' : L → V} {i j : Instr}
    {f : Temp → Temp} (hj : j = i.rename f) (hfits : c.Fits loc file' j)
    (hoperands : (j.uses.map fun t => file' (loc t)) = i.uses.map file) : c.fitted file i = c := by
  unfold fitted
  cases hpair : i.movePair? with
  | none => rfl
  | some e =>
      rcases e with ⟨s, d⟩
      obtain ⟨text, rfl⟩ := Instr.eq_copy_of_movePair? hpair
      have hvalues := hfits (f s) (f d) (by rw [hj]; rfl)
      rw [hj] at hoperands
      have hsource : file' (loc (f s)) = file s := List.head_eq_of_cons_eq hoperands
      rw [hsource] at hvalues
      dsimp only
      rw [← hvalues]

/-- What is left of the items begins with what is inserted before a kept instruction. -/
theorem Simulation.exists_append (hsim : Simulation target w code items loc R) (hR : R s s')
    (hrest : s.rest = x :: rest) (htag : x.tag = .source n) (hn : n ∈ numbersOf items) :
    ∃ before y after, s'.rest = before ++ y :: after ∧ (∀ z ∈ before, z.number? = none) ∧
      y.tag = .source n := by
  have hhead : numbersOf (x :: rest) = n :: numbersOf rest := by
    unfold numbersOf Item.number?
    rw [List.filterMap_cons, htag]
  have hnumbers := hsim.numbers hR
  rw [hrest, hhead, List.filter_cons, if_pos (decide_eq_true hn)] at hnumbers
  obtain ⟨before, y, after, hafter, hbefore, hy, -⟩ := List.filterMap_eq_cons_iff.1 hnumbers
  exact ⟨before, y, after, hafter, hbefore, Item.tag_of_number? hy⟩

/-- An execution follows a run that carries out one instruction, if it makes the choice by which the
run does. -/
theorem Execution.of_event {i : Instr} {file : Temp → V} {c : Choice V} {sp : Temp}
    (hstems : ∀ y ∈ items, y.tag = .source n → ∃ f, y.instr = i.rename f)
    (hsuffix : s'.rest <:+ items) (h : Execution loc sp w items s' (c :: cs) e) (hend : e.rest = [])
    {s₂ : State L V Unit} (hrun : Run loc sp w (c.fitted file i).interpretation items s'
      [⟨n, i.uses.map file, ()⟩] s₂) :
    c.fitted file i = c ∧ Execution loc sp w items s₂ cs e := by
  obtain ⟨s₃, s₄, hbefore, hstep, hafter⟩ := hrun.exists_step rfl
  have h₃ := h.of_silent hend hbefore rfl
  have hsuffix₃ := hbefore.suffix hsuffix
  generalize hev : ([⟨n, i.uses.map file, ()⟩] : List (Event V Unit)) = evs at hstep
  cases hstep with
  | @act file' slots slots' memory y rest dest o hacts hgoes =>
      have hy : y ∈ items := hsuffix₃.mem List.mem_cons_self
      obtain ⟨htag, hoperands⟩ := Item.of_events_eq hev.symm
      obtain ⟨f, hinstr⟩ := hstems y hy htag
      cases h₃ with
      | inserted htag' => exact absurd (htag.symm.trans htag') nofun
      | source htag' hfits hgoes' h₄ =>
          have hc : c.fitted file i = c := Choice.fitted_eq hinstr hfits hoperands
          rw [hc] at hacts hafter
          obtain ⟨-, heq⟩ := (Choice.step htag' hfits hgoes').unique (.act hacts hgoes)
          rw [heq] at h₄
          exact ⟨hc, h₄.of_silent hend hafter rfl⟩

/-- The items carry out a kept instruction with the operands that it has in the code, and with the
first choice of the execution. -/
theorem Simulation.exists_choice (hsim : Simulation target w code items loc R)
    (hd : Descends target code items) (hR : R s s') (hx : x ∈ code) (hrest : s.rest = x :: rest)
    (htag : x.tag = .source n) (hn : n ∈ numbersOf items) (hsuffix : s'.rest <:+ items)
    (h : Execution loc target.machine.stackPointer w items s' cs e) (hend : e.rest = []) :
    ∃ c cs' dest s₂', cs = c :: cs' ∧ c.Fits id s.file x.instr ∧
      Goes code x.instr rest c.target dest ∧
      Run loc target.machine.stackPointer w c.interpretation items s'
        [⟨n, x.operands id s.file, ()⟩] s₂' ∧
      R ⟨write id x.instr.defs c.values s.file, s.slots, (), dest⟩ s₂' ∧
      Execution loc target.machine.stackPointer w items s₂' cs' e := by
  rcases s with ⟨file, slots, ⟨⟩, rest₀⟩
  cases hrest
  have hstems : ∀ y ∈ items, y.tag = .source n → ∃ f, y.instr = x.instr.rename f := by
    intro y hy hytag
    exact (hd.stems x hx y hy (hytag.trans htag.symm)).imp fun _ => And.left
  -- the first instruction of the program that is left makes the first choice
  obtain ⟨before, y, after, hafter, hbefore, hytag⟩ := hsim.exists_append hR rfl htag hn
  have hy : y ∈ items := hsuffix.mem (hafter ▸ List.mem_append_right _ List.mem_cons_self)
  obtain ⟨c, cs', dest', rfl, hgoes'⟩ : ∃ c cs' dest', cs = c :: cs' ∧
      Goes items y.instr after c.target dest' := by
    rcases s' with ⟨file', slots', ⟨⟩, rest'⟩
    cases hafter
    exact h.exists_choice hbefore hytag hend
  obtain ⟨dest, hgoes⟩ : ∃ dest, Goes code x.instr rest c.target dest :=
    hd.exists_goes hx hy (hytag.trans htag.symm) hgoes'
  -- under this choice the code makes a step, which the items match
  have hfits := c.fits_fitted file x.instr
  have hstep : Step id target.machine.stackPointer w (c.fitted file x.instr).interpretation code
      ⟨file, slots, (), x :: rest⟩ (x.events (x.operands id file) ())
      ⟨write id x.instr.defs (c.fitted file x.instr).values file, slots, (), dest⟩ :=
    Choice.step htag hfits (c.target_fitted file x.instr ▸ hgoes)
  obtain ⟨s₂', hrun, hR₂⟩ := hsim.step hR hstep
  have hkept : keptEvents items (x.events (x.operands id file) ())
      = [⟨n, x.operands id file, ()⟩] := by
    unfold Item.events keptEvents
    rw [htag]
    exact List.filter_cons_of_pos (decide_eq_true hn)
  rw [hkept] at hrun
  obtain ⟨hc, h₂⟩ := h.of_event hstems hsuffix hend hrun
  rw [hc] at hrun hR₂ hfits
  exact ⟨c, cs', dest, s₂', rfl, hfits, hgoes, hrun, hR₂, h₂⟩

/-- Where a copy was dropped, the items are already behind it. -/
theorem Simulation.exists_of_dropped (hsim : Simulation target w code items loc R)
    (hd : Descends target code items) (hR : R s s') (hx : x ∈ code) (hrest : s.rest = x :: rest)
    (htag : x.tag = .source n) (hn : n ∉ numbersOf items) (hsuffix : s'.rest <:+ items)
    (h : Execution loc target.machine.stackPointer w items s' cs e) (hend : e.rest = []) :
    ∃ (c : Choice V) (s₂' : State L V Unit), c.Fits id s.file x.instr ∧
      Goes code x.instr rest c.target rest ∧
      R ⟨write id x.instr.defs c.values s.file, s.slots, (), rest⟩ s₂' ∧ s₂'.rest <:+ items ∧
      Execution loc target.machine.stackPointer w items s₂' cs e := by
  rcases s with ⟨file, slots, ⟨⟩, rest₀⟩
  cases hrest
  obtain ⟨⟨src, d⟩, hpair⟩ := Option.ne_none_iff_exists'.1 (hd.dropped x hx n htag hn)
  obtain ⟨text, hcopy⟩ := Instr.eq_copy_of_movePair? hpair
  -- the choice of a copy is no choice: it moves the value, and control falls through
  let c : Choice V := ⟨fun _ => file src, none⟩
  have hfits : c.Fits id file x.instr := by
    intro s d' hpair'
    obtain ⟨rfl, -⟩ := Prod.mk.inj (Option.some.inj (hpair.symm.trans hpair'))
    rfl
  have hgoes : Goes code x.instr rest c.target rest := .fall (by rw [hcopy]; rfl)
  obtain ⟨s₂', hrun, hR₂⟩ := hsim.step hR (Choice.step htag hfits hgoes)
  -- the event of an instruction that is not among the items is not kept
  have hkept : keptEvents items (x.events (x.operands id file) ()) = [] := by
    unfold Item.events keptEvents
    rw [htag]
    exact List.filter_cons_of_neg (by simpa using hn)
  rw [hkept] at hrun
  exact ⟨c, s₂', hfits, hgoes, hR₂, hrun.suffix hsuffix, h.of_silent hend hrun rfl⟩

/-! ## To the last instruction -/

theorem seekItem_ne_nil {l : Label} {dest : List Item} (h : seekItem l code = some dest) :
    dest ≠ [] := by
  induction code with
  | nil => cases h
  | cons x code ih =>
      unfold seekItem at h
      split at h
      · cases h
        exact List.cons_ne_nil _ _
      · exact ih h

theorem Goes.ne_nil {l : Option Label} {dest : List Item} {i : Instr} (h : Goes code i rest l dest)
    (hrest : rest ≠ []) : dest ≠ [] := by
  cases h with
  | fall => exact hrest
  | jump _ hseek => exact seekItem_ne_nil hseek

theorem Goes.eq_rest {l : Option Label} {dest : List Item} {i : Instr} (h : Goes code i rest l dest)
    (htargets : i.targets = []) : dest = rest := by
  obtain rfl := h.eq_none htargets
  cases h
  rfl

theorem Execution.eq_of_nil {sp : Temp} (h : Execution loc sp w items s' cs e)
    (hrest : s'.rest = []) : e = s' := by
  cases h with
  | refl => rfl
  | source => cases hrest
  | inserted => cases hrest

theorem Run.eq_of_nil {M : Type} {I : Interpretation V M} {sp : Temp} {s s₁ : State L V M}
    {tr : List (Event V M)} (h : Run loc sp w I items s tr s₁) (hrest : s.rest = []) : s₁ = s := by
  cases h with
  | refl => rfl
  | step hstep => cases hstep; cases hrest

/-- Nothing follows the instruction of the last item, as it occurs only once. -/
theorem eq_nil_of_last (hsuffix : x :: rest <:+ items) (htag : x.tag = .source n)
    (hend : items.getLast?.map Item.tag = some (.source n)) (hnodup : (numbersOf items).Nodup) :
    rest = [] := by
  obtain ⟨front, hfront⟩ := hsuffix
  obtain ⟨z, hz, hztag⟩ := Option.map_eq_some_iff.1 hend
  rw [← hfront] at hz hnodup
  cases hrest : rest.getLast? with
  | none => exact List.getLast?_eq_none_iff.1 hrest
  | some z' =>
      have hzrest : z ∈ rest := by
        rw [List.getLast?_append, List.getLast?_cons, hrest] at hz
        cases hz
        exact List.mem_of_getLast? hrest
      have hnumbers : numbersOf (front ++ x :: rest) = numbersOf front ++ n :: numbersOf rest := by
        unfold numbersOf Item.number?
        rw [List.filterMap_append, List.filterMap_cons, htag]
      rw [hnumbers] at hnodup
      have hnot := (List.nodup_cons.1 (List.nodup_append.1 hnodup).2.1).1
      exact absurd (mem_numbersOf.2 ⟨z, hzrest, hztag⟩) hnot

/-- Behind the last instruction, what it used is still there if it defines nothing. -/
theorem Run.operands_eq {I : Interpretation V Unit} {sp : Temp} {s₂ : State L V Unit} {vs : List V}
    (h : Run loc sp w I items s' [⟨n, vs, ()⟩] s₂) (hsuffix : s'.rest <:+ items)
    (hend : items.getLast?.map Item.tag = some (.source n)) (hnodup : (numbersOf items).Nodup)
    (hplain : ∀ y ∈ items, y.tag = .source n → y.instr.defs = [] ∧ y.instr.targets = []) :
    ∃ y ∈ items, y.tag = .source n ∧ y.operands loc s₂.file = vs := by
  obtain ⟨s₃, s₄, hbefore, hstep, hafter⟩ := h.exists_step rfl
  have hsuffix₃ := hbefore.suffix hsuffix
  generalize hev : ([⟨n, vs, ()⟩] : List (Event V Unit)) = evs at hstep
  cases hstep with
  | @act file slots slots' memory y rest dest o hacts hgoes =>
      have hy : y ∈ items := hsuffix₃.mem List.mem_cons_self
      obtain ⟨htag, hoperands⟩ := Item.of_events_eq hev.symm
      obtain ⟨hdefs, htargets⟩ := hplain y hy htag
      obtain rfl := eq_nil_of_last hsuffix₃ htag hend hnodup
      have hdest : dest = [] := hgoes.eq_rest htargets
      have hsame := hafter.eq_of_nil hdest
      subst hsame
      refine ⟨y, hy, htag, ?_⟩
      rw [← hoperands, hdefs]
      rfl

/-- An execution of the items to their end comes from one of the code up to its last instruction,
which is carried out with the values that are there at the end. -/
theorem Simulation.exists_execution {s : State Temp V Unit} {s' : State L V Unit}
    {cs : List (Choice V)} (hsim : Simulation target w code items loc R)
    (hd : Descends target code items) {last : Item} (hlast : code.getLast? = some last)
    (hdefs : last.instr.defs = []) (htargets : last.instr.targets = [])
    (hend' : items.getLast?.map Item.tag = some last.tag) (hnodup : (numbersOf items).Nodup)
    (hR : R s s') (hne : s.rest ≠ []) (hsuffix : s.rest <:+ code) (hsuffix' : s'.rest <:+ items)
    (h : Execution loc target.machine.stackPointer w items s' cs e) (hend : e.rest = []) :
    ∃ cs₀ s₁, Execution id target.machine.stackPointer w code s cs₀ s₁ ∧ s₁.rest = [last] ∧
      ∃ y ∈ items, y.tag = last.tag ∧ y.operands loc e.file = last.operands id s₁.file := by
  obtain ⟨x, rest, hrest⟩ := List.exists_cons_of_ne_nil hne
  have hx : x ∈ code := hsuffix.mem (hrest ▸ List.mem_cons_self)
  obtain ⟨n, htag⟩ := hd.source x hx
  have hlast_of_nil : rest = [] → x = last := by
    rintro rfl
    obtain ⟨front, hfront⟩ := hsuffix
    rw [← hfront, hrest, List.getLast?_append] at hlast
    exact Option.some.inj hlast
  by_cases hn : n ∈ numbersOf items
  · obtain ⟨c, cs', dest, s₂', hcs, hfits, hgoes, hrun, hR₂, h₂⟩ :=
      hsim.exists_choice hd hR hx hrest htag hn hsuffix' h hend
    by_cases hnil : rest = []
    · -- the last instruction
      obtain rfl := hlast_of_nil hnil
      have hsame := h₂.eq_of_nil (hsim.finish hR₂ (hnil ▸ hgoes.eq_rest htargets))
      subst hsame
      refine ⟨[], s, .refl s, by rw [hrest, hnil], ?_⟩
      have hplain : ∀ y ∈ items, y.tag = .source n → y.instr.defs = [] ∧ y.instr.targets = [] := by
        intro y hy hytag
        obtain ⟨f, hinstr, -⟩ := hd.stems x hx y hy (hytag.trans htag.symm)
        rw [hinstr, Instr.defs_rename, Instr.targets_rename, hdefs]
        exact ⟨rfl, htargets⟩
      rw [htag] at hend' ⊢
      exact hrun.operands_eq hsuffix' hend' hnodup hplain
    · obtain ⟨cs₀, s₁, h₁, hend₁, hoperands⟩ := Simulation.exists_execution hsim hd hlast hdefs
        htargets hend' hnodup hR₂ (hgoes.ne_nil hnil) (hgoes.suffix (hrest ▸ hsuffix))
        (hrun.suffix hsuffix') h₂ hend
      refine ⟨c :: cs₀, s₁, ?_, hend₁, hoperands⟩
      rcases s with ⟨file, slots, ⟨⟩, rest₀⟩
      cases hrest
      exact .source htag hfits hgoes h₁
  · obtain ⟨c, s₂', hfits, hgoes, hR₂, hsuffix₂, h₂⟩ :=
      hsim.exists_of_dropped hd hR hx hrest htag hn hsuffix' h hend
    have hnil : rest ≠ [] := by
      intro hnil
      -- the last instruction defines nothing, so it is no copy
      obtain ⟨e, he⟩ := Option.ne_none_iff_exists'.1 (hd.dropped x hx n htag hn)
      obtain ⟨text, hcopy⟩ := Instr.eq_copy_of_movePair? he
      rw [← hlast_of_nil hnil, hcopy] at hdefs
      cases hdefs
    have hsuffix₁ : rest <:+ code := (List.suffix_cons x rest).trans (hrest ▸ hsuffix)
    obtain ⟨cs₀, s₁, h₁, hend₁, hoperands⟩ := Simulation.exists_execution hsim hd hlast hdefs
      htargets hend' hnodup hR₂ hnil hsuffix₁ hsuffix₂ h₂ hend
    refine ⟨c :: cs₀, s₁, ?_, hend₁, hoperands⟩
    rcases s with ⟨file, slots, ⟨⟩, rest₀⟩
    cases hrest
    exact .source htag hfits hgoes h₁
termination_by (cs.length, s.rest.length)
decreasing_by
  · rw [hcs]
    exact .left _ _ (Nat.lt_succ_self _)
  · refine .right _ ?_
    rw [hrest]
    exact Nat.lt_succ_self _

end Descent

/-! ## Allocated code -/

section Allocated

open Allocation

variable {m : Machine} {options : AllocOptions} {code : List Instr} {a : Allocation}
  {items : List Item} {target : Target}

theorem mem_itemsOf {x : Item} {k : Nat} : x ∈ itemsOf code k ↔
    ∃ n i, x = ⟨.source n, i⟩ ∧ k ≤ n ∧ code[n - k]? = some i := by
  unfold itemsOf
  rw [List.mem_map]
  constructor
  · rintro ⟨⟨i, n⟩, he, rfl⟩
    obtain ⟨hle, hi⟩ := List.mem_zipIdx_iff_le_and_getElem?_sub.1 he
    exact ⟨n, i, rfl, hle, hi⟩
  · rintro ⟨n, i, rfl, hle, hi⟩
    exact ⟨(i, n), List.mem_zipIdx_iff_le_and_getElem?_sub.2 ⟨hle, hi⟩, rfl⟩

theorem getLast?_itemsOf {i : Instr} (h : code.getLast? = some i) (n : Nat) :
    ∃ k, (itemsOf code n).getLast? = some ⟨.source k, i⟩ := by
  obtain ⟨front, rfl⟩ := List.getLast?_eq_some_iff.1 h
  exact ⟨n + front.length, by simp [itemsOf, List.zipIdx_append]⟩

/-- Allocated items descend from code in which every target is a label. -/
theorem Stands.descends (h : Stands target options code a items)
    (hspilled : ∀ t ∈ a.spilled, target.machine.isRegister t = false)
    (hlabels : ∀ i ∈ code, ∀ l ∈ i.targets, l ∈ labelsOf code) :
    Descends target (itemsOf code 0) items where
  source x hx := by
    obtain ⟨n, i, rfl, -⟩ := mem_itemsOf.1 hx
    exact ⟨n, rfl⟩
  stems x hx y hy htag := by
    obtain ⟨n, i, rfl, -, hi⟩ := mem_itemsOf.1 hx
    obtain ⟨j, f, hj, hinstr, hf⟩ := h.stems.source y hy n htag
    cases hi.symm.trans hj
    refine ⟨f, hinstr, fun t hreg => hf t fun hmem => ?_⟩
    exact absurd hreg (Bool.eq_false_iff.1 (hspilled t hmem))
  resolves x hx l hl := by
    obtain ⟨n, i, rfl, -, hi⟩ := mem_itemsOf.1 hx
    have hlabel := hlabels i (List.mem_of_getElem? hi) l hl
    have hseek := seek_instrsOf l (itemsOf code 0)
    rw [instrsOf_itemsOf, seek_eq] at hseek
    obtain ⟨k, hk⟩ := Option.isSome_iff_exists.1 (findIdx?_isSome.2 hlabel)
    rw [hk, Option.map_some] at hseek
    obtain ⟨dest, hdest, -⟩ := Option.map_eq_some_iff.1 hseek.symm
    exact ⟨dest, hdest⟩
  dropped x hx n htag hn := by
    obtain ⟨n', i, rfl, -, hi⟩ := mem_itemsOf.1 hx
    cases htag
    exact (h.dropped n i hi hn).2

theorem labels_of_colorCode {avoid : TempSet} {result : Interference × ColorResult}
    (h : colorCode m options avoid code = .ok result) :
    ∀ i ∈ code, ∀ l ∈ i.targets, l ∈ labelsOf code :=
  (build_isOk_iff.1 (exists_of_colorCode h).1).2

/-- Allocation makes items of code.  An execution of these to their end comes from one of the code
up to its last instruction, where the registers that this one uses hold what they hold at the end of
the items, if it defines nothing and does not jump. -/
theorem exists_execution_of_allocate {frame : Frame} {n n' : Namer} (hw : 0 < frame.wordSize)
    (hfirst : Temp.firstVirtual ≤ n.nextTemp) (htemps : ∀ t, Mentions code t → t.id < n.nextTemp)
    (hreserved : ∀ i ∈ code, ∀ d ∈ i.defs, m.isReserved d = false)
    (hjumps : ∀ i ∈ code, i.targets ≠ [] → i.defs = [])
    (hok : frame.allocate m options code n = (.ok a, n'))
    (hwords : a.spilled.length * frame.wordSize < 2 ^ 63) {last : Instr}
    (hlast : code.getLast? = some last) (hdefs : last.defs = []) (htargets : last.targets = []) :
    ∃ items, Stands ⟨m, frame.sizeSymbol⟩ options code a items ∧
      ∀ (V : Type) (w : Words V) (s e : State String V Unit) (cs : List (Choice V)),
        s.rest = items → Execution a.coloring.lookup m.stackPointer w items s cs e → e.rest = [] →
        ∃ file : Temp → V,
          (∀ t, m.isRegister t = true → file t = s.file (a.coloring.lookup t)) ∧
          ∃ cs₀ s₁, Execution id m.stackPointer w (itemsOf code 0)
              ⟨file, s.slots, (), itemsOf code 0⟩ cs₀ s₁ ∧ instrsOf s₁.rest = [last] ∧
            ∀ t ∈ last.uses, m.isRegister t = true → e.file (a.coloring.lookup t) = s₁.file t := by
  have hallocated := allocate_simulates hw hfirst htemps hreserved hjumps hok hwords
  have hok : (allocateWithin m options 0 ((unallocated m code).size + 1)
      { instrs := code, frame, namer := n }).1 = .ok a := congrArg Prod.fst hok
  have hlabels : ∀ i ∈ code, ∀ l ∈ i.targets, l ∈ labelsOf code := by
    have hturn := turn m options 0 (unallocated m code).size { instrs := code, frame, namer := n }
    generalize allocateWithin m options 0 ((unallocated m code).size + 1) _ = outcome at hturn hok
    cases hturn with
    | uncolored | stop => cases hok
    | last hcolor | next hcolor => exact labels_of_colorCode hcolor
  obtain ⟨items, hstands, hsimulates, hspilled⟩ := hallocated
  refine ⟨items, hstands, ?_⟩
  intro V w s e cs hs h hend
  have hdescends := hstands.descends hspilled hlabels
  obtain ⟨k, hitem⟩ := getLast?_itemsOf hlast 0
  obtain ⟨R, hsim⟩ := hsimulates.simulation V Unit w
  obtain ⟨file, hfile, hR⟩ := hsim.start s hs
  have hne : itemsOf code 0 ≠ [] := fun hnil => by
    rw [hnil] at hitem
    cases hitem
  obtain ⟨cs₀, s₁, h₁, hrest, y, hy, htag, hoperands⟩ := hsim.exists_execution hdescends hitem hdefs
    htargets (hsimulates.last _ hitem hdefs) (hstands.order.nodup List.nodup_range) hR hne
    (List.suffix_refl _) (hs ▸ List.suffix_refl _) h hend
  refine ⟨file, hfile, cs₀, s₁, h₁, by rw [hrest]; rfl, fun t ht hreg => ?_⟩
  -- the last instruction uses registers by their own names
  obtain ⟨f, hinstr, hf⟩ := hdescends.stems _ (List.mem_of_getLast? hitem) y hy htag
  unfold Item.operands at hoperands
  rw [hinstr, Instr.uses_rename, List.map_map] at hoperands
  have heq := List.map_inj_left.1 hoperands t ht
  rwa [Function.comp_apply, hf t hreg] at heq

end Allocated

end TreeCompiler
