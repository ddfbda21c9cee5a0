import TreeCompiler.Machine.TwoRegisters
import TreeCompiler.Proofs.SwappedTemps

/-!
# Meaning — spilling keeps whatever a program may mean

Nothing is assumed here of what the instructions of a program do: each is a relation between the
values that it uses, the memory, and its outcomes (`Meaning`), be it a copy or a call.  Only the
instructions that spilling inserts are known; they access slots from a fixed stack pointer.  Spilled
code then goes where the code goes, step by step, with all values of spilled temps in their slots
(`Follows.step`), whether they are live or not.
-/

namespace TreeCompiler

variable {V M : Type}

/-- What the instructions of a program may do: the outcomes of each, by its number, given the values
that it uses and the memory. -/
def Meaning (V M : Type) : Type := Nat → List V → M → Outcome V M → Prop

namespace Meaning

/-! ## Steps and runs -/

/-- One step: an instruction of the program does what it may do, and an inserted one accesses the
slots behind the stack pointer `base`. -/
inductive Step (A : Meaning V M) (base : V) (w : Words V) (code : List Item) :
    State Temp V M → List (Event V M) → State Temp V M → Prop
  | source {x : Item} {n : Nat} {file : Temp → V} {slots : Int → V} {memory : M}
      {rest dest : List Item} {o : Outcome V M} (htag : x.tag = .source n)
      (hmeans : A n (x.instr.uses.map file) memory o)
      (hgoes : Goes code x.instr rest o.target dest) :
      Step A base w code ⟨file, slots, memory, x :: rest⟩ [⟨n, x.instr.uses.map file, memory⟩]
        ⟨write id x.instr.defs o.values file, slots, o.memory, dest⟩
  | inserted {x : Item} {what : Insertion} {file : Temp → V} {slots slots' : Int → V} {memory : M}
      {rest : List Item} {v : V} (htag : x.tag = .inserted what)
      (hacts : what.Acts w base slots (x.instr.uses.map file) v slots')
      (hfall : x.instr.fallsThrough = true) :
      Step A base w code ⟨file, slots, memory, x :: rest⟩ []
        ⟨write id x.instr.defs (fun _ => v) file, slots', memory, rest⟩

/-- Some steps, with the trace that they leave. -/
inductive Run (A : Meaning V M) (base : V) (w : Words V) (code : List Item) :
    State Temp V M → List (Event V M) → State Temp V M → Prop
  | refl (s : State Temp V M) : Run A base w code s [] s
  | step {s₁ s₂ s₃ : State Temp V M} {es tr : List (Event V M)} (h : A.Step base w code s₁ es s₂)
      (hrun : Run A base w code s₂ tr s₃) : Run A base w code s₁ (es ++ tr) s₃

section Lemmas

variable {A : Meaning V M} {base : V} {w : Words V} {code : List Item}
  {s s₁ s₂ s₃ : State Temp V M} {es tr tr' : List (Event V M)}

theorem Run.trans (h : A.Run base w code s₁ tr s₂) (h' : A.Run base w code s₂ tr' s₃) :
    A.Run base w code s₁ (tr ++ tr') s₃ := by
  induction h with
  | refl s => exact h'
  | step hstep _ ih =>
      rw [List.append_assoc]
      exact .step hstep (ih h')

theorem Step.run (h : A.Step base w code s es s₂) : A.Run base w code s es s₂ := by
  have hrun := Run.step h (.refl s₂)
  rwa [List.append_nil] at hrun

/-- A run without a trace is one of inserted instructions, which do the same under any meaning. -/
theorem run_of_silent {target : Target} {I : Interpretation V M} (A : Meaning V M)
    (hrun : Runs target w I code s tr s₂) (htrace : tr = [])
    (hdefs : ∀ x ∈ s.rest, ¬ x.IsSource → target.machine.stackPointer ∉ x.instr.defs)
    (hbase : s.file target.machine.stackPointer = base) : A.Run base w code s [] s₂ := by
  -- an instruction of the program would leave an event, so each step is one of inserted code
  induction hrun with
  | refl s => exact .refl s
  | @step s₁ s₂ s₃ es tr hstep _ ih =>
      rcases List.append_eq_nil_iff.1 htrace with ⟨hes, htr⟩
      cases hstep with
      | @act file slots slots' memory x rest dest o hacts hgoes =>
          cases hacts with
          | label n text l values => cases hes
          | copy n text d s v => cases hes
          | oper n i vs hlabel hcopy => cases hes
          | inserted what i vs v slots' h =>
              cases hgoes with
              | fall hfall =>
                  -- the stack pointer is where it was, for the instructions that follow
                  have hkept : target.machine.stackPointer ∉ i.defs := by
                    refine hdefs _ List.mem_cons_self ?_
                    rintro ⟨n, htag⟩
                    cases htag
                  have hsame :
                      write id i.defs (fun _ => v) file target.machine.stackPointer = base :=
                    (write_of_forall_ne fun d hd heq =>
                      hkept ((show d = target.machine.stackPointer from heq) ▸ hd)).trans hbase
                  exact .step (.inserted rfl (hbase ▸ h) hfall)
                    (ih htr (fun x hx => hdefs x (List.mem_cons_of_mem _ hx)) hsame)

end Lemmas

end Meaning

/-! ## Code whose temps can be moved to slots -/

/-- Code as spilling expects it. -/
structure Rewritable (target : Target) (k : Nat) (code : List Item) : Prop where
  source : ∀ x ∈ code, x.IsSource
  lt : ∀ x ∈ code, ∀ t ∈ x.instr.defs ++ x.instr.uses, t.id < k
  jumps : ∀ x ∈ code, x.instr.targets ≠ [] → x.instr.defs = []
  stackPointer : ∀ x ∈ code, target.machine.stackPointer ∉ x.instr.defs
  registers : Temp.firstVirtual ≤ k

section Follows

variable {target : Target} {k : Nat} {used : List Int} {code : List Item}
  {places : List (Temp × Int)}
  {base : V} {w : Words V} {A : Meaning V M} {s s' s₂ : State Temp V M} {x : Item}

theorem Rewritable.sp_lt (h : Rewritable target k code) : target.machine.stackPointer.id < k :=
  Nat.lt_of_lt_of_le (Machine.lt_firstVirtual target.machine.isRegister_stackPointer) h.registers

/-- What spilling inserts does not write to the stack pointer. -/
theorem Rewritable.sp_not_mem_spillItems (h : Rewritable target k code)
    (places : List (Temp × Int)) {rest : List Item} (hrest : ∀ x ∈ rest, x.IsSource) {k' : Nat}
    (hk : k ≤ k') :
    ∀ y ∈ (spillItems target places rest k').items, ¬ y.IsSource →
      target.machine.stackPointer ∉ y.instr.defs := by
  intro y hy hinserted hdef
  rcases mem_spillItems hy with ⟨x, hx, k₁, hk₁, _, rfl | ⟨z, rfl, hz, _⟩⟩
  · exact hinserted (hrest x hx)
  · have hle := (hz _ (.inl rfl)).1
    rw [← mem_defs_item hdef] at hle
    exact Nat.not_lt_of_le (Nat.le_trans hk (Nat.le_trans hk₁ hle)) h.sp_lt

/-- An instruction of the program does not write to the stack pointer either. -/
theorem Rewritable.write_sp (h : Rewritable target k code) (hx : x ∈ code) (values : Nat → V)
    (file : Temp → V) : write id x.instr.defs values file target.machine.stackPointer
      = file target.machine.stackPointer :=
  write_of_forall_ne fun d hd heq =>
    h.stackPointer x hx ((show d = target.machine.stackPointer from heq) ▸ hd)

/-! ## In step -/

/-- Each slot has the value of its temp, and each other temp its own. -/
structure SameValues (places : List (Temp × Int)) (k : Nat) (s s' : State Temp V M) : Prop where
  slots : ∀ e ∈ places, s'.slots e.2 = s.file e.1
  temps : ∀ t : Temp, t.id < k → t ∉ places.map Prod.fst → s'.file t = s.file t
  memory : s'.memory = s.memory

/-- Both runs are before the same instruction of the program or behind the last one, with the same
values. -/
structure Agree (places : List (Temp × Int)) (k : Nat) (back : Temp → Temp)
    (s s' : State Temp V M) : Prop extends SameValues places k s s' where
  rest : erase back s'.rest = s.rest
  finish : s.rest = [] → s'.rest = []

/-- A run of spilled code is where that of the code is. -/
structure Follows (target : Target) (base : V) (code : List Item) (places : List (Temp × Int))
    (k : Nat) (s s' : State Temp V M) : Prop extends SameValues places k s s' where
  base : s.file target.machine.stackPointer = base
  rest : ∃ front, code = front ++ s.rest ∧
    s'.rest = (spillItems target places s.rest (spillItems target places front k).next).items

theorem Follows.agree (h : Follows target base code places k s s') (hr : Rewritable target k code)
    (hnodup : (places.map Prod.fst).Nodup) :
    Agree places k (unswapped (swapsOf target places code k)) s s' := by
  rcases h.rest with ⟨front, hcode, hrest⟩
  have hmem : ∀ x ∈ s.rest, x ∈ code := fun x hx => hcode ▸ List.mem_append_right front hx
  refine ⟨h.toSameValues, ?_, fun hend => ?_⟩
  · rw [hrest]
    refine erase_spillItems hnodup (fun x hx => hr.source x (hmem x hx)) nodup_swapsOf ?_ ?_
    · rw [hcode, swapsOf_append]
      exact List.subset_append_right _ _
    · intro x hx t ht e he heq
      have hle := (mem_swapsOf he).2.1
      rw [heq] at hle
      exact Nat.not_lt_of_le hle (hr.lt x (hmem x hx) t ht)
  · rw [hrest, hend]
    rfl

/-- Behind an instruction and its stores, the values are the same again. -/
theorem Follows.after_stores {file file' file₁ file₃ : Temp → V} {slots slots' slots₃ : Int → V}
    {memory : M} {rest rest' dest : List Item} {front : List Item} {k' : Nat} {o : Outcome V M}
    (h : Follows target base code places k ⟨file, slots, memory, x :: rest⟩
      ⟨file', slots', memory, rest'⟩)
    (hr : Rewritable target k code) (hp : Placed target k used places) (hx : x ∈ code) (hk : k ≤ k')
    (hdest : code = front ++ dest) (hfile₁ : ∀ t : Temp, t.id < k → file₁ t = file' t)
    (hfile₃ : ∀ t : Temp, t.id < k →
      file₃ t = write (swapped (swaps x.instr places k')) x.instr.defs o.values file₁ t)
    (hstored : ∀ e ∈ stored x.instr (swaps x.instr places k'), slots₃ e.offset =
      write (swapped (swaps x.instr places k')) x.instr.defs o.values file₁ e.new)
    (hslots₃ : ∀ offset, (∀ e ∈ stored x.instr (swaps x.instr places k'), offset ≠ e.offset) →
      slots₃ offset = slots' offset) :
    Follows target base code places k ⟨write id x.instr.defs o.values file, slots, o.memory, dest⟩
      ⟨file₃, slots₃, o.memory,
        (spillItems target places dest (spillItems target places front k).next).items⟩ := by
  have hlt : ∀ d ∈ x.instr.defs, d.id < k := fun d hd =>
    hr.lt x hx d (List.mem_append_left _ hd)
  refine ⟨⟨?_, ?_, rfl⟩, ?_, front, hdest, rfl⟩
  · intro p hplace
    dsimp only
    -- the stores bring new values to the slots of what was defined, and leave all others alone
    by_cases hdef : p.1 ∈ x.instr.defs
    · exact slot_stored hp.nodup hlt hk hplace hdef hstored
    · have hold : slots' p.2 = file p.1 := h.slots p hplace
      rw [hslots₃ _ (hp.not_stored hplace hdef k'), hold]
      exact (write_of_forall_ne fun d hd heq => hdef ((show d = p.1 from heq) ▸ hd)).symm
  · intro t ht hkept
    have hold : file' t = file t := h.temps t ht hkept
    exact (hfile₃ t ht).trans
      (write_kept hp.nodup hlt hk ht hkept (.inr ((hfile₁ t ht).trans hold)))
  · exact (hr.write_sp hx o.values file).trans h.base

/-- The instruction itself does with the fresh temps what it may do with the spilled ones. -/
theorem step_coreItem {n : Nat} {file file₁ : Temp → V} {slots : Int → V} {memory : M}
    {o : Outcome V M} {k' : Nat} {code' rest dest : List Item} (htag : x.tag = .source n)
    (hmeans : A n (x.instr.uses.map file) memory o)
    (hoperands : ∀ u ∈ x.instr.uses, file₁ (swapped (swaps x.instr places k') u) = file u)
    (hgoes : Goes code' (coreItem places x k').instr rest o.target dest) :
    A.Step base w code' ⟨file₁, slots, memory, coreItem places x k' :: rest⟩
      [⟨n, x.instr.uses.map file, memory⟩]
      ⟨write (swapped (swaps x.instr places k')) x.instr.defs o.values file₁, slots, o.memory,
        dest⟩ := by
  have huses : (coreItem places x k').instr.uses.map file₁ = x.instr.uses.map file :=
    operands_coreItem hoperands
  rw [← write_coreItem, ← huses]
  exact .source htag (huses.symm ▸ hmeans) hgoes

/-- The loads and the instruction itself. -/
theorem Follows.run_core {n k' : Nat} {file file' : Temp → V} {slots slots' : Int → V}
    {memory : M} {rest rest' behind : List Item} {o : Outcome V M}
    (h : Follows target base code places k ⟨file, slots, memory, x :: rest⟩
      ⟨file', slots', memory, rest'⟩)
    (hr : Rewritable target k code) (hp : Placed target k used places) (hx : x ∈ code) (hk : k ≤ k')
    (htag : x.tag = .source n) (hmeans : A n (x.instr.uses.map file) memory o)
    (hfresh : ∀ y ∈ loadItems target places x k' ++ coreItem places x k' :: behind,
      ¬ y.IsSource → target.machine.stackPointer ∉ y.instr.defs) (w : Words V) (code' : List Item) :
    ∃ file₁ : Temp → V, (∀ t : Temp, t.id < k → file₁ t = file' t) ∧
      ∀ dest, Goes code' (coreItem places x k').instr behind o.target dest →
        A.Run base w code'
          ⟨file', slots', memory, loadItems target places x k' ++ coreItem places x k' :: behind⟩
          [⟨n, x.instr.uses.map file, memory⟩]
          ⟨write (swapped (swaps x.instr places k')) x.instr.defs o.values file₁, slots', o.memory,
            dest⟩ := by
  have hlt : ∀ u ∈ x.instr.uses, u.id < k := fun u hu =>
    hr.lt x hx u (List.mem_append_right _ hu)
  have htemps : ∀ u ∈ x.instr.uses, u ∉ places.map Prod.fst → file' u = file u := fun u hu =>
    h.temps u (hlt u hu)
  have hspilled : ∀ e ∈ places, e.1 ∈ x.instr.uses → slots' e.2 = file e.1 := fun e he _ =>
    h.slots e he
  have hbase : file' target.machine.stackPointer = base :=
    (h.temps _ hr.sp_lt hp.sp_not_mem).trans h.base
  -- any outcomes of the other instructions will do for a run of inserted ones
  let I : Interpretation V M := fun _ _ memory => ⟨fun _ => base, memory, none⟩
  rcases runs_loadItems hp.nodup hr.sp_lt hk hlt htemps hspilled memory code'
    (coreItem places x k' :: behind) (w := w) (I := I) with ⟨file₁, hloads, hoperands, hfile₁⟩
  have hloads := Meaning.run_of_silent A hloads rfl hfresh hbase
  exact ⟨file₁, hfile₁, fun dest hgoes =>
    hloads.trans (step_coreItem htag hmeans hoperands hgoes).run⟩

/-- Each step of the code is matched by steps of the spilled code. -/
theorem Follows.step {es : List (Event V M)} (h : Follows target base code places k s s')
    (hr : Rewritable target k code) (hp : Placed target k used places)
    (hstep : A.Step base w code s es s₂) :
    ∃ s₂', A.Run base w (spillItems target places code k).items s' es s₂' ∧
      Follows target base code places k s₂ s₂' := by
  rcases h.rest with ⟨front, hcode, hrest⟩
  cases hstep with
  | @inserted x what file slots slots' memory rest v htag hacts hfall =>
      -- the code has instructions of the program only
      rcases hr.source x (hcode ▸ List.mem_append_right front List.mem_cons_self) with ⟨n, htag'⟩
      cases htag.symm.trans htag'
  | @source x n file slots memory rest dest o htag hmeans hgoes =>
      rcases s' with ⟨file', slots', memory', rest'⟩
      have hmemory : memory' = memory := h.memory
      subst hmemory
      have hk := le_next_spillItems target places front k
      have hx : x ∈ code := hcode ▸ List.mem_append_right front List.mem_cons_self
      have hsource : ∀ y ∈ x :: rest, y.IsSource := fun y hy =>
        hr.source y (hcode ▸ List.mem_append_right front hy)
      have hfresh := hr.sp_not_mem_spillItems places hsource hk
      have hnext := next_spillItems_append_singleton target places front x k
      generalize (spillItems target places front k).next = k' at hk hrest hfresh hnext
      have hrest : rest' = _ := hrest.trans items_spillItems_cons
      rw [items_spillItems_cons] at hfresh
      subst hrest
      rcases h.run_core hr hp hx hk htag hmeans hfresh w
        (spillItems target places code k).items with ⟨file₁, hfile₁, hcore⟩
      generalize hl : o.target = l at hgoes hcore
      cases hgoes with
      | fall hfall =>
          have hlt : ∀ d ∈ x.instr.defs, d.id < k := fun d hd =>
            hr.lt x hx d (List.mem_append_left _ hd)
          have hsp := (hfile₁ _ hr.sp_lt).trans (h.temps _ hr.sp_lt hp.sp_not_mem)
          have hbase : write (swapped (swaps x.instr places k')) x.instr.defs o.values file₁
              target.machine.stackPointer = base :=
            (write_kept hp.nodup hlt hk hr.sp_lt hp.sp_not_mem (.inr hsp)).trans
              ((hr.write_sp hx o.values file).trans h.base)
          let I : Interpretation V M := fun _ _ memory => ⟨fun _ => base, memory, none⟩
          rcases runs_storeItems hp.nodup_slots hr.sp_lt hk (x := x) (w := w) (I := I)
            (write (swapped (swaps x.instr places k')) x.instr.defs o.values file₁) slots' o.memory
            (spillItems target places code k).items
            (spillItems target places rest (spillItem target places x k').next).items with
            ⟨file₃, slots₃, hstores, hfile₃, hstored, hslots₃⟩
          have hstores := Meaning.run_of_silent A hstores rfl
            (fun y hy => hfresh y (List.mem_append_right _ (List.mem_cons_of_mem _ hy))) hbase
          have hafter := h.after_stores hr hp hx hk (hcode.trans (List.append_cons front x rest))
            hfile₁ hfile₃ hstored hslots₃
          rw [hnext] at hafter
          refine ⟨_, (hcore _ (.fall ?_)).trans hstores, hafter⟩
          rwa [fallsThrough_coreItem]
      | @jump l dest hmem hseek =>
          -- an instruction that may jump defines nothing, so there is nothing to store
          have hdefs : x.instr.defs = [] := hr.jumps x hx (List.ne_nil_of_mem hmem)
          have hstored := stored_eq_nil hdefs (swaps x.instr places k')
          rcases seekItem_spillItems hseek k with ⟨front', hcode', hseek'⟩
          refine ⟨_, hcore _ (.jump ?_ hseek'), h.after_stores hr hp hx hk hcode' hfile₁
            (fun t _ => rfl) (fun e he => ?_) fun _ _ => rfl⟩
          · rwa [targets_coreItem]
          · rw [hstored] at he
            cases he

/-- Code and spilled code start together. -/
theorem Follows.start (hsame : SameValues places k s s') (hcode : s.rest = code)
    (hitems : s'.rest = (spillItems target places code k).items) :
    Follows target (s.file target.machine.stackPointer) code places k s s' :=
  ⟨hsame, rfl, [], hcode.symm, by rw [hitems, hcode]; rfl⟩

end Follows

/-! ## The result of spilling -/

/-- Each step of the code is matched by steps of the items that leave the same trace, from states
that agree to states that agree. -/
structure Meaning.Simulates (A : Meaning V M) (base : V) (w : Words V) (code items : List Item)
    (agree R : State Temp V M → State Temp V M → Prop) : Prop where
  agree : ∀ {s s' : State Temp V M}, R s s' → agree s s'
  step : ∀ {s s' s₂ : State Temp V M} {es : List (Event V M)}, R s s' →
    A.Step base w code s es s₂ → ∃ s₂', A.Run base w items s' es s₂' ∧ R s₂ s₂'

/-- Each run of the code is matched by one of the items, to states that agree. -/
theorem Meaning.Simulates.run {A : Meaning V M} {base : V} {w : Words V} {code items : List Item}
    {agree R : State Temp V M → State Temp V M → Prop} {s s' s₂ : State Temp V M}
    {tr : List (Event V M)} (h : A.Simulates base w code items agree R) (hR : R s s')
    (hrun : A.Run base w code s tr s₂) :
    ∃ s₂', A.Run base w items s' tr s₂' ∧ R s₂ s₂' := by
  induction hrun generalizing s' with
  | refl s => exact ⟨s', .refl s', hR⟩
  | step hstep _ ih =>
      rcases h.step hR hstep with ⟨s₁', hfirst, hR₁⟩
      rcases ih hR₁ with ⟨s₂', hrest, hR₂⟩
      exact ⟨s₂', hfirst.trans hrest, hR₂⟩

/-- What code is when some temps were moved to their slots.  `back` gives the temps that the fresh
ones stand for. -/
structure Rewritten (target : Target) (places : List (Temp × Int)) (k : Nat)
    (code items : List Item) (fresh : List Temp) (back : Temp → Temp) : Prop where
  gone : ∀ e ∈ places, ¬ Mentions (instrsOf items) e.1
  inserted : ∀ x ∈ items, ∀ what, x.tag = .inserted what →
    ∃ a b, x.instr = (what.operation a b).instr target
  old : ∀ t ∉ fresh, back t = t
  new : ∀ t ∈ fresh, back t ∈ places.map Prod.fst
  erased : erase back items = code
  simulated : ∀ {V M : Type} (w : Words V) (A : Meaning V M) {s s' : State Temp V M},
    s.rest = code → s'.rest = items → SameValues places k s s' →
    ∃ R, A.Simulates (s.file target.machine.stackPointer) w code items (Agree places k back) R ∧
      R s s'
  runs : ∀ {V M : Type} (w : Words V) (A : Meaning V M) {s s' s₂ : State Temp V M}
    {tr : List (Event V M)}, s.rest = code → s'.rest = items → SameValues places k s s' →
    A.Run (s.file target.machine.stackPointer) w code s tr s₂ →
    ∃ s₂', A.Run (s.file target.machine.stackPointer) w items s' tr s₂' ∧ Agree places k back s₂ s₂'

section Rewritten

variable {target : Target} {k : Nat} {used : List Int} {code : List Item}
  {places : List (Temp × Int)}

/-- Spilled code simulates the code. -/
theorem simulates_spillItems (hr : Rewritable target k code) (hp : Placed target k used places)
    (base : V) (w : Words V) (A : Meaning V M) :
    A.Simulates base w code (spillItems target places code k).items
      (Agree places k (unswapped (swapsOf target places code k)))
      (Follows target base code places k) :=
  ⟨fun h => h.agree hr hp.nodup, fun h hstep => h.step hr hp hstep⟩

theorem rewritten_spillItems (hr : Rewritable target k code) (hp : Placed target k used places) :
    Rewritten target places k code (spillItems target places code k).items
      (spillItems target places code k).fresh (unswapped (swapsOf target places code k)) where
  gone e he := not_mentions_spillItems hp.nodup (hp.lt e he) (ne_stackPointer (hp.notRegister e he))
    (.inl (List.mem_map_of_mem he))
  inserted y hy what hwhat := by
    rcases mem_spillItems hy with ⟨x, hx, k', _, _, rfl | ⟨z, rfl, _, _⟩⟩
    · rcases hr.source x hx with ⟨n, htag⟩
      cases htag.symm.trans hwhat
    · cases hwhat
      exact ⟨z.a, z.b, rfl⟩
  old t ht := by
    rw [fresh_spillItems] at ht
    exact unswapped_of_forall_ne fun e he heq => ht (List.mem_map.2 ⟨e, he, heq⟩)
  new t ht := by
    rw [fresh_spillItems] at ht
    rcases List.mem_map.1 ht with ⟨e, he, rfl⟩
    rw [unswapped_of_mem nodup_swapsOf he]
    exact List.mem_map_of_mem (mem_swapsOf he).1
  erased := by
    refine erase_spillItems hp.nodup hr.source nodup_swapsOf (List.Subset.refl _) ?_
    intro x hx t ht e he heq
    have hle := (mem_swapsOf he).2.1
    rw [heq] at hle
    exact Nat.not_lt_of_le hle (hr.lt x hx t ht)
  simulated w A _ _ hcode hitems hsame :=
    ⟨_, simulates_spillItems hr hp _ w A, .start hsame hcode hitems⟩
  runs w A s _ _ _ hcode hitems hsame hrun := by
    have hsimulates := simulates_spillItems hr hp (s.file target.machine.stackPointer) w A
    rcases hsimulates.run (.start hsame hcode hitems) hrun with ⟨s₂', hrun', h₂⟩
    exact ⟨s₂', hrun', hsimulates.agree h₂⟩

end Rewritten

theorem isSource_of_mem_itemsOf {code : List Instr} {n : Nat} {x : Item} (h : x ∈ itemsOf code n) :
    x.IsSource ∧ x.instr ∈ code := by
  rcases List.mem_map.1 h with ⟨⟨i, number⟩, hmem, rfl⟩
  exact ⟨⟨number, rfl⟩, List.fst_mem_of_mem_zipIdx hmem⟩

namespace Frame

variable {m : Machine} {frame : Frame} {code : List Instr} {spilled : List Temp} {n : Namer}

/-- Moving temps to the frame never fails.  The temps are gone from the code, which is the old one
but for what was inserted and the fresh temps; and whatever the instructions of the old code do, the
new code does the same, step by step, with the temps in their slots, as long as these have fewer
than 2^63 bytes. -/
theorem spill_keeps_meaning (hword : 0 < frame.wordSize)
    (hwords : spilled.length * frame.wordSize < 2 ^ 63) (hfirst : Temp.firstVirtual ≤ n.nextTemp)
    (htemps : ∀ i ∈ code, ∀ t ∈ i.defs ++ i.uses, t.id < n.nextTemp)
    (hjumps : ∀ i ∈ code, i.targets ≠ [] → i.defs = [])
    (hsp : ∀ i ∈ code, m.stackPointer ∉ i.defs) (hnodup : spilled.Nodup)
    (hspilled : ∀ t ∈ spilled, t.id < n.nextTemp ∧ m.isRegister t = false) :
    ∃ r items back, (frame.spill m code spilled n).1 = .ok r ∧ instrsOf items = r.instrs ∧
      Rewritten ⟨m, frame.sizeSymbol⟩ (slotsOf frame spilled) n.nextTemp (itemsOf code 0) items
        r.fresh back := by
  have hr : Rewritable ⟨m, frame.sizeSymbol⟩ n.nextTemp (itemsOf code 0) := by
    refine ⟨fun x hx => (isSource_of_mem_itemsOf hx).1, fun x hx => ?_, fun x hx => ?_,
      fun x hx => ?_, hfirst⟩
    · exact htemps _ (isSource_of_mem_itemsOf hx).2
    · exact hjumps _ (isSource_of_mem_itemsOf hx).2
    · exact hsp _ (isSource_of_mem_itemsOf hx).2
  have hp : Placed ⟨m, frame.sizeSymbol⟩ n.nextTemp [] (slotsOf frame spilled) :=
    placed_slotsOf (nodup_slotsOf hword (Int.le_of_lt_add_one hwords)) hnodup
      (fun t ht => (hspilled t ht).1) fun t ht => (hspilled t ht).2
  have hframe : m.framePointer.id < n.nextTemp :=
    Nat.lt_of_lt_of_le (Machine.lt_firstVirtual m.isRegister_framePointer) hfirst
  have hspill := frame.spill_eq m (itemsOf code 0) n hnodup (fun t ht => (hspilled t ht).1) hframe
  rw [instrsOf_itemsOf] at hspill
  exact ⟨_, _, _, congrArg Prod.fst hspill, rfl, rewritten_spillItems hr hp⟩

/-- A loop that counts in the frame, too far from its pointer for an immediate. -/
theorem spill_keeps_meaning_far_loop :
    let code : List Instr := [.plain "movq $1, `d0" [⟨100⟩] [], .ofLabel "L",
      .plain "addq `s0, `d0" [⟨100⟩] [⟨101⟩, ⟨100⟩], .branch "jne `j0" ["L"],
      .plain "" [] [⟨100⟩]]
    let frame := Frame.new "f" 0x100000000 .twoRegisters
    ∃ r items back, (frame.spill .twoRegisters code [⟨100⟩] { nextTemp := 102 }).1 = .ok r ∧
      instrsOf items = r.instrs ∧ Rewritten ⟨.twoRegisters, frame.sizeSymbol⟩
        (slotsOf frame [⟨100⟩]) 102 (itemsOf code 0) items r.fresh back :=
  spill_keeps_meaning (by decide) (by decide) (by decide) (by decide) (by decide) (by decide)
    (by decide) (by decide)

end Frame

end TreeCompiler
