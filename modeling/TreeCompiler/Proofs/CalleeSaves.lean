import TreeCompiler.Machine.X86
import TreeCompiler.Proofs.Executions
import TreeCompiler.Proofs.Namers
import TreeCompiler.Proofs.Selection.Operands

/-!
# CalleeSaves — registers that outlive a procedure

A procedure copies the registers that it has to keep to temps of its own before its body, and back
behind it.  Nothing else is moved to these temps, and no jump leads past the copies, so whatever the
body does, each register holds at the last instruction what it held at the first
(`Guard.file_eq`).  This instruction uses the registers, so they hold the same in the registers of
the allocated code, wherever the temps went in between
(`Procedure.compileFile_keeps_calleeSaves`).
-/

namespace TreeCompiler

open FlowGraph Selection

/-! ## Copies around a body -/

/-- Each register to its temp. -/
def saves (saved : List (Temp × Temp)) : List Instr :=
  saved.map fun e => .copy Operation.moveText e.2 e.1

/-- Each register from its temp. -/
def restores (saved : List (Temp × Temp)) : List Instr :=
  saved.map fun e => .copy Operation.moveText e.1 e.2

/-- Code that saves registers, carries out a body, and restores them before its last instruction. -/
def guarded (saved : List (Temp × Temp)) (body : List Instr) (last : Instr) : List Instr :=
  saves saved ++ (body ++ (restores saved ++ [last]))

/-- The temps of saved registers are theirs alone. -/
structure Guard (saved : List (Temp × Temp)) (body : List Instr) (last : Instr) : Prop where
  nodup : (saved.map Prod.snd).Nodup
  apart : ∀ e ∈ saved, ∀ e' ∈ saved, e.1 ≠ e'.2
  body : ∀ i ∈ body, ∀ d ∈ i.defs, ∀ e ∈ saved, d ≠ e.2
  label : last.label? = none
  targets : last.targets = []

theorem label?_of_mem_saves {saved : List (Temp × Temp)} {i : Instr} (h : i ∈ saves saved) :
    i.label? = none := by
  obtain ⟨e, -, rfl⟩ := List.mem_map.1 h
  rfl

theorem label?_of_mem_restores {saved : List (Temp × Temp)} {i : Instr} (h : i ∈ restores saved) :
    i.label? = none := by
  obtain ⟨e, -, rfl⟩ := List.mem_map.1 h
  rfl

/-! ## Labels -/

section Labels

variable {l : Label} {pre body post dest : List Instr}

theorem carries_of_label? {i : Instr} (h : i.label? = none) : carries l i = false := by
  unfold carries
  rw [h]
  rfl

theorem seek_append_left (h : ∀ i ∈ pre, i.label? = none) : seek l (pre ++ body) = seek l body := by
  induction pre with
  | nil => rfl
  | cons i pre ih =>
      rcases List.forall_mem_cons.1 h with ⟨hi, hpre⟩
      rw [List.cons_append, seek, carries_of_label? hi]
      exact ih hpre

/-- A label is in the part that has labels. -/
theorem exists_of_seek_append (h : ∀ i ∈ post, i.label? = none)
    (hseek : seek l (body ++ post) = some dest) : ∃ here, here <:+ body ∧ dest = here ++ post := by
  induction body with
  | nil =>
      have hnone : seek l (post ++ []) = none := seek_append_left h
      rw [List.append_nil] at hnone
      exact absurd (hseek.symm.trans hnone) nofun
  | cons i body ih =>
      rw [List.cons_append, seek] at hseek
      split at hseek
      · cases hseek
        exact ⟨i :: body, List.suffix_refl _, rfl⟩
      · obtain ⟨here, hsuffix, rfl⟩ := ih hseek
        exact ⟨here, hsuffix.trans (List.suffix_cons i body), rfl⟩

theorem FlowGraph.Next.eq_rest {code rest : List Instr} {i : Instr} (h : Next code (i :: rest) dest)
    (htargets : i.targets = []) : dest = rest := by
  cases h with
  | fall => rfl
  | jump hl =>
      rw [htargets] at hl
      cases hl

end Labels

/-! ## Where the values are -/

/-- The values of registers at the start, at each point of the code: some registers are saved, all
are, or some are restored. -/
inductive Guard.At {V : Type} (saved : List (Temp × Temp)) (body : List Instr) (last : Instr)
    (start file : Temp → V) : List Instr → Prop
  | saving {done todo : List (Temp × Temp)} (hsaved : saved = done ++ todo)
      (hregisters : ∀ e ∈ saved, file e.1 = start e.1) (htemps : ∀ e ∈ done, file e.2 = start e.1) :
      At saved body last start file (saves todo ++ (body ++ (restores saved ++ [last])))
  | inside {here : List Instr} (hsuffix : here <:+ body)
      (htemps : ∀ e ∈ saved, file e.2 = start e.1) :
      At saved body last start file (here ++ (restores saved ++ [last]))
  | restoring {done todo : List (Temp × Temp)} (hsaved : saved = done ++ todo)
      (htemps : ∀ e ∈ saved, file e.2 = start e.1) (hregisters : ∀ e ∈ done, file e.1 = start e.1) :
      At saved body last start file (restores todo ++ [last])
  | past : At saved body last start file []

section Guard

variable {V : Type} {saved : List (Temp × Temp)} {body : List Instr} {last i : Instr}
  {start file : Temp → V} {here rest dest : List Instr} {c : Choice V}

/-- A copy moves a value. -/
theorem Choice.Fits.write_copy {text : String} {d s : Temp}
    (h : c.Fits id file (Instr.copy text d s)) :
    write id (Instr.copy text d s).defs c.values file = Function.update file d (file s) := by
  rw [h s d rfl]
  rfl

theorem Guard.step_restoring (h : Guard saved body last) {done todo : List (Temp × Temp)}
    (hsaved : saved = done ++ todo) (htemps : ∀ e ∈ saved, file e.2 = start e.1)
    (hregisters : ∀ e ∈ done, file e.1 = start e.1)
    (hhere : restores todo ++ [last] = i :: rest) (hfits : c.Fits id file i)
    (hnext : Next (guarded saved body last) (i :: rest) dest) :
    Guard.At saved body last start (write id i.defs c.values file) dest := by
  cases todo with
  | nil =>
      obtain ⟨rfl, rfl⟩ := List.cons.inj hhere
      rw [hnext.eq_rest h.targets]
      exact .past
  | cons e todo =>
      obtain ⟨rfl, rfl⟩ := List.cons.inj hhere
      have he : e ∈ saved := hsaved ▸ List.mem_append_right _ List.mem_cons_self
      rw [hnext.eq_rest rfl, hfits.write_copy]
      have hsaved' : saved = (done ++ [e]) ++ todo := by simp [hsaved]
      refine .restoring hsaved' (fun e' he' => ?_) fun e' he' => ?_
      · rw [Function.update_of_ne (h.apart e he e' he').symm]
        exact htemps e' he'
      · -- a register that is listed twice gets the same value again
        by_cases heq : e'.1 = e.1
        · rw [heq, Function.update_self, htemps e he]
        · rw [Function.update_of_ne heq]
          rcases List.mem_append.1 he' with he' | he'
          · exact hregisters e' he'
          · exact absurd (congrArg Prod.fst (List.mem_singleton.1 he')) heq

theorem Guard.step_inside (h : Guard saved body last) (hsuffix : here <:+ body)
    (htemps : ∀ e ∈ saved, file e.2 = start e.1)
    (hhere : here ++ (restores saved ++ [last]) = i :: rest) (hfits : c.Fits id file i)
    (hnext : Next (guarded saved body last) (i :: rest) dest) :
    Guard.At saved body last start (write id i.defs c.values file) dest := by
  cases here with
  | nil =>
      exact h.step_restoring rfl htemps (fun e he => absurd he List.not_mem_nil) hhere hfits hnext
  | cons j here =>
      obtain ⟨rfl, rfl⟩ := List.cons.inj hhere
      have hkeep : ∀ e ∈ saved, write id j.defs c.values file e.2 = start e.1 := fun e he =>
        (write_of_forall_ne fun d hd =>
          h.body j (hsuffix.mem List.mem_cons_self) d hd e he).trans (htemps e he)
      cases hnext with
      | fall => exact .inside ((List.suffix_cons j here).trans hsuffix) hkeep
      | jump hl hseek =>
          -- labels are in the body only, so a jump stays there
          have hpost : ∀ i ∈ restores saved ++ [last], i.label? = none := by
            intro i hi
            rcases List.mem_append.1 hi with hi | hi
            · exact label?_of_mem_restores hi
            · rw [List.mem_singleton.1 hi]
              exact h.label
          rw [guarded, seek_append_left fun i => label?_of_mem_saves] at hseek
          obtain ⟨here', hsuffix', rfl⟩ := exists_of_seek_append hpost hseek
          exact .inside hsuffix' hkeep

theorem Guard.step_saving (h : Guard saved body last) {done todo : List (Temp × Temp)}
    (hsaved : saved = done ++ todo) (hregisters : ∀ e ∈ saved, file e.1 = start e.1)
    (htemps : ∀ e ∈ done, file e.2 = start e.1)
    (hhere : saves todo ++ (body ++ (restores saved ++ [last])) = i :: rest)
    (hfits : c.Fits id file i) (hnext : Next (guarded saved body last) (i :: rest) dest) :
    Guard.At saved body last start (write id i.defs c.values file) dest := by
  cases todo with
  | nil =>
      rw [List.append_nil] at hsaved
      subst hsaved
      exact h.step_inside (List.suffix_refl body) htemps hhere hfits hnext
  | cons e todo =>
      obtain ⟨rfl, rfl⟩ := List.cons.inj hhere
      have he : e ∈ saved := hsaved ▸ List.mem_append_right _ List.mem_cons_self
      rw [hnext.eq_rest rfl, hfits.write_copy]
      have hsaved' : saved = (done ++ [e]) ++ todo := by simp [hsaved]
      refine .saving hsaved' (fun e' he' => ?_) fun e' he' => ?_
      · rw [Function.update_of_ne (h.apart e' he' e he)]
        exact hregisters e' he'
      · rcases List.mem_append.1 he' with hdone | he'
        · -- each register is saved in a temp of its own
          have hne : e'.2 ≠ e.2 := by
            have hnodup := h.nodup
            rw [hsaved, List.map_append, List.map_cons, List.nodup_append] at hnodup
            exact hnodup.2.2 _ (List.mem_map_of_mem hdone) _ List.mem_cons_self
          rw [Function.update_of_ne hne]
          exact htemps e' hdone
        · rw [List.mem_singleton.1 he', Function.update_self]
          exact hregisters e he

/-- Each instruction keeps the values where they are, or moves one of them. -/
theorem Guard.step (h : Guard saved body last) (hat : Guard.At saved body last start file here)
    (hhere : here = i :: rest) (hfits : c.Fits id file i)
    (hnext : Next (guarded saved body last) (i :: rest) dest) :
    Guard.At saved body last start (write id i.defs c.values file) dest := by
  cases hat with
  | past => cases hhere
  | restoring hsaved htemps hregisters =>
      exact h.step_restoring hsaved htemps hregisters hhere hfits hnext
  | inside hsuffix htemps => exact h.step_inside hsuffix htemps hhere hfits hnext
  | saving hsaved hregisters htemps =>
      exact h.step_saving hsaved hregisters htemps hhere hfits hnext

/-- Behind the copies, the registers have their values again. -/
theorem Guard.At.registers (h : Guard.At saved body last start file here) (hhere : here = [last]) :
    ∀ e ∈ saved, file e.1 = start e.1 := by
  have hnone : ∀ pre : List Instr, pre ++ [last] = [last] → pre = [] := fun pre heq =>
    List.append_left_eq_self.1 heq
  cases h with
  | saving _ hregisters => exact hregisters
  | inside =>
      rw [← List.append_assoc] at hhere
      have hrestores := (List.append_eq_nil_iff.1 (hnone _ hhere)).2
      intro e he
      rw [List.map_eq_nil_iff.1 hrestores] at he
      cases he
  | @restoring done todo hsaved _ hregisters =>
      have htodo := List.map_eq_nil_iff.1 (hnone _ hhere)
      rwa [hsaved, htodo, List.append_nil]
  | past => cases hhere

theorem Guard.run (h : Guard saved body last) {sp : Temp} {w : Words V} {cs : List (Choice V)}
    {s s' : State Temp V Unit}
    (hexec : Execution id sp w (itemsOf (guarded saved body last) 0) s cs s')
    (hsuffix : s.rest <:+ itemsOf (guarded saved body last) 0)
    (hat : Guard.At saved body last start s.file (instrsOf s.rest)) :
    Guard.At saved body last start s'.file (instrsOf s'.rest) := by
  induction hexec with
  | refl => exact hat
  | source htag hfits hgoes _ ih =>
      have hnext := hgoes.next
      rw [instrsOf_itemsOf] at hnext
      exact ih (hgoes.suffix hsuffix) (h.step hat rfl hfits hnext)
  | inserted htag =>
      obtain ⟨n, i, rfl, -⟩ := mem_itemsOf.1 (hsuffix.mem List.mem_cons_self)
      cases htag

/-- At the last instruction, saved registers hold what they held at the first. -/
theorem Guard.file_eq (h : Guard saved body last) {sp : Temp} {w : Words V} {slots : Int → V}
    {cs : List (Choice V)} {s : State Temp V Unit}
    (hexec : Execution id sp w (itemsOf (guarded saved body last) 0)
      ⟨start, slots, (), itemsOf (guarded saved body last) 0⟩ cs s)
    (hlast : instrsOf s.rest = [last]) : ∀ e ∈ saved, s.file e.1 = start e.1 := by
  have hstart : Guard.At saved body last start start
      (instrsOf (itemsOf (guarded saved body last) 0)) := by
    rw [instrsOf_itemsOf]
    exact .saving (List.nil_append saved).symm (fun _ _ => rfl) fun e he =>
      absurd he List.not_mem_nil
  exact (h.run hexec (List.suffix_refl _) hstart).registers hlast

end Guard

/-! ## Selected code -/

section Selected

variable {target : Target} {a b : Temp}

theorem select_move (hb : b ≠ target.machine.framePointer) :
    Stm.select target (.move (.temp a) (.temp b)) = emit (.copy a b) := by
  have hvalue : Exp.select target (.temp b) = pure b := by
    rw [Exp.select, tempValue, if_neg hb]
  rw [Stm.select, Exp.selectDestination, hvalue]
  exact pure_bind b _

/-- Moves between temps are copies. -/
theorem extends_moves {S S' : Selection.State} {pairs : List (Temp × Temp)}
    {result : Except SelectionError Unit}
    (hsource : ∀ e ∈ pairs, e.2 ≠ target.machine.framePointer)
    (hrun : (Stm.selectAll target (pairs.map fun e => .move (.temp e.1) (.temp e.2))).run.run S
      = (result, S')) :
    Extends S S' (pairs.map fun e => .copy e.1 e.2) ∧ S'.namer = S.namer ∧ result = .ok () := by
  induction pairs generalizing S with
  | nil =>
      cases hrun
      exact ⟨.refl _, rfl, rfl⟩
  | cons e pairs ih =>
      rcases List.forall_mem_cons.1 hsource with ⟨he, hsource⟩
      have hemit : (emit (.copy e.1 e.2)).run.run S =
          (.ok (), { S with operations := S.operations.push (.copy e.1 e.2) }) := rfl
      rw [List.map_cons, Stm.selectAll, select_move he, run_bind_ok hemit] at hrun
      obtain ⟨hext, hnamer, hresult⟩ := ih hsource hrun
      exact ⟨(extends_of_emit rfl).trans hext, hnamer, hresult⟩

end Selected

/-! ## Registers whose values leave a procedure -/

section ReturnSink

variable {m : Machine} {t : Temp}

theorem mem_returnSink : t ∈ m.returnSink ↔
    t ∈ m.roles.calleeSaves ∨ t = m.stackPointer ∨ t = m.roles.returnValue := by
  obtain ⟨rest, heq, -, -, hmem⟩ := m.exists_returnSink
  rw [heq, List.mem_append, hmem]
  by_cases ht : t ∈ m.roles.calleeSaves
  · simp [ht]
  · simp [ht]

theorem isRegister_of_mem_returnSink (h : t ∈ m.returnSink) : m.isRegister t = true := by
  rcases mem_returnSink.1 h with h | rfl | rfl
  · exact Machine.isRegister_of_role (by simp [Roles.all, h])
  · exact m.isRegister_stackPointer
  · exact Machine.isRegister_of_role (by simp [Roles.all])

end ReturnSink

/-! ## The code of a procedure -/

/-- The registers that a procedure saves. -/
def Machine.savedRegisters (m : Machine) : List Temp :=
  m.roles.calleeSaves.filter fun r => !m.isReserved r

/-- Instructions for which allocation preserves executions. -/
structure Allocatable (m : Machine) (k : Nat) (code : List Instr) : Prop where
  temps : ∀ t, Mentions code t → t.id < k
  reserved : ∀ i ∈ code, ∀ d ∈ i.defs, m.isReserved d = false
  jumps : ∀ i ∈ code, i.targets ≠ [] → i.defs = []

theorem allocatable_map {m : Machine} {symbol : String} {k : Nat} {ops : List Operation}
    (h : ∀ op ∈ ops, op.Admitted ⟨m, symbol⟩ (fun d => m.isReserved d = false) k) :
    Allocatable m k (ops.map (·.instr ⟨m, symbol⟩)) where
  temps t := by
    rintro ⟨i, hi, ht⟩
    obtain ⟨op, hop, rfl⟩ := List.mem_map.1 hi
    exact (h op hop).lt t ht
  reserved i hi := by
    obtain ⟨op, hop, rfl⟩ := List.mem_map.1 hi
    exact (h op hop).defs
  jumps i hi htargets := by
    obtain ⟨op, hop, rfl⟩ := List.mem_map.1 hi
    exact Operation.defs_of_targets htargets

theorem mem_savedRegisters {m : Machine} {r : Temp} :
    r ∈ m.savedRegisters ↔ r ∈ m.roles.calleeSaves ∧ m.isReserved r = false := by
  simp [Machine.savedRegisters]

/-- The registers that are saved, with fresh temps. -/
structure Saves (m : Machine) (n n₁ : Namer) (saved : List (Temp × Temp)) : Prop where
  registers : saved.map Prod.fst = m.savedRegisters
  nodup : (saved.map Prod.snd).Nodup
  fresh : ∀ e ∈ saved, n.nextTemp ≤ e.2.id ∧ e.2.id < n₁.nextTemp
  le : n.nextTemp ≤ n₁.nextTemp

theorem saves_freshFor (m : Machine) (n : Namer) :
    Saves m n (n.freshFor m.savedRegisters).2 (n.freshFor m.savedRegisters).1 := by
  obtain ⟨hfst, hsnd, hnext⟩ := n.freshFor_spec m.savedRegisters
  refine ⟨hfst, ?_, fun e he => ?_, hnext ▸ Nat.le_add_right _ _⟩
  · rw [hsnd]
    exact List.Nodup.map (fun a b h => congrArg Temp.id h) List.nodup_range'
  · have hmem := List.mem_map_of_mem (f := Prod.snd) he
    rw [hsnd] at hmem
    obtain ⟨k, hk, heq⟩ := List.mem_map.1 hmem
    rw [← heq, hnext]
    rw [List.mem_range'_1] at hk
    exact hk

section Procedure

variable {p : Procedure} {m : Machine} {n n₁ n' : Namer} {s : Selected} {saved : List (Temp × Temp)}

theorem Saves.isRegister (h : Saves m n n₁ saved) {e : Temp × Temp} (he : e ∈ saved) :
    m.isRegister e.1 = true ∧ m.isReserved e.1 = false := by
  have hmem := List.mem_map_of_mem (f := Prod.fst) he
  rw [h.registers, mem_savedRegisters] at hmem
  exact ⟨Machine.isRegister_of_role (by simp [Roles.all, hmem.1]), hmem.2⟩

/-- Neither registers that are saved nor temps are the frame pointer. -/
theorem Saves.ne_framePointer (h : Saves m n n₁ saved) (hfirst : Temp.firstVirtual ≤ n.nextTemp)
    {e : Temp × Temp} (he : e ∈ saved) : e.1 ≠ m.framePointer ∧ e.2 ≠ m.framePointer := by
  constructor
  · rintro heq
    have hreserved := (h.isRegister he).2
    rw [heq] at hreserved
    simp [Machine.isReserved] at hreserved
  · intro heq
    have hlt : e.2.id < Temp.firstVirtual :=
      heq ▸ Machine.lt_firstVirtual m.isRegister_framePointer
    exact absurd (hfirst.trans (h.fresh e he).1) (Nat.not_le_of_lt hlt)

/-- Operations that save registers, carry out a body and restore the registers. -/
theorem Saves.exists_body (h : Saves m n n₁ saved) {symbol : String} {body : List Stm}
    {S S' : Selection.State} (hS : S.namer = n₁) {D : Temp → Prop}
    (hbody : AdmitsUnit ⟨m, symbol⟩ D n₁.nextTemp (Stm.selectAll ⟨m, symbol⟩ body))
    (hfirst : Temp.firstVirtual ≤ n.nextTemp)
    (hrun : (Stm.selectAll ⟨m, symbol⟩
      ((saved.map fun e => .move (.temp e.2) (.temp e.1)) ++ body ++
      saved.map fun e => .move (.temp e.1) (.temp e.2))).run.run S = (.ok (), S')) :
    ∃ ops, Extends S S' ((saved.map fun e => .copy e.2 e.1) ++ ops ++
        saved.map fun e => .copy e.1 e.2) ∧
      ∀ op ∈ ops, op.Admitted ⟨m, symbol⟩ D S'.namer.nextTemp := by
  -- saving and restoring are the same moves, with the ends exchanged
  have hswap : (saved.map fun e => Stm.move (.temp e.2) (.temp e.1)) =
      (saved.map Prod.swap).map fun e => .move (.temp e.1) (.temp e.2) := by
    rw [List.map_map]
    rfl
  rw [selectAll_append, selectAll_append, hswap] at hrun
  obtain ⟨_, S₂, hrun₂, hrun₃⟩ := exists_of_run_bind hrun
  obtain ⟨_, S₁, hrun₁, hrun₂⟩ := exists_of_run_bind hrun₂
  obtain ⟨hext₁, hnamer₁, -⟩ := extends_moves (fun e he => by
    obtain ⟨e', he', rfl⟩ := List.mem_map.1 he
    exact (h.ne_framePointer hfirst he').1) hrun₁
  obtain ⟨ops, hext₂, hops, -⟩ := hbody S₁ _ S₂ (by rw [hnamer₁, hS]) hrun₂
  obtain ⟨hext₃, hnamer₃, -⟩ :=
    extends_moves (fun e he => (h.ne_framePointer hfirst he).2) hrun₃
  refine ⟨ops, ?_, hnamer₃ ▸ hops⟩
  have hext := (hext₁.trans hext₂).trans hext₃
  rwa [List.map_map] at hext

/-- A body that defines none of the temps of saved registers is guarded. -/
theorem Saves.guard (h : Saves m n n₁ saved) (hfirst : Temp.firstVirtual ≤ n.nextTemp)
    {target : Target} {body : List Instr}
    (hbody : ∀ i ∈ body, ∀ d ∈ i.defs, d.id < n.nextTemp ∨ n₁.nextTemp ≤ d.id) :
    Guard saved body (Operation.exit.instr target) where
  nodup := h.nodup
  apart e he e' he' heq := by
    have hlt := Machine.lt_firstVirtual (h.isRegister he).1
    rw [heq] at hlt
    exact absurd (hfirst.trans (h.fresh e' he').1) (Nat.not_le_of_lt hlt)
  body i hi d hd e he heq := by
    have hmay := hbody i hi d hd
    have hfresh := h.fresh e he
    rw [heq] at hmay
    omega
  label := rfl
  targets := rfl

/-- Saved registers and their temps may be moved. -/
theorem Saves.movable (h : Saves m n n₁ saved) (hfirst : Temp.firstVirtual ≤ n.nextTemp) {k : Nat}
    (hk : n₁.nextTemp ≤ k) {e : Temp × Temp} (he : e ∈ saved) :
    (e.1.id < k ∧ m.isReserved e.1 = false) ∧ e.2.id < k ∧ m.isReserved e.2 = false := by
  have hlt := Machine.lt_firstVirtual (h.isRegister he).1
  have hfresh := h.fresh e he
  refine ⟨⟨?_, (h.isRegister he).2⟩, Nat.lt_of_lt_of_le hfresh.2 hk,
    notReserved_of_firstVirtual_le m (hfirst.trans hfresh.1)⟩
  exact Nat.lt_of_lt_of_le hlt (hfirst.trans (h.le.trans hk))

/-- Saving registers and restoring them keeps code allocatable. -/
theorem Saves.allocatable (h : Saves m n n₁ saved) (hfirst : Temp.firstVirtual ≤ n.nextTemp)
    {symbol : String} {k : Nat} (hk : n₁.nextTemp ≤ k) {ops : List Operation}
    (hops : ∀ op ∈ ops, op.Admitted ⟨m, symbol⟩ (fun d => m.isReserved d = false) k) :
    Allocatable m k ((((saved.map fun e => Operation.copy e.2 e.1) ++ ops ++
      saved.map fun e => Operation.copy e.1 e.2) ++ [Operation.exit]).map
        (Operation.instr ⟨m, symbol⟩)) := by
  have hcopy : ∀ {d t : Temp}, m.isReserved d = false → d.id < k → t.id < k →
      (Operation.copy d t).Admitted ⟨m, symbol⟩ (fun d => m.isReserved d = false) k :=
    fun {d t} hd hlt ht => admitted_of [d] [t] rfl rfl (by simp [hd, hlt]) (by simp [ht])
  refine allocatable_map fun op hop => ?_
  simp only [List.mem_append, List.mem_singleton, or_assoc] at hop
  rcases hop with hop | hop | hop | rfl
  · obtain ⟨e, he, rfl⟩ := List.mem_map.1 hop
    obtain ⟨⟨hlt₁, -⟩, hlt₂, hr₂⟩ := h.movable hfirst hk he
    exact hcopy hr₂ hlt₂ hlt₁
  · exact hops op hop
  · obtain ⟨e, he, rfl⟩ := List.mem_map.1 hop
    obtain ⟨⟨hlt₁, hr₁⟩, hlt₂, -⟩ := h.movable hfirst hk he
    exact hcopy hr₁ hlt₁ hlt₂
  · refine admitted_of [] m.returnSink rfl rfl (by simp) fun t ht => ?_
    have hlt := Machine.lt_firstVirtual (isRegister_of_mem_returnSink ht)
    exact Nat.lt_of_lt_of_le hlt (hfirst.trans (h.le.trans hk))

/-- The code of a procedure saves registers around what its body does. -/
theorem Procedure.select_spec (hfirst : Temp.firstVirtual ≤ n.nextTemp)
    (htemps : ∀ t ∈ p.temps, t.id < n.nextTemp)
    (hassigned : ∀ t ∈ p.assigned, m.isReserved t = false)
    (hwritten : ∀ t ∈ m.roles.written, m.isReserved t = false)
    (hok : p.select m n = (.ok s, n')) :
    ∃ saved body, saved.map Prod.fst = m.savedRegisters ∧
      s.instrs = guarded saved body (Operation.exit.instr ⟨m, (p.frame m).sizeSymbol⟩) ∧
      Guard saved body (Operation.exit.instr ⟨m, (p.frame m).sizeSymbol⟩) ∧
      Allocatable m n'.nextTemp s.instrs ∧ n.nextTemp ≤ n'.nextTemp ∧
      s.frame.wordSize = m.wordSize ∧ s.frame.sizeSymbol = (p.frame m).sizeSymbol := by
  let n₁ := (n.freshFor m.savedRegisters).2
  let saved := (n.freshFor m.savedRegisters).1
  let target : Target := ⟨m, (p.frame m).sizeSymbol⟩
  have hsaves : Saves m n n₁ saved := saves_freshFor m n
  -- what the body may define: no reserved register, and no temp of a saved register
  let D : Temp → Prop := fun t =>
    m.isReserved t = false ∧ (t.id < n.nextTemp ∨ n₁.nextTemp ≤ t.id)
  have hD : Defines m n₁.nextTemp D := by
    refine ⟨hfirst.trans hsaves.le, fun t ht => ⟨?_, .inr ht⟩, fun t ht => ⟨hwritten t ht, .inl ?_⟩⟩
    · exact notReserved_of_firstVirtual_le m (hfirst.trans (hsaves.le.trans ht))
    · exact Nat.lt_of_lt_of_le (Machine.lt_firstVirtual_of_written ht) hfirst
  have hbody : AdmitsUnit target D n₁.nextTemp (Stm.selectAll target p.body) := by
    refine admits_statements hD p.body ⟨fun t ht => ⟨hassigned t ht, .inl ?_⟩, fun t ht => ?_⟩
    · exact htemps t (p.assigned_subset ht)
    · exact Nat.lt_of_lt_of_le (htemps t ht) hsaves.le
  change (p.frame m).select m _ n₁ = _ at hok
  obtain ⟨S, hrun, hinstrs, hframe⟩ := exists_of_select hok
  have hnamer := namer_of_select hok hrun
  obtain ⟨ops, hext, hops⟩ := hsaves.exists_body rfl hbody hfirst hrun
  have hnext : n₁.nextTemp ≤ n'.nextTemp := by
    rw [hnamer]
    exact hext.nextTemp_le
  rw [hext.operations, Array.toList_empty, List.nil_append] at hinstrs
  rw [← hnamer] at hops
  refine ⟨saved, ops.map (·.instr target), hsaves.registers, ?_, ?_, ?_,
    hsaves.le.trans hnext, ?_, ?_⟩
  · rw [hinstrs]
    simp [guarded, saves, restores, target, Operation.instr, Function.comp_def]
  · refine hsaves.guard hfirst fun i hi d hd => ?_
    obtain ⟨op, hop, rfl⟩ := List.mem_map.1 hi
    exact ((hops op hop).defs d hd).2
  · rw [hinstrs]
    refine hsaves.allocatable hfirst hnext fun op hop => ?_
    exact ⟨(hops op hop).lt, fun d hd => ((hops op hop).defs d hd).1⟩
  · rw [hframe]
    rfl
  · rw [hframe]
    rfl

end Procedure

/-! ## Allocated procedures -/

/-- In every execution of allocated items from the first to the end, some registers hold at the end
what they held at the start. -/
def Allocation.Keeps (a : Allocation) (m : Machine) (items : List Item) (names : List String) :
    Prop :=
  ∀ (V : Type) (w : Words V) (s e : State String V Unit) (cs : List (Choice V)), s.rest = items →
    Execution a.coloring.lookup m.stackPointer w items s cs e → e.rest = [] →
    ∀ name ∈ names, e.file name = s.file name

namespace Procedure

variable {p : Procedure} {ps : List Procedure} {m : Machine} {options : AllocOptions} {n n' : Namer}
  {attempt : Attempt} {a : Allocation}

/-- The registers that a procedure saves survive it. -/
theorem compile_keeps (hfirst : Temp.firstVirtual ≤ n.nextTemp)
    (htemps : ∀ t ∈ p.temps, t.id < n.nextTemp)
    (hassigned : ∀ t ∈ p.assigned, m.isReserved t = false)
    (hwritten : ∀ t ∈ m.roles.written, m.isReserved t = false)
    (hok : (p.compile m options n).1.outcome = .ok a)
    (hwords : a.spilled.length * m.wordSize < 2 ^ 63) :
    ∃ code items, (p.compile m options n).1.selected? = some code ∧
      Stands ⟨m, (p.frame m).sizeSymbol⟩ options code a items ∧
      a.Keeps m items (m.savedRegisters.filterMap m.asmName?) := by
  obtain ⟨s, n₁, n₂, hselect, hallocate, hselected⟩ := exists_of_compile hok
  obtain ⟨saved, body, hsaved, hcode, hguard, hcode', hle, hword, hsymbol⟩ :=
    select_spec hfirst htemps hassigned hwritten hselect
  have hlast : s.instrs.getLast? = some (Operation.exit.instr ⟨m, (p.frame m).sizeSymbol⟩) := by
    rw [hcode]
    simp [guarded]
  obtain ⟨items, hstands, hexec⟩ := exists_execution_of_allocate (hword ▸ m.wordSize_pos)
    (hfirst.trans hle) hcode'.temps hcode'.reserved hcode'.jumps hallocate (hword ▸ hwords) hlast
    rfl rfl
  rw [hsymbol] at hstands
  refine ⟨s.instrs, items, hselected, hstands, ?_⟩
  intro V w start e cs hstart h hend name hname
  obtain ⟨r, hr, hrname⟩ := List.mem_filterMap.1 hname
  have hreg : m.isRegister r = true :=
    Machine.isRegister_of_role (by simp [Roles.all, (mem_savedRegisters.1 hr).1])
  have hlookup : a.coloring.lookup r = name := by
    unfold TempMap.lookup
    rw [hstands.fixed r hreg, hrname]
    rfl
  obtain ⟨file, hfile, cs₀, s₁, h₁, hrest, hregisters⟩ := hexec V w start e cs hstart h hend
  rw [hcode] at h₁
  -- the temps of the procedure keep the register, and its last instruction uses it
  obtain ⟨saving, hsaving, rfl⟩ := List.mem_map.1 (hsaved ▸ hr)
  have hkept := hguard.file_eq h₁ hrest saving hsaving
  have hused : saving.1 ∈ (Operation.exit.instr ⟨m, (p.frame m).sizeSymbol⟩).uses :=
    mem_returnSink.2 (.inl (mem_savedRegisters.1 hr).1)
  have hheld := hregisters saving.1 hused hreg
  rw [hfile saving.1 hreg, hlookup] at hkept
  rw [← hlookup, hheld, hkept, hlookup]

/-- The callee-saved registers survive each procedure of a file that moves nothing to the frame
pointer or the stack pointer: whatever its body does with registers, memory and labels, and wherever
its copies of the registers are put, in every execution of its allocated code.  Fewer than 2^60
temps are spilled, far more than there are numbers for (`Namer`). -/
theorem compileFile_keeps_calleeSaves {i : Nat} (hp : ps[i]? = some p)
    (hattempt : (compileFile ps .x86_64 options).1[i]? = some attempt)
    (hassigned : ∀ t ∈ p.assigned, Machine.x86_64.isReserved t = false)
    (hok : attempt.outcome = .ok a) (hwords : (a.spilled.length * 8 : Int) < 2 ^ 63) :
    ∃ code items, attempt.selected? = some code ∧
      Stands ⟨.x86_64, (p.frame .x86_64).sizeSymbol⟩ options code a items ∧
      a.Keeps .x86_64 items ["%rbx", "%r12", "%r13", "%r14", "%r15"] := by
  obtain ⟨n, hle, rfl⟩ := exists_compile hp hattempt
  have hfirst : Temp.firstVirtual ≤ n.nextTemp :=
    Nat.le_trans (Namer.le_nextTemp_resumeAfter {} (maxTempAll ps)) hle
  have htemps : ∀ t ∈ p.temps, t.id < n.nextTemp := fun t ht =>
    Nat.lt_of_lt_of_le
      (Namer.lt_nextTemp_of_atMost (le_maxTempAll (List.mem_of_getElem? hp) ht)) hle
  have hnames : Machine.x86_64.savedRegisters.filterMap Machine.x86_64.asmName? =
      ["%rbx", "%r12", "%r13", "%r14", "%r15"] := by decide
  obtain ⟨code, items, hselected, hstands, hkeeps⟩ :=
    compile_keeps hfirst htemps hassigned (by decide) hok hwords
  exact ⟨code, items, hselected, hstands, hnames ▸ hkeeps⟩

/-- A body that writes one of the registers itself. -/
theorem compileFile_keeps_calleeSaves_rbx :
    let p : Procedure := ⟨"f", 0, [.move (.temp ⟨1⟩) (.const 0)]⟩
    ∃ attempt a code items, (compileFile [p] .x86_64 {}).1[0]? = some attempt ∧
      attempt.outcome = .ok a ∧ attempt.selected? = some code ∧
      Stands ⟨.x86_64, (p.frame .x86_64).sizeSymbol⟩ {} code a items ∧
      a.Keeps .x86_64 items ["%rbx", "%r12", "%r13", "%r14", "%r15"] := by
  intro p
  have hcompiles : (compileFile [p] .x86_64 {}).1[0]?.any
      (·.outcome.toOption.any (·.spilled.length = 0)) = true := by
    decide +kernel
  have hassigned : ∀ t ∈ p.assigned, Machine.x86_64.isReserved t = false := by decide
  generalize hattempt : (compileFile [p] .x86_64 {}).1[0]? = result at hcompiles
  cases result with
  | none => cases hcompiles
  | some attempt =>
      cases hok : attempt.outcome with
      | error e =>
          rw [Option.any_some, hok] at hcompiles
          cases hcompiles
      | ok a =>
          rw [Option.any_some, hok] at hcompiles
          have hlength : a.spilled.length = 0 := of_decide_eq_true hcompiles
          obtain ⟨code, items, hselected, hstands, hkeeps⟩ :=
            compileFile_keeps_calleeSaves rfl hattempt hassigned hok (by
              rw [hlength]
              decide)
          exact ⟨attempt, a, code, items, rfl, hok, hselected, hstands, hkeeps⟩

end Procedure

end TreeCompiler
