import TreeCompiler.Proofs.Selection.Operands
import TreeCompiler.Proofs.Selection.Passing

/-!
# Waiting — operands that are read behind their siblings

A tile that has an operand in a temp evaluates the others before it reads the temp (`Waits`).  Code
for the others appends operations that define temps which they move to, registers which their tiles
are tied to, and fresh temps (`Spares`).  The tile's own operations up to the one that reads the
temp define only registers and fresh temps (`Reads`).
-/

namespace TreeCompiler

/-- The temp that an address is based on. -/
def Address.temp? : Address → Option Temp
  | .frame _ => none
  | .base t _ => some t

namespace Selection

/-- The operand of a conditional jump that is evaluated first. -/
def firstCompared (l r : Exp) : Exp := if l.constant?.isSome ∧ r.constant? = none then r else l

/-- The other one. -/
def lastCompared (l r : Exp) : Exp := if l.constant?.isSome ∧ r.constant? = none then l else r

/-! ## Operations that read an operand -/

/-- A temp is not moved to in trees, and is no register that their tiles are tied to. -/
structure Spared (m : Machine) (es : List Exp) (t : Temp) : Prop where
  assigned : t ∉ Exp.assignedAll es
  tied : m.isRegister t = true → t ∉ Exp.tiedAll m es

/-- What may be defined where only one temp may not. -/
theorem opens_ne {low : Nat} {t : Temp} (hlow : Temp.firstVirtual ≤ low) (ht : t.id < low) :
    Opens low (· ≠ t) :=
  ⟨hlow, fun _ hu heq => absurd (heq ▸ ht) (Nat.not_lt_of_le hu)⟩

theorem Spared.permits {m : Machine} {es : List Exp} {t : Temp} (h : Spared m es t) :
    Permits (· ≠ t) (Exp.tiedAll m es) := by
  rintro u hu rfl
  exact h.tied (Machine.isRegister_of_written (Exp.tiedAll_subset es hu)) hu

section Waits

variable {target : Target} {es : List Exp} {t : Temp} {t? : Option Temp} {α β : Type}

/-- An action appends operations that leave every temp alone that waits and is spared in the trees.
-/
def Spares (target : Target) (es : List Exp) (x : SelectM α) : Prop :=
  ∀ S a S', Temp.firstVirtual ≤ S.namer.nextTemp →
    (∀ u ∈ Exp.tempsAll es, u.id < S.namer.nextTemp) → x.run.run S = (.ok a, S') →
    ∃ ops, Extends S S' ops ∧ ∀ t : Temp, t.id < S.namer.nextTemp →
      Spared target.machine es t → ∀ op ∈ ops, t ∉ (op.instr target).defs

/-- An action goes on to an operation that reads a temp, and leaves it alone until then. -/
def Reads (target : Target) (t? : Option Temp) (x : SelectM α) : Prop :=
  ∀ S a S', x.run.run S = (.ok a, S') → ∃ ops, Extends S S' ops ∧
    ∀ t, t? = some t → ∃ between reader after, ops = between ++ reader :: after ∧
      t ∈ (reader.instr target).uses ∧ ∀ op ∈ between, t ∉ (op.instr target).defs

/-- An action evaluates the siblings of an operand first, and goes on to an operation that reads the
temp of the operand, which is left alone until then if it is spared in them. -/
def Waits (target : Target) (es : List Exp) (siblings : SelectM Unit) (t? : Option Temp)
    (x : SelectM α) : Prop :=
  ∀ S a S', Temp.firstVirtual ≤ S.namer.nextTemp →
    (∀ u ∈ Exp.tempsAll es, u.id < S.namer.nextTemp) → x.run.run S = (.ok a, S') →
    ∃ S₁ waited rest, siblings.run.run S = (.ok (), S₁) ∧ Extends S S₁ waited ∧
      Extends S₁ S' rest ∧ ∀ t, t? = some t → t.id < S.namer.nextTemp →
        ∃ between reader after, rest = between ++ reader :: after ∧
          t ∈ (reader.instr target).uses ∧
          (Spared target.machine es t → ∀ op ∈ waited ++ between, t ∉ (op.instr target).defs)

/-- Code for trees defines only what they move to, registers and fresh temps. -/
theorem spares_of_admits {x : SelectM α} {Q : Nat → α → Nat → Prop}
    (hcovers : ∃ Bs, Covers target Bs x)
    (hadmits : ∀ {t : Temp} {low}, Opens low (· ≠ t) →
      Permits (· ≠ t) (Exp.tiedAll target.machine es) →
      Allowed (· ≠ t) low (Exp.assignedAll es) (Exp.tempsAll es) →
      Admits target (· ≠ t) low x (Q low)) : Spares target es x := by
  intro S a S' hlow htemps hrun
  obtain ⟨Bs, hcovers⟩ := hcovers
  obtain ⟨ops, hext⟩ := hcovers.follows hrun
  refine ⟨ops, hext, fun t hlt hspared op hop hd => ?_⟩
  -- everything but the temp that waits may be defined
  have hallowed : Allowed (· ≠ t) S.namer.nextTemp (Exp.assignedAll es) (Exp.tempsAll es) :=
    ⟨fun u hu heq => hspared.assigned (heq ▸ hu), htemps⟩
  obtain ⟨ops', hext', hadmitted, -⟩ :=
    hadmits (opens_ne hlow hlt) hspared.permits hallowed S _ S' (Nat.le_refl _) hrun
  obtain rfl := hext.operations_eq hext'
  exact (hadmitted op hop).defs t hd rfl

theorem spares_value (e : Exp) : Spares target [e] (intoVirtual target (e.select target)) :=
  spares_of_admits (Q := fun _ => Before) ⟨_, covers_intoVirtual (covers_value e)⟩
    fun hD ht h => admits_intoVirtual hD (admits_value hD e ht.left h.left)

theorem spares_operand (e : Exp) : Spares target [e] (operand e (e.select target)) :=
  spares_of_admits (Q := fun _ => Operand.Before) ⟨_, covers_operand (covers_value e)⟩
    fun hD ht h => admits_operand (admits_value hD e ht.left h.left)

theorem spares_values (es : List Exp) : Spares target es (Exp.selectAll target es) :=
  spares_of_admits (Q := fun _ => BeforeAll) ⟨_, covers_values es⟩
    fun hD ht h => admits_values hD es ht h

theorem reads_emit {op : Operation} {x : SelectM α} {Bs : List (List Stm)}
    (hop : ∀ t, t? = some t → t ∈ (op.instr target).uses) (hx : Covers target Bs x) :
    Reads target t? (do emit op; x) := by
  intro S a S' hrun
  obtain ⟨_, S₁, hemit, hrest⟩ := exists_of_run_bind hrun
  obtain ⟨after, hafter⟩ := hx.follows hrest
  exact ⟨op :: after, (extends_of_emit hemit).trans hafter, fun t ht =>
    ⟨[], op, after, rfl, hop t ht, fun _ h => absurd h List.not_mem_nil⟩⟩

theorem reads_emit_last {op : Operation} (hop : ∀ t, t? = some t → t ∈ (op.instr target).uses) :
    Reads target t? (emit op) := reads_emit hop (covers_pure ())

theorem reads_fresh {f : Temp → SelectM α} (hf : ∀ dst, Reads target t? (f dst)) :
    Reads target t? (fresh >>= f) := by
  intro S a S' hrun
  obtain ⟨dst, S₁, hfresh, hrest⟩ := exists_of_run_bind hrun
  obtain ⟨ops, hext, hread⟩ := hf dst S₁ a S' hrest
  cases hfresh
  exact ⟨ops, ⟨hext.operations, (Nat.le_succ _).trans hext.nextTemp_le, hext.memoryArguments_le⟩,
    hread⟩

/-- A copy of a temp into a fresh one reads it. -/
theorem reads_copy {x : Temp → SelectM α} {Bs : List (List Stm)}
    (hx : ∀ dst, Covers target Bs (x dst)) :
    Reads target (some t) (do let dst ← fresh; emit (.copy dst t); x dst) :=
  reads_fresh fun dst => reads_emit
    (fun _ ht => Option.some.inj ht ▸ List.mem_singleton_self t) (hx dst)

theorem discard_eq (y : SelectM β) : (discard y : SelectM Unit) = y >>= fun _ => pure () :=
  map_eq_pure_bind _ y

theorem waits_bind {y : SelectM β} {f : β → SelectM α} (hy : Spares target es y)
    (hf : ∀ b, Reads target t? (f b)) : Waits target es (discard y) t? (y >>= f) := by
  intro S a S' hlow htemps hrun
  obtain ⟨b, S₁, hyrun, hrest⟩ := exists_of_run_bind hrun
  obtain ⟨waited, hwaited, hspares⟩ := hy S b S₁ hlow htemps hyrun
  obtain ⟨rest, hext, hreads⟩ := hf b S₁ a S' hrest
  have hdiscard : (discard y).run.run S = (.ok (), S₁) := by
    rw [discard_eq]
    exact run_bind_ok hyrun
  refine ⟨S₁, waited, rest, hdiscard, hwaited, hext, fun t ht hlt => ?_⟩
  obtain ⟨between, reader, after, hsplit, huses, hdefs⟩ := hreads t ht
  refine ⟨between, reader, after, hsplit, huses, fun hspared op hop => ?_⟩
  exact (List.mem_append.1 hop).elim (hspares t hlt hspared op) (hdefs op)

/-- Nothing is evaluated for a constant. -/
theorem waits_pure {x : SelectM α} (hx : Reads target t? x) : Waits target es (pure ()) t? x := by
  intro S a S' _ _ hrun
  obtain ⟨rest, hext, hreads⟩ := hx S a S' hrun
  refine ⟨S, [], rest, rfl, .refl S, hext, fun t ht _ => ?_⟩
  obtain ⟨between, reader, after, hsplit, huses, hdefs⟩ := hreads t ht
  exact ⟨between, reader, after, hsplit, huses, fun _ => hdefs⟩

/-! ### Operators -/

variable {l r : Exp}

/-- An expression of the frame pointer and an immediate is one tile, without operands. -/
def folds (target : Target) (op : BinOp) (l r : Exp) : Bool :=
  op = .plus && isFramePointer target l && (immediate? r).isSome

/-- Evaluate the right operand in the form in which the tile of the operator takes it. -/
def evaluateRight (target : Target) (r : Exp) : BinOp → SelectM Unit
  | .mul | .div => discard (intoVirtual target (r.select target))
  | .lshift | .rshift | .arshift =>
      match r.constant? with
      | some _ => pure ()
      | none => discard (intoVirtual target (r.select target))
  | _ => discard (operand r (r.select target))

/-- The tile of an operator evaluates the left operand, then the right one, and then reads the left
one. -/
theorem exists_waits_binop (target : Target) {op : BinOp} (hfolds : folds target op l r = false) :
    ∃ rest : Temp → SelectM Temp, (Exp.binop op l r).select target = l.select target >>= rest ∧
      ∀ a, Waits target [r] (evaluateRight target r op) (some a) (rest a) := by
  have harith : ∀ (op : ArithOp) a,
      Waits target [r] (discard (operand r (r.select target))) (some a) (do
        let b ← operand r (r.select target)
        let dst ← fresh
        emit (.copy dst a)
        emit (.arith op dst b)
        return dst) := fun op a =>
    waits_bind (spares_operand r) fun b => reads_copy fun dst =>
      (covers_emit _).nil_bind fun _ => covers_pure dst
  have hshift : ∀ op : ShiftOp, ∃ rest : Temp → SelectM Temp,
      shift target op r (l.select target) (r.select target) = l.select target >>= rest ∧
      ∀ a, Waits target [r] (evaluateRight target r .lshift) (some a) (rest a) := by
    intro op
    refine ⟨_, rfl, fun a => ?_⟩
    simp only [evaluateRight]
    cases r.constant? with
    | some c =>
        exact waits_pure (reads_copy fun dst => (covers_emit _).nil_bind fun _ => covers_pure dst)
    | none =>
        exact waits_bind (spares_value r) fun _ => reads_copy fun dst =>
          (covers_emit _).nil_bind fun _ => (covers_emit _).nil_bind fun _ => covers_pure dst
  have hread : ∀ dst a t, some a = some t → t ∈ ((Operation.copy dst a).instr target).uses :=
    fun _ a _ ht => Option.some.inj ht ▸ List.mem_singleton_self a
  rw [Exp.select]
  cases op with
  -- every sum that does not fold is like the other arithmetic
  | plus =>
      have hsum : sum target l r (l.select target) (r.select target) =
          arith .add (l.select target) (operand r (r.select target)) := by
        unfold sum
        split
        · rename_i c hfp hc
          simp [folds, hfp, hc] at hfolds
        · rfl
      exact ⟨_, hsum, harith .add⟩
  | minus => exact ⟨_, rfl, harith .sub⟩
  | and => exact ⟨_, rfl, harith .and⟩
  | or => exact ⟨_, rfl, harith .or⟩
  | xor => exact ⟨_, rfl, harith .xor⟩
  | mul =>
      exact ⟨_, rfl, fun a => waits_bind (spares_value r) fun _ => reads_emit (hread _ a)
        ((covers_emit _).nil_bind fun _ => covers_into _)⟩
  | div =>
      exact ⟨_, rfl, fun a => waits_bind (spares_value r) fun _ => reads_emit (hread _ a)
        ((covers_emit _).nil_bind fun _ => (covers_emit _).nil_bind fun _ => covers_into _)⟩
  | lshift => exact hshift .left
  | rshift => exact hshift .right
  | arshift => exact hshift .rightArith

/-! ### Comparisons and stores -/

/-- A conditional jump evaluates the operand that is compared first, which is the right one if the
left one is a constant and the right one is not. -/
theorem exists_waits_cjump (target : Target) (op : RelOp) (l r : Exp) (ifTrue ifFalse : Label) :
    ∃ rest : Temp → SelectM Unit,
      (Stm.cjump op l r ifTrue ifFalse).select target =
        (firstCompared l r).select target >>= rest ∧
      ∀ a, Waits target [lastCompared l r]
        (discard (operand (lastCompared l r) ((lastCompared l r).select target))) (some a)
        (rest a) := by
  have hwaits : ∀ (op : RelOp) (e : Exp) (a : Temp),
      Waits target [e] (discard (operand e (e.select target))) (some a) (do
        let b ← operand e (e.select target)
        emit (.compare a b)
        emit (.branch op ifTrue ifFalse)) := by
    intro op e a
    refine waits_bind (spares_operand e) fun b => reads_emit (fun t ht => ?_) (covers_emit _)
    cases ht
    cases b <;> exact List.mem_cons_self
  rw [Stm.select]
  unfold cjump firstCompared lastCompared
  cases l.constant? <;> cases r.constant? <;> exact ⟨_, rfl, hwaits _ _⟩

theorem store_eq (source : Exp) (address : SelectM Address) (value : SelectM Temp) :
    moveToMemory source address value = (do
      let place ← address
      match ← operand source value with
      | .imm c => emit (.storeConstant c place)
      | .temp v => emit (.store v place)) := by
  unfold moveToMemory operand
  cases immediate? source with
  | some c => simp only [pure_bind]
  | none => simp only [bind_map_left]

/-- A store evaluates the address, then the source, and then reads the base of the address. -/
theorem exists_waits_store (target : Target) (a source : Exp) :
    ∃ rest : Address → SelectM Unit,
      (Stm.move (.mem a) source).select target =
        a.selectAddress target (a.select target) >>= rest ∧
      ∀ place, Waits target [source] (discard (operand source (source.select target)))
        place.temp? (rest place) := by
  rw [Stm.select, Exp.selectDestination, store_eq]
  refine ⟨_, rfl, fun place => waits_bind (spares_operand source) fun b => ?_⟩
  have hregister : ∀ t, place.temp? = some t → t = place.register target := by
    intro t ht
    cases place with
    | frame => cases ht
    | base => exact (Option.some.inj ht).symm
  cases b with
  | imm c => exact reads_emit_last fun t ht => hregister t ht ▸ List.mem_singleton_self _
  | temp v =>
      exact reads_emit_last fun t ht =>
        List.mem_cons_of_mem _ (hregister t ht ▸ List.mem_singleton_self _)

/-! ### Calls -/

/-- Passing arguments defines only registers. -/
theorem isRegister_of_defs_passing {values : List Temp} {op : Operation} {d : Temp}
    (hop : op ∈ stores target 0 (values.drop target.machine.roles.arguments.length) ++
      moves (values.zip target.machine.roles.arguments))
    (hd : d ∈ (op.instr target).defs) : target.machine.isRegister d = true := by
  have hstores : ∀ (ts : List Temp) slot, ∀ op ∈ stores target slot ts,
      (op.instr target).defs = [] := by
    intro ts
    induction ts with
    | nil => exact fun _ op hop => absurd hop List.not_mem_nil
    | cons v rest ih =>
        intro slot op hop
        rcases List.mem_cons.1 hop with rfl | hop
        · rfl
        · exact ih _ op hop
  rcases List.mem_append.1 hop with hop | hop
  · rw [hstores _ _ op hop] at hd
    exact absurd hd List.not_mem_nil
  · obtain ⟨e, he, rfl⟩ := List.mem_map.1 hop
    obtain rfl := List.mem_singleton.1 hd
    refine Machine.isRegister_of_role ?_
    simp [Roles.all, (List.of_mem_zip he).2]

/-- Each value is stored or moved. -/
theorem exists_passed (target : Target) {values : List Temp} (ht : t ∈ values) :
    ∃ op ∈ stores target 0 (values.drop target.machine.roles.arguments.length) ++
      moves (values.zip target.machine.roles.arguments), t ∈ (op.instr target).uses := by
  have hstores : ∀ (ts : List Temp) slot, t ∈ ts → ∃ op ∈ stores target slot ts,
      t ∈ (op.instr target).uses := by
    intro ts
    induction ts with
    | nil => exact fun _ h => absurd h List.not_mem_nil
    | cons v rest ih =>
        intro slot h
        rcases List.mem_cons.1 h with rfl | h
        · exact ⟨_, List.mem_cons_self, List.mem_cons_self⟩
        · obtain ⟨op, hop, huses⟩ := ih (slot + 1) h
          exact ⟨op, List.mem_cons_of_mem _ hop, huses⟩
  -- values that have no register are stored
  rw [← List.take_append_drop target.machine.roles.arguments.length values] at ht
  rcases List.mem_append.1 ht with ht | ht
  · have hfst : (values.zip target.machine.roles.arguments).map Prod.fst =
        values.take target.machine.roles.arguments.length := by
      rw [List.zip_eq_zip_take_min, List.map_fst_zip (by simp), List.take_eq_take_iff]
      omega
    obtain ⟨e, he, rfl⟩ := List.mem_map.1 (hfst ▸ ht)
    exact ⟨.copy e.2 e.1, List.mem_append_right _ (List.mem_map_of_mem he),
      List.mem_singleton_self _⟩
  · obtain ⟨op, hop, huses⟩ := hstores _ 0 ht
    exact ⟨op, List.mem_append_left _ hop, huses⟩

/-- A temp that is no register is left alone until it is passed, or called through. -/
theorem reads_pass {f : Callee} {values : List Temp}
    (hregister : ∀ t, t? = some t → target.machine.isRegister t = false)
    (ht : ∀ t, t? = some t → f.temp? = some t ∨ t ∈ values) :
    Reads target t? (pass target f values) := by
  intro S a S' hrun
  obtain ⟨hext, -⟩ := extends_of_pass hrun
  let evaluated := stores target 0 (values.drop target.machine.roles.arguments.length) ++
    moves (values.zip target.machine.roles.arguments)
  let call : Operation := .call f ((values.zip target.machine.roles.arguments).map (·.2))
  have hpassing : passing target f values = evaluated ++ [call] := by
    rw [passing, ← List.append_assoc]
  refine ⟨evaluated ++ [call], hpassing ▸ hext, fun t heq => ?_⟩
  have hdefs : ∀ op ∈ evaluated, t ∉ (op.instr target).defs := fun op hop hd =>
    Bool.noConfusion ((hregister t heq).symm.trans (isRegister_of_defs_passing hop hd))
  rcases ht t heq with ht | ht
  -- a callee is read last of all, an argument where it is passed
  · refine ⟨evaluated, call, [], rfl, ?_, hdefs⟩
    rw [uses_call, ht]
    exact List.mem_cons_self
  · obtain ⟨reader, hreader, huses⟩ := exists_passed target ht
    obtain ⟨between, after, hsplit⟩ := List.append_of_mem hreader
    change evaluated = _ at hsplit
    refine ⟨between, reader, after ++ [call], ?_, huses, fun op hop => hdefs op ?_⟩
    · rw [hsplit, List.append_assoc, List.cons_append]
    · exact hsplit ▸ List.mem_append_left _ hop

/-- What is moved out of the registers is none. -/
theorem isRegister_of_intoVirtual {value : SelectM Temp} {S S' : State}
    (hfirst : Temp.firstVirtual ≤ S.namer.nextTemp) (hvalue : ∀ S, Follows S (value.run.run S).2)
    (hrun : (intoVirtual target value).run.run S = (.ok t, S')) :
    target.machine.isRegister t = false := by
  obtain ⟨u, S₁, hu, hrest⟩ := exists_of_run_bind hrun
  obtain ⟨ops, hext⟩ := hvalue S
  rw [hu] at hext
  split at hrest
  · cases hrest
    refine Machine.isVirtual_of_not_register ?_
    simpa [Temp.isVirtual] using hfirst.trans hext.nextTemp_le
  · cases hrest
    exact Bool.eq_false_iff.2 ‹_›

end Waits

end Selection

end TreeCompiler
