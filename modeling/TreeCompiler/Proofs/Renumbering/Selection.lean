import TreeCompiler.Proofs.Renumbering.Basic
import TreeCompiler.Proofs.Selection.Sequences
import TreeCompiler.Proofs.SpillCode
import TreeCompiler.Proofs.Trees

/-!
# Renumbered selection — a renumbered tree is selected in renumbered operations

Selection compares temps only with registers, and takes all others from the namer.  So two actions
on corresponding trees, begun with namers that hand out corresponding temps, fail both or append
corresponding operations (`Renumbers`); and what holds of the parts of a tile holds of the tile.
-/

namespace TreeCompiler

/-! ## Trees -/

mutual

/-- An expression on other temps. -/
def Exp.rename (f : Temp → Temp) : Exp → Exp
  | .binop op l r => .binop op (l.rename f) (r.rename f)
  | .mem a => .mem (a.rename f)
  | .temp t => .temp (f t)
  | .eseq s e => .eseq (s.rename f) (e.rename f)
  | .name l => .name l
  | .const c => .const c
  | .call e args => .call (e.rename f) (Exp.renameAll f args)

def Exp.renameAll (f : Temp → Temp) : List Exp → List Exp
  | [] => []
  | e :: es => e.rename f :: Exp.renameAll f es

/-- A statement on other temps. -/
def Stm.rename (f : Temp → Temp) : Stm → Stm
  | .seq a b => .seq (a.rename f) (b.rename f)
  | .label l => .label l
  | .jump e labels => .jump (e.rename f) labels
  | .cjump op l r t u => .cjump op (l.rename f) (r.rename f) t u
  | .move d s => .move (d.rename f) (s.rename f)
  | .exp e => .exp (e.rename f)

end

section Trees

variable {f : Temp → Temp}

theorem forall_append_left {as bs : List Temp} (h : ∀ t ∈ as ++ bs, f t = t) : ∀ t ∈ as, f t = t :=
  (List.forall_mem_append.1 h).1

theorem forall_append_right {as bs : List Temp} (h : ∀ t ∈ as ++ bs, f t = t) : ∀ t ∈ bs, f t = t :=
  (List.forall_mem_append.1 h).2

mutual

theorem Exp.rename_eq_self : (e : Exp) → (∀ t ∈ e.temps, f t = t) → e.rename f = e
  | .binop op l r, h => congrArg₂ (Exp.binop op) (l.rename_eq_self (forall_append_left h))
      (r.rename_eq_self (forall_append_right h))
  | .mem a, h => congrArg Exp.mem (a.rename_eq_self h)
  | .temp t, h => congrArg Exp.temp (h t (List.mem_singleton_self t))
  | .eseq s e, h => congrArg₂ Exp.eseq (s.rename_eq_self (forall_append_left h))
      (e.rename_eq_self (forall_append_right h))
  | .name _, _ => rfl
  | .const _, _ => rfl
  | .call e args, h => congrArg₂ Exp.call (e.rename_eq_self (forall_append_left h))
      (Exp.renameAll_eq_self args (forall_append_right h))

theorem Exp.renameAll_eq_self : (es : List Exp) → (∀ t ∈ Exp.tempsAll es, f t = t) →
    Exp.renameAll f es = es
  | [], _ => rfl
  | e :: es, h => congrArg₂ List.cons (e.rename_eq_self (forall_append_left h))
      (Exp.renameAll_eq_self es (forall_append_right h))

theorem Stm.rename_eq_self : (s : Stm) → (∀ t ∈ s.temps, f t = t) → s.rename f = s
  | .seq a b, h => congrArg₂ Stm.seq (a.rename_eq_self (forall_append_left h))
      (b.rename_eq_self (forall_append_right h))
  | .label _, _ => rfl
  | .jump e labels, h => congrArg (Stm.jump · labels) (e.rename_eq_self h)
  | .cjump op l r t u, h =>
      congrArg₂ (Stm.cjump op · · t u) (l.rename_eq_self (forall_append_left h))
        (r.rename_eq_self (forall_append_right h))
  | .move d s, h => congrArg₂ Stm.move (d.rename_eq_self (forall_append_left h))
      (s.rename_eq_self (forall_append_right h))
  | .exp e, h => congrArg Stm.exp (e.rename_eq_self h)

end

/-- A body whose temps keep their numbers is the same. -/
theorem Stm.map_rename_eq_self {body : List Stm} (h : ∀ t ∈ body.flatMap Stm.temps, f t = t) :
    body.map (Stm.rename f) = body :=
  (List.map_congr_left fun s hs => s.rename_eq_self fun t ht =>
    h t (List.mem_flatMap.2 ⟨s, hs, ht⟩)).trans (List.map_id _)

@[simp] theorem Exp.constant?_rename (e : Exp) : (e.rename f).constant? = e.constant? := by
  cases e <;> rfl

end Trees

/-! ## Operations -/

def Address.rename (f : Temp → Temp) : Address → Address
  | .frame offset => .frame offset
  | .base t offset => .base (f t) offset

def Operand.rename (f : Temp → Temp) : Operand → Operand
  | .imm c => .imm c
  | .temp t => .temp (f t)

def Callee.rename (f : Temp → Temp) : Callee → Callee
  | .direct l => .direct l
  | .indirect t => .indirect (f t)

/-- An operation on other temps. -/
def Operation.rename (f : Temp → Temp) : Operation → Operation
  | .label l => .label l
  | .copy dst src => .copy (f dst) (f src)
  | .constant dst c => .constant (f dst) c
  | .labelAddress dst l => .labelAddress (f dst) l
  | .frameAddress dst offset => .frameAddress (f dst) offset
  | .load dst a => .load (f dst) (a.rename f)
  | .store src a => .store (f src) (a.rename f)
  | .storeConstant c a => .storeConstant c (a.rename f)
  | .arith op dst right => .arith op (f dst) (right.rename f)
  | .multiply right => .multiply (f right)
  | .signExtend => .signExtend
  | .divide right => .divide (f right)
  | .shiftConstant op dst count => .shiftConstant op (f dst) count
  | .shift op dst => .shift op (f dst)
  | .compare left right => .compare (f left) (right.rename f)
  | .branch op t u => .branch op t u
  | .jump labels => .jump labels
  | .jumpTo address labels => .jumpTo (f address) labels
  | .call callee arguments => .call (callee.rename f) (arguments.map f)
  | .exit => .exit

section Operations

variable (f : Renumbering) (target : Target)

theorem Address.text_rename (slot : Nat) (a : Address) :
    (a.rename f).text target slot = a.text target slot := by
  cases a <;> rfl

theorem Address.register_rename (a : Address) :
    (a.rename f).register target = f (a.register target) := by
  cases a with
  | frame => exact (f.stackPointer _).symm
  | base => rfl

variable {m : Machine}

theorem Renumbering.map_roles {ts : List Temp} (h : ts ⊆ m.roles.all) : ts.map f = ts :=
  (List.map_congr_left fun _ ht => f.eq_self_of_role (h ht)).trans (List.map_id _)

theorem callDefs_subset (m : Machine) : m.callDefs ⊆ m.roles.all := by
  intro t ht
  unfold Machine.callDefs at ht
  unfold Roles.all
  grind

theorem Renumbering.map_returnSink (m : Machine) : m.returnSink.map f = m.returnSink := by
  refine (List.map_congr_left fun t ht => ?_).trans (List.map_id _)
  have hcases : t = m.stackPointer ∨ t ∈ m.roles.all := by
    simp only [Machine.returnSink, List.foldl_cons, List.foldl_nil] at ht
    unfold Roles.all
    grind
  rcases hcases with rfl | ht
  · exact f.stackPointer m
  · exact f.eq_self_of_role ht

@[simp] theorem Renumbering.mulDiv_fst (m : Machine) : f m.roles.mulDiv.1 = m.roles.mulDiv.1 :=
  f.eq_self_of_role (m := m) (by simp [Roles.all])

@[simp] theorem Renumbering.mulDiv_snd (m : Machine) : f m.roles.mulDiv.2 = m.roles.mulDiv.2 :=
  f.eq_self_of_role (m := m) (by simp [Roles.all])

@[simp] theorem Renumbering.shiftCount (m : Machine) : f m.roles.shiftCount = m.roles.shiftCount :=
  f.eq_self_of_role (m := m) (by simp [Roles.all])

@[simp] theorem Renumbering.returnValue (m : Machine) :
    f m.roles.returnValue = m.roles.returnValue :=
  f.eq_self_of_role (m := m) (by simp [Roles.all])

/-- A renumbered operation is written as the renumbered instruction. -/
theorem Operation.instr_rename (op : Operation) :
    (op.rename f).instr target = (op.instr target).rename f := by
  cases op with
  | load | store | storeConstant =>
      simp [rename, instr, Instr.plain, Instr.rename, Address.text_rename, Address.register_rename]
  | frameAddress dst offset =>
      simp [rename, instr, Instr.plain, Instr.rename, Address.register]
  | arith op dst right => cases right <;> rfl
  | compare left right => cases right <;> rfl
  | multiply | divide | signExtend | shift =>
      simp [rename, instr, Instr.plain, Instr.rename]
  | call callee arguments =>
      have hdefs := f.map_roles (callDefs_subset target.machine)
      cases callee <;> simp [rename, Callee.rename, instr, Instr.plain, Instr.rename, hdefs]
  | exit => simp [rename, instr, Instr.plain, Instr.rename, f.map_returnSink]
  | _ => rfl

end Operations

/-! ## Actions -/

namespace Selection

section Actions

variable {f : Renumbering} {target : Target} {α β : Type}

/-- Selection came equally far in both runs. -/
structure State.Renumbered (f : Renumbering) (S S' : State) : Prop where
  namer : f.Follows S.namer S'.namer
  operations : S'.operations.toList = S.operations.toList.map (Operation.rename f)
  memoryArguments : S'.memoryArguments = S.memoryArguments

/-- From states that correspond, both actions fail or both succeed, the second one with the result
of the first one under other numbers, and the states correspond again. -/
def Renumbers (f : Renumbering) (g : α → α) (x x' : SelectM α) : Prop :=
  ∀ S S', S.Renumbered f S' →
    Alike (fun a b => b = g a) (x.run.run S).1 (x'.run.run S').1 ∧
      (x.run.run S).2.Renumbered f (x'.run.run S').2

theorem renumbers_pure {g : α → α} {a b : α} (h : b = g a) : Renumbers f g (pure a) (pure b) :=
  fun _ _ hS => ⟨.ok h, hS⟩

theorem renumbers_throw {g : α → α} (e e' : SelectionError) :
    Renumbers f g (throw e : SelectM α) (throw e') :=
  fun _ _ hS => ⟨.error e e', hS⟩

theorem Renumbers.bind {g : α → α} {h : β → β} {x x' : SelectM α} {k k' : α → SelectM β}
    (hx : Renumbers f g x x') (hk : ∀ a, Renumbers f h (k a) (k' (g a))) :
    Renumbers f h (x >>= k) (x' >>= k') := by
  intro S S' hS
  obtain ⟨hresult, hT⟩ := hx S S' hS
  rcases hrun : x.run.run S with ⟨r, T⟩
  rcases hrun' : x'.run.run S' with ⟨r', T'⟩
  rw [hrun, hrun'] at hresult hT
  cases hresult with
  | error e e' =>
      rw [run_bind_error hrun, run_bind_error hrun']
      exact ⟨.error e e', hT⟩
  | @ok a b hab =>
      cases hab
      rw [run_bind_ok hrun, run_bind_ok hrun']
      exact hk a T T' hT

theorem Renumbers.map {g : α → α} {h : β → β} {x x' : SelectM α} {k : α → β}
    (hx : Renumbers f g x x') (hk : ∀ a, k (g a) = h (k a)) :
    Renumbers f h (k <$> x) (k <$> x') := by
  rw [map_eq_pure_bind, map_eq_pure_bind]
  exact hx.bind fun a => renumbers_pure (hk a)

/-- An action without a result. -/
abbrev RenumbersUnit (f : Renumbering) (x x' : SelectM Unit) : Prop := Renumbers f id x x'

theorem renumbers_emit {op op' : Operation} (h : op' = op.rename f) :
    RenumbersUnit f (emit op) (emit op') := by
  intro S S' hS
  refine ⟨.ok rfl, hS.namer, ?_, hS.memoryArguments⟩
  change (S'.operations.push op').toList = (S.operations.push op).toList.map _
  simp [hS.operations, h]

theorem Renumbers.emit_bind {op op' : Operation} {g : α → α} {x x' : SelectM α}
    (hop : op' = op.rename f) (hx : Renumbers f g x x') :
    Renumbers f g (do emit op; x) (do emit op'; x') :=
  (renumbers_emit hop).bind fun _ => hx

theorem renumbers_fresh : Renumbers f f fresh fresh := fun _ _ hS =>
  ⟨.ok hS.namer.fresh, hS.namer.next, hS.operations, hS.memoryArguments⟩

theorem renumbers_reserveOutgoing (n : Nat) :
    RenumbersUnit f (reserveOutgoing n) (reserveOutgoing n) := fun _ _ hS =>
  ⟨.ok rfl, hS.namer, hS.operations, congrArg (max · n) hS.memoryArguments⟩

/-- An operation with a fresh destination. -/
theorem renumbers_into {op op' : Temp → Operation} (h : ∀ t, op' (f t) = (op t).rename f) :
    Renumbers f f (do let dst ← fresh; emit (op dst); return dst)
      (do let dst ← fresh; emit (op' dst); return dst) :=
  renumbers_fresh.bind fun dst => .emit_bind (h dst) (renumbers_pure rfl)

end Actions

/-! ## Tiles -/

section Tiles

variable {f : Renumbering} {target : Target} {left left' right right' value value' : SelectM Temp}
  {address address' : SelectM Address} {e l r : Exp}

@[simp] theorem immediate?_rename (f : Renumbering) (e : Exp) :
    immediate? (e.rename f) = immediate? e := by
  simp [immediate?]

@[simp] theorem isFramePointer_rename (f : Renumbering) (e : Exp) :
    isFramePointer target (e.rename f) = isFramePointer target e := by
  cases e <;> simp [Exp.rename, isFramePointer]

theorem renumbers_intoVirtual (h : Renumbers f f value value') :
    Renumbers f f (intoVirtual target value) (intoVirtual target value') := by
  refine h.bind fun t => ?_
  rw [f.isRegister]
  split
  · exact renumbers_into fun _ => rfl
  · exact renumbers_pure rfl

theorem renumbers_operand (h : Renumbers f f value value') :
    Renumbers f (Operand.rename f) (operand e value) (operand (e.rename f) value') := by
  unfold operand
  rw [immediate?_rename]
  split
  · exact renumbers_pure rfl
  · exact h.map fun _ => rfl

theorem renumbers_base (h : Renumbers f f value value') (offset : Int) :
    Renumbers f (Address.rename f) (do return .base (← value) offset)
      (do return .base (← value') offset) :=
  h.bind fun _ => renumbers_pure rfl

theorem renumbers_baseAddress (h : Renumbers f f value value') (offset : Int) :
    Renumbers f (Address.rename f) (baseAddress target e value offset)
      (baseAddress target (e.rename f) value' offset) := by
  unfold baseAddress
  rw [isFramePointer_rename]
  split
  · exact renumbers_pure rfl
  · exact renumbers_base h offset

theorem renumbers_sumAddress (hl : Renumbers f f left left') (hr : Renumbers f f right right')
    (hsum : Renumbers f f value value') :
    Renumbers f (Address.rename f) (sumAddress target l r left right value)
      (sumAddress target (l.rename f) (r.rename f) left' right' value') := by
  unfold sumAddress
  rw [immediate?_rename, immediate?_rename]
  split
  · exact renumbers_baseAddress hl _
  · exact renumbers_baseAddress hr _
  · exact renumbers_base hsum 0

theorem renumbers_differenceAddress (hl : Renumbers f f left left')
    (hdifference : Renumbers f f value value') :
    Renumbers f (Address.rename f) (differenceAddress target l r left value)
      (differenceAddress target (l.rename f) (r.rename f) left' value') := by
  unfold differenceAddress
  rw [Exp.constant?_rename]
  split
  · split
    · exact renumbers_baseAddress hl _
    · exact renumbers_base hdifference 0
  · exact renumbers_base hdifference 0

theorem renumbers_tempValue (t : Temp) :
    Renumbers f f (tempValue target t) (tempValue target (f t)) := by
  unfold tempValue
  simp only [f.eq_framePointer_iff]
  split
  · exact renumbers_into fun _ => rfl
  · exact renumbers_pure rfl

theorem renumbers_loadInto {dst dst' : Temp} (hdst : dst' = f dst)
    (h : Renumbers f (Address.rename f) address address') :
    RenumbersUnit f (loadInto dst address) (loadInto dst' address') := by
  cases hdst
  exact h.bind fun _ => renumbers_emit rfl

theorem renumbers_loadValue (h : Renumbers f (Address.rename f) address address') :
    Renumbers f f (loadValue address) (loadValue address') :=
  renumbers_fresh.bind fun _ => (renumbers_loadInto rfl h).bind fun _ => renumbers_pure rfl

theorem renumbers_arith {right right' : SelectM Operand} (op : ArithOp)
    (hl : Renumbers f f left left') (hr : Renumbers f (Operand.rename f) right right') :
    Renumbers f f (arith op left right) (arith op left' right') :=
  hl.bind fun _ => hr.bind fun _ => renumbers_fresh.bind fun _ =>
    .emit_bind rfl <| .emit_bind rfl <| renumbers_pure rfl

theorem renumbers_multiply (hl : Renumbers f f left left') (hr : Renumbers f f right right') :
    Renumbers f f (multiply target left right) (multiply target left' right') :=
  hl.bind fun _ => (renumbers_intoVirtual hr).bind fun _ =>
    .emit_bind (by simp [Operation.rename]) <| .emit_bind rfl <|
      renumbers_into fun _ => by simp [Operation.rename]

theorem renumbers_divide (hl : Renumbers f f left left') (hr : Renumbers f f right right') :
    Renumbers f f (divide target left right) (divide target left' right') :=
  hl.bind fun _ => (renumbers_intoVirtual hr).bind fun _ =>
    .emit_bind (by simp [Operation.rename]) <| .emit_bind rfl <| .emit_bind rfl <|
      renumbers_into fun _ => by simp [Operation.rename]

theorem renumbers_shift (op : ShiftOp) (hl : Renumbers f f left left')
    (hr : Renumbers f f right right') :
    Renumbers f f (shift target op r left right) (shift target op (r.rename f) left' right') := by
  refine hl.bind fun _ => ?_
  rw [Exp.constant?_rename]
  split
  · exact renumbers_fresh.bind fun _ => .emit_bind rfl <| .emit_bind rfl <| renumbers_pure rfl
  · exact (renumbers_intoVirtual hr).bind fun _ => renumbers_fresh.bind fun _ =>
      .emit_bind rfl <| .emit_bind (by simp [Operation.rename]) <| .emit_bind rfl <|
        renumbers_pure rfl

theorem renumbers_sum (hl : Renumbers f f left left') (hr : Renumbers f f right right') :
    Renumbers f f (sum target l r left right)
      (sum target (l.rename f) (r.rename f) left' right') := by
  unfold sum
  rw [isFramePointer_rename, immediate?_rename]
  split
  · exact renumbers_into fun _ => rfl
  · exact renumbers_arith _ hl (renumbers_operand hr)

theorem renumbers_binop (op : BinOp) (hl : Renumbers f f left left')
    (hr : Renumbers f f right right') :
    Renumbers f f (binop target op l r left right)
      (binop target op (l.rename f) (r.rename f) left' right') := by
  cases op with
  | plus => exact renumbers_sum hl hr
  | minus | and | or | xor => exact renumbers_arith _ hl (renumbers_operand hr)
  | mul => exact renumbers_multiply hl hr
  | div => exact renumbers_divide hl hr
  | lshift | rshift | arshift => exact renumbers_shift _ hl hr

/-! ### Calls -/

theorem renumbers_callee (h : Renumbers f f value value') :
    Renumbers f (Callee.rename f) (callee target e value)
      (callee target (e.rename f) value') := by
  have hindirect : Renumbers f (Callee.rename f) (Callee.indirect <$> intoVirtual target value)
      (Callee.indirect <$> intoVirtual target value') :=
    (renumbers_intoVirtual h).map fun _ => rfl
  cases e with
  | name l => exact renumbers_pure rfl
  | _ => exact hindirect

theorem renumbers_storeArguments (slot : Nat) (ts : List Temp) :
    RenumbersUnit f (storeArguments target slot ts) (storeArguments target slot (ts.map f)) := by
  induction ts generalizing slot with
  | nil => exact renumbers_pure rfl
  | cons v rest ih =>
      refine .emit_bind ?_ (ih (slot + 1))
      simp [argumentAddress, Operation.rename, Address.rename]

theorem renumbers_moveArguments {passed : List (Temp × Temp)} (h : ∀ e ∈ passed, f e.2 = e.2) :
    RenumbersUnit f (moveArguments passed) (moveArguments (passed.map fun e => (f e.1, e.2))) := by
  induction passed with
  | nil => exact renumbers_pure rfl
  | cons e rest ih =>
      rw [List.forall_mem_cons] at h
      exact .emit_bind (by simp [Operation.rename, h.1]) (ih h.2)

theorem renumbers_call {function function' : SelectM Callee}
    {arguments arguments' : SelectM (List Temp)}
    (hf : Renumbers f (Callee.rename f) function function')
    (hargs : Renumbers f (List.map f) arguments arguments') :
    RenumbersUnit f (call target function arguments) (call target function' arguments') := by
  refine hf.bind fun g => hargs.bind fun values => ?_
  have hregisters : ∀ t ∈ target.machine.roles.arguments, f t = t := fun t ht =>
    f.eq_self_of_role (m := target.machine) (by simp [Roles.all, ht])
  have hpassed : ∀ e ∈ values.zip target.machine.roles.arguments, f e.2 = e.2 := fun e he =>
    hregisters e.2 (List.of_mem_zip he).2
  have hzip : (values.map f).zip target.machine.roles.arguments
      = (values.zip target.machine.roles.arguments).map fun e => (f e.1, e.2) :=
    List.zip_map_left ..
  dsimp only
  rw [← List.map_drop, List.length_map, hzip]
  refine (renumbers_storeArguments 0 _).bind fun _ => (renumbers_reserveOutgoing _).bind fun _ =>
    (renumbers_moveArguments hpassed).bind fun _ => renumbers_emit ?_
  rw [Operation.rename, List.map_map, List.map_map]
  exact congrArg _ (List.map_congr_left fun e he => (hpassed e he).symm)

theorem renumbers_callValue {call call' : SelectM Unit} (h : RenumbersUnit f call call') :
    Renumbers f f (callValue target call) (callValue target call') :=
  h.bind fun _ => renumbers_into fun _ => by simp [Operation.rename]

/-! ### Statements -/

theorem renumbers_discard {α : Type} {g : α → α} {x x' : SelectM α} (h : Renumbers f g x x') :
    RenumbersUnit f (discard x) (discard x') :=
  h.map fun _ => rfl

theorem renumbers_jump (labels : List Label) (h : Renumbers f f value value') :
    RenumbersUnit f (jump e labels value) (jump (e.rename f) labels value') := by
  have hindirect : RenumbersUnit f (do let t ← value; emit (.jumpTo t labels))
      (do let t ← value'; emit (.jumpTo t labels)) :=
    h.bind fun _ => renumbers_emit rfl
  cases e with
  | name l => exact renumbers_emit rfl
  | _ => exact hindirect

theorem renumbers_cjump (op : RelOp) (ifTrue ifFalse : Label) (hl : Renumbers f f left left')
    (hr : Renumbers f f right right') :
    RenumbersUnit f (cjump op l r left right ifTrue ifFalse)
      (cjump op (l.rename f) (r.rename f) left' right' ifTrue ifFalse) := by
  unfold cjump
  rw [Exp.constant?_rename, Exp.constant?_rename]
  split
  · exact hr.bind fun _ => (renumbers_operand hl).bind fun _ => .emit_bind rfl (renumbers_emit rfl)
  · exact hl.bind fun _ => (renumbers_operand hr).bind fun _ => .emit_bind rfl (renumbers_emit rfl)

theorem renumbers_moveToMemory (ha : Renumbers f (Address.rename f) address address')
    (hv : Renumbers f f value value') :
    RenumbersUnit f (moveToMemory e address value) (moveToMemory (e.rename f) address' value') := by
  refine ha.bind fun _ => ?_
  rw [immediate?_rename]
  split
  · exact renumbers_emit rfl
  · exact hv.bind fun _ => renumbers_emit rfl

theorem renumbers_moveToTemp (t : Temp) {load? load?' : Option (SelectM Address)}
    (hload : Option.Rel (Renumbers f (Address.rename f)) load? load?')
    (hv : Renumbers f f value value') :
    RenumbersUnit f (moveToTemp t e load? value) (moveToTemp (f t) (e.rename f) load?' value') := by
  unfold moveToTemp
  rw [Exp.constant?_rename]
  cases e.constant? with
  | some c => cases hload <;> exact renumbers_emit rfl
  | none =>
      cases hload with
      | some h => exact renumbers_loadInto rfl h
      | none => exact hv.bind fun _ => renumbers_emit rfl

end Tiles

/-! ## Selection -/

section Selected

variable {f : Renumbering} {target : Target}

theorem renumbers_address {e : Exp} {x x' : SelectM Temp} (hx : Renumbers f f x x')
    (hoperands : ∀ op l r, e = .binop op l r →
      Renumbers f f (l.select target) ((l.rename f).select target) ∧
      Renumbers f f (r.select target) ((r.rename f).select target)) :
    Renumbers f (Address.rename f) (e.selectAddress target x)
      ((e.rename f).selectAddress target x') := by
  have hbase : Renumbers f (Address.rename f) (baseAddress target e x 0)
      (baseAddress target (e.rename f) x' 0) := renumbers_baseAddress hx 0
  cases e with
  | binop op l r =>
      obtain ⟨hl, hr⟩ := hoperands op l r rfl
      cases op with
      | plus => exact renumbers_sumAddress hl hr hx
      | minus => exact renumbers_differenceAddress hl hx
      | _ => exact hbase
  | _ => exact hbase

mutual

theorem renumbers_value : (e : Exp) →
    Renumbers f f (e.select target) ((e.rename f).select target)
  | .binop op l r => by
      rw [Exp.rename, Exp.select, Exp.select]
      exact renumbers_binop op (renumbers_value l) (renumbers_value r)
  | .mem a => by
      rw [Exp.rename, Exp.select, Exp.select]
      exact renumbers_loadValue (renumbers_address (renumbers_value a) (renumbers_operands a))
  | .temp t => by
      rw [Exp.rename, Exp.select, Exp.select]
      exact renumbers_tempValue t
  | .eseq s e => by
      rw [Exp.rename, Exp.select, Exp.select]
      exact (renumbers_statement s).bind fun _ => renumbers_value e
  | .name l => renumbers_into fun _ => rfl
  | .const c => renumbers_into fun _ => rfl
  | .call g args => by
      rw [Exp.rename, Exp.select, Exp.select]
      exact renumbers_callValue (renumbers_call (renumbers_callee (renumbers_value g))
        (renumbers_values args))

theorem renumbers_values : (es : List Exp) →
    Renumbers f (List.map f) (Exp.selectAll target es) (Exp.selectAll target (Exp.renameAll f es))
  | [] => renumbers_pure rfl
  | e :: es => by
      rw [Exp.renameAll, Exp.selectAll, Exp.selectAll]
      exact (renumbers_intoVirtual (renumbers_value e)).bind fun _ =>
        (renumbers_values es).bind fun _ => renumbers_pure rfl

theorem renumbers_operands : (e : Exp) → ∀ op l r, e = .binop op l r →
    Renumbers f f (l.select target) ((l.rename f).select target) ∧
      Renumbers f f (r.select target) ((r.rename f).select target)
  | .binop _ l r, _, _, _, rfl => ⟨renumbers_value l, renumbers_value r⟩

theorem renumbers_source : (e : Exp) → Option.Rel (Renumbers f (Address.rename f))
    (e.selectSource? target) ((e.rename f).selectSource? target)
  | .mem a => .some (renumbers_address (renumbers_value a) (renumbers_operands a))
  | .binop .. => .none
  | .temp _ => .none
  | .eseq .. => .none
  | .name _ => .none
  | .const _ => .none
  | .call .. => .none

theorem renumbers_destination {source : Exp} {load? load?' : Option (SelectM Address)}
    {value value' : SelectM Temp} (hload : Option.Rel (Renumbers f (Address.rename f)) load? load?')
    (hv : Renumbers f f value value') : (d : Exp) →
    RenumbersUnit f (d.selectDestination target source load? value)
      ((d.rename f).selectDestination target (source.rename f) load?' value')
  | .mem a => by
      rw [Exp.rename, Exp.selectDestination, Exp.selectDestination]
      exact renumbers_moveToMemory (renumbers_address (renumbers_value a) (renumbers_operands a)) hv
  | .temp t => by
      rw [Exp.rename, Exp.selectDestination, Exp.selectDestination]
      exact renumbers_moveToTemp t hload hv
  | .eseq s d => by
      rw [Exp.rename, Exp.selectDestination, Exp.selectDestination]
      exact (renumbers_statement s).bind fun _ => renumbers_destination hload hv d
  | .binop .. => renumbers_throw _ _
  | .name _ => renumbers_throw _ _
  | .const _ => renumbers_throw _ _
  | .call .. => renumbers_throw _ _

theorem renumbers_statement : (s : Stm) →
    RenumbersUnit f (s.select target) ((s.rename f).select target)
  | .seq a b => by
      rw [Stm.rename, Stm.select, Stm.select]
      exact (renumbers_statement a).bind fun _ => renumbers_statement b
  | .label l => renumbers_emit rfl
  | .jump e labels => by
      rw [Stm.rename, Stm.select, Stm.select]
      exact renumbers_jump labels (renumbers_value e)
  | .cjump op l r t u => by
      rw [Stm.rename, Stm.select, Stm.select]
      exact renumbers_cjump op t u (renumbers_value l) (renumbers_value r)
  | .move d s => by
      rw [Stm.rename, Stm.select, Stm.select]
      exact renumbers_destination (renumbers_source s) (renumbers_value s) d
  | .exp (.call g args) => by
      rw [Stm.rename, Exp.rename, Stm.select, Stm.select]
      exact renumbers_call (renumbers_callee (renumbers_value g)) (renumbers_values args)
  | .exp (.binop op l r) => renumbers_discard (renumbers_value (.binop op l r))
  | .exp (.mem a) => renumbers_discard (renumbers_value (.mem a))
  | .exp (.temp t) => renumbers_discard (renumbers_value (.temp t))
  | .exp (.eseq s e) => renumbers_discard (renumbers_value (.eseq s e))
  | .exp (.name l) => renumbers_discard (renumbers_value (.name l))
  | .exp (.const c) => renumbers_discard (renumbers_value (.const c))

end

theorem renumbers_statements (body : List Stm) :
    RenumbersUnit f (Stm.selectAll target body)
      (Stm.selectAll target (body.map (Stm.rename f))) := by
  induction body with
  | nil => exact renumbers_pure rfl
  | cons s rest ih =>
      rw [List.map_cons, Stm.selectAll, Stm.selectAll]
      exact (renumbers_statement s).bind fun _ => ih

/-- A body with the exit behind it. -/
theorem renumbers_body (target : Target) (body : List Stm) :
    RenumbersUnit f (do Stm.selectAll target body; emit .exit)
      (do Stm.selectAll target (body.map (Stm.rename f)); emit .exit) :=
  (renumbers_statements body).bind fun _ => renumbers_emit rfl

/-- The instructions of renumbered operations. -/
theorem State.Renumbered.instrs {S S' : State} (h : S.Renumbered f S') (target : Target) :
    S'.operations.toList.map (·.instr target)
      = (S.operations.toList.map (·.instr target)).map (Instr.rename f) := by
  rw [h.operations, List.map_map, List.map_map]
  exact List.map_congr_left fun op _ => op.instr_rename f target

end Selected

end Selection

section Procedures

open Selection

variable {f : Renumbering} {n n' : Namer}

/-- Corresponding bodies are selected in corresponding instructions for one frame. -/
theorem Frame.select_rename (hn : f.Follows n n') (frame : Frame) (m : Machine) (body : List Stm) :
    Alike (fun s s' : Selected => s'.instrs = s.instrs.map (Instr.rename f) ∧ s'.frame = s.frame)
        (frame.select m body n).1 (frame.select m (body.map (Stm.rename f)) n').1 ∧
      f.Follows (frame.select m body n).2 (frame.select m (body.map (Stm.rename f)) n').2 := by
  obtain ⟨hresult, hS⟩ :=
    renumbers_body ⟨m, frame.sizeSymbol⟩ body { namer := n } { namer := n' } ⟨hn, rfl, rfl⟩
  refine ⟨hresult.map fun _ _ _ => ⟨hS.instrs _, ?_⟩, hS.namer⟩
  exact congrArg frame.reserveOutgoing hS.memoryArguments

end Procedures

end TreeCompiler
