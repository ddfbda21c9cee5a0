import TreeCompiler.Proofs.Selection.Pieces

/-!
# Passing — the code of each call of a tree

When callee and arguments are in temps, a call stores the arguments that go into memory, moves the
others to their registers, and calls (`passing`).  This is one piece of the code for a body, for
each call in it however deep it is, and the area for arguments in memory was reserved for all of
them (`exists_passing`).
-/

namespace TreeCompiler

/-! ## Calls of a tree -/

mutual

/-- The calls inside an expression: what is called, and the arguments. -/
def Exp.calls : Exp → List (Exp × List Exp)
  | .binop _ l r => l.calls ++ r.calls
  | .mem e => e.calls
  | .temp _ => []
  | .eseq s e => s.calls ++ e.calls
  | .name _ => []
  | .const _ => []
  | .call f args => (f, args) :: (f.calls ++ Exp.callsAll args)

def Exp.callsAll : List Exp → List (Exp × List Exp)
  | [] => []
  | e :: es => e.calls ++ Exp.callsAll es

def Stm.calls : Stm → List (Exp × List Exp)
  | .seq a b => a.calls ++ b.calls
  | .label _ => []
  | .jump e _ => e.calls
  | .cjump _ l r _ _ => l.calls ++ r.calls
  | .move d s => d.calls ++ s.calls
  | .exp e => e.calls

end

/-- A call as a sequence of one statement. -/
def callSequence (c : Exp × List Exp) : List Stm := [.exp (.call c.1 c.2)]

theorem map_append_subset {cs ds : List (Exp × List Exp)} {as bs : List (List Stm)}
    (h : cs.map callSequence ⊆ as) (h' : ds.map callSequence ⊆ bs) :
    (cs ++ ds).map callSequence ⊆ as ++ bs :=
  List.map_append ▸ append_subset_append h h'

mutual

theorem Exp.calls_subset : ∀ e : Exp, e.calls.map callSequence ⊆ e.parts
  | .binop _ l r => map_append_subset l.calls_subset r.calls_subset
  | .mem e => e.calls_subset
  | .temp _ => List.nil_subset _
  | .eseq s e => fun _ hB => List.mem_cons_of_mem _
      (map_append_subset s.calls_subset e.calls_subset hB)
  | .name _ => List.nil_subset _
  | .const _ => List.nil_subset _
  | .call f args => List.cons_subset_cons _
      (map_append_subset f.calls_subset (Exp.callsAll_subset args))

theorem Exp.callsAll_subset : ∀ es : List Exp, (Exp.callsAll es).map callSequence ⊆ Exp.partsAll es
  | [] => List.nil_subset _
  | e :: es => map_append_subset e.calls_subset (Exp.callsAll_subset es)

theorem Stm.calls_subset : ∀ s : Stm, s.calls.map callSequence ⊆ s.parts
  | .seq a b => map_append_subset a.calls_subset b.calls_subset
  | .label _ => List.nil_subset _
  | .jump e _ => e.calls_subset
  | .cjump _ l r _ _ => map_append_subset l.calls_subset r.calls_subset
  | .move d s => map_append_subset d.calls_subset s.calls_subset
  | .exp e => e.calls_subset

end

/-- The temp through which a call is made. -/
def Callee.temp? : Callee → Option Temp
  | .direct _ => none
  | .indirect t => some t

namespace Selection

variable {target : Target} {S S' : State}

/-! ## Passing arguments -/

/-- Stores of arguments to the words from number `slot` on. -/
def stores (target : Target) (slot : Nat) : List Temp → List Operation
  | [] => []
  | v :: rest => .store v (argumentAddress target slot) :: stores target (slot + 1) rest

/-- Copies of arguments to registers. -/
def moves (passed : List (Temp × Temp)) : List Operation := passed.map fun e => .copy e.2 e.1

/-- What a call does with callee and arguments in temps. -/
def passing (target : Target) (f : Callee) (values : List Temp) : List Operation :=
  stores target 0 (values.drop target.machine.roles.arguments.length) ++
    (moves (values.zip target.machine.roles.arguments) ++
      [.call f ((values.zip target.machine.roles.arguments).map (·.2))])

theorem getElem?_stores (slot : Nat) (ts : List Temp) (j : Nat) : (stores target slot ts)[j]? =
    ts[j]?.map fun v => .store v (argumentAddress target (slot + j)) := by
  induction ts generalizing slot j with
  | nil => rfl
  | cons v rest ih =>
      cases j with
      | zero => rfl
      | succ j =>
          rw [stores, List.getElem?_cons_succ, List.getElem?_cons_succ, ih, Nat.add_right_comm,
            Nat.add_assoc]

theorem run_storeArguments (ts : List Temp) (slot : Nat) (S : State) :
    (storeArguments target slot ts).run.run S =
      (.ok (), { S with operations := S.operations ++ (stores target slot ts).toArray }) := by
  induction ts generalizing slot S with
  | nil =>
      rw [stores, Array.append_empty]
      rfl
  | cons v rest ih =>
      have hemit : (emit (.store v (argumentAddress target slot))).run.run S = (.ok (), { S with
          operations := S.operations.push (.store v (argumentAddress target slot)) }) := rfl
      refine (run_bind_ok hemit).trans ((ih (slot + 1) _).trans ?_)
      simp [stores]

theorem run_moveArguments (passed : List (Temp × Temp)) (S : State) :
    (moveArguments passed).run.run S =
      (.ok (), { S with operations := S.operations ++ (moves passed).toArray }) := by
  induction passed generalizing S with
  | nil =>
      rw [moves, List.map_nil, Array.append_empty]
      rfl
  | cons e rest ih =>
      have hemit : (emit (.copy e.2 e.1)).run.run S =
          (.ok (), { S with operations := S.operations.push (.copy e.2 e.1) }) := rfl
      refine (run_bind_ok hemit).trans ((ih _).trans ?_)
      simp [moves]

/-! ## The code of a call -/

/-- Each argument has a value. -/
theorem length_of_selectAll {es : List Exp} {values : List Temp}
    (h : (Exp.selectAll target es).run.run S = (.ok values, S')) : values.length = es.length := by
  induction es generalizing values S S' with
  | nil =>
      rw [Exp.selectAll] at h
      cases h
      rfl
  | cons e es ih =>
      rw [Exp.selectAll] at h
      obtain ⟨t, S₁, -, h⟩ := exists_of_run_bind h
      obtain ⟨ts, S₂, hrest, h⟩ := exists_of_run_bind h
      cases h
      rw [List.length_cons, ih hrest, List.length_cons]

/-- Pass the values of arguments, and call. -/
def pass (target : Target) (f : Callee) (values : List Temp) : SelectM Unit := do
  storeArguments target 0 (values.drop target.machine.roles.arguments.length)
  reserveOutgoing (values.length - target.machine.roles.arguments.length)
  moveArguments (values.zip target.machine.roles.arguments)
  emit (.call f ((values.zip target.machine.roles.arguments).map (·.2)))

theorem call_eq (function : SelectM Callee) (arguments : SelectM (List Temp)) :
    call target function arguments = function >>= fun f => arguments >>= pass target f := rfl

/-- What a call uses: the temp of the callee, and the registers that carry arguments. -/
theorem uses_call (target : Target) (f : Callee) (registers : List Temp) :
    ((Operation.call f registers).instr target).uses = f.temp?.toList ++ registers := by
  cases f <;> rfl

/-- Values are passed in an area that has room for them. -/
theorem extends_of_pass {f : Callee} {values : List Temp}
    (h : (pass target f values).run.run S = (.ok (), S')) :
    Extends S S' (passing target f values) ∧
      values.length - target.machine.roles.arguments.length ≤ S'.memoryArguments := by
  have hreserve : ∀ S : State, (reserveOutgoing (values.length -
      target.machine.roles.arguments.length)).run.run S = (.ok (), { S with
        memoryArguments := max S.memoryArguments
          (values.length - target.machine.roles.arguments.length) }) := fun _ => rfl
  rw [pass, run_bind_ok (run_storeArguments _ _ _), run_bind_ok (hreserve _),
    run_bind_ok (run_moveArguments _ _)] at h
  cases h
  refine ⟨⟨?_, Nat.le_refl _, Nat.le_max_left _ _⟩, Nat.le_max_right _ _⟩
  simp [passing]

/-- A call evaluates callee and arguments and passes them, in an area that has room for them. -/
theorem exists_of_call {function : SelectM Callee} {arguments : SelectM (List Temp)}
    (h : (call target function arguments).run.run S = (.ok (), S')) :
    ∃ f values S₁ S₂, function.run.run S = (.ok f, S₁) ∧
      arguments.run.run S₁ = (.ok values, S₂) ∧ Extends S₂ S' (passing target f values) ∧
      values.length - target.machine.roles.arguments.length ≤ S'.memoryArguments := by
  rw [call_eq] at h
  obtain ⟨f, S₁, hfunction, h⟩ := exists_of_run_bind h
  obtain ⟨values, S₂, hvalues, h⟩ := exists_of_run_bind h
  exact ⟨f, values, S₁, S₂, hfunction, hvalues, extends_of_pass h⟩

/-- Each call of a body is selected along the way. -/
theorem exists_call {body : List Stm} {f : Exp} {args : List Exp}
    (hcall : (f, args) ∈ body.flatMap Stm.calls)
    (hrun : (Stm.selectAll target body).run.run S = (.ok (), S')) :
    ∃ S₁ S₂, Follows S S₁ ∧ (call target (callee target f (f.select target))
      (Exp.selectAll target args)).run.run S₁ = (.ok (), S₂) ∧ Follows S₂ S' := by
  have hpart : callSequence (f, args) ∈ body.flatMap Stm.parts := by
    obtain ⟨s, hs, hcall⟩ := List.mem_flatMap.1 hcall
    exact List.mem_flatMap.2 ⟨s, hs, s.calls_subset (List.mem_map_of_mem hcall)⟩
  obtain ⟨S₁, S₂, hsequence, hbefore, hafter⟩ := (covers_parts body).selects _ hpart S () S' hrun
  rw [callSequence, selectAll_singleton, Stm.select] at hsequence
  exact ⟨S₁, S₂, hbefore, hsequence, hafter⟩

/-- The code of each call of a body passes its arguments in one piece, in an area that has room for
those in memory. -/
theorem exists_passing {body : List Stm} {f : Exp} {args : List Exp}
    (hcall : (f, args) ∈ body.flatMap Stm.calls)
    (hrun : (Stm.selectAll target body).run.run S = (.ok (), S')) :
    ∃ before callee values behind,
      S'.operations.toList = before ++ (passing target callee values ++ behind) ∧
      values.length = args.length ∧
      args.length - target.machine.roles.arguments.length ≤ S'.memoryArguments := by
  obtain ⟨S₁, S₂, -, hselect, ops, hafter⟩ := exists_call hcall hrun
  obtain ⟨callee, values, S₃, S₄, -, hvalues, hpassing, hroom⟩ := exists_of_call hselect
  have hlength := length_of_selectAll hvalues
  refine ⟨S₄.operations.toList, callee, values, ops, ?_, hlength, ?_⟩
  · rw [hafter.operations, hpassing.operations, List.append_assoc]
  · exact hlength ▸ hroom.trans hafter.memoryArguments_le

end Selection

end TreeCompiler
