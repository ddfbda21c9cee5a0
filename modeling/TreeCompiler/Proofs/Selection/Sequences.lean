import TreeCompiler.Proofs.Selection.Computation

/-!
# Sequences — where the statements of a tree are in the selected code

Statements stand in sequences: the body of a procedure is one, and so is each statement that an
expression carries out, however deep in the tree it is (`Stm.nested`).  Selection only appends
(`Follows`), so an action that selects a sequence along the way has its code in one piece
(`Covers`).
-/

namespace TreeCompiler

/-! ## Sequences of a tree -/

/-- A statement as a sequence. -/
def Stm.sequence : Stm → List Stm
  | .seq a b => a.sequence ++ b.sequence
  | s => [s]

mutual

/-- The sequences inside an expression. -/
def Exp.nested : Exp → List (List Stm)
  | .binop _ l r => l.nested ++ r.nested
  | .mem e => e.nested
  | .temp _ => []
  | .eseq s e => s.sequence :: (s.nested ++ e.nested)
  | .name _ => []
  | .const _ => []
  | .call f args => f.nested ++ Exp.nestedAll args

def Exp.nestedAll : List Exp → List (List Stm)
  | [] => []
  | e :: es => e.nested ++ Exp.nestedAll es

/-- The sequences inside the expressions of a statement. -/
def Stm.nested : Stm → List (List Stm)
  | .seq a b => a.nested ++ b.nested
  | .label _ => []
  | .jump e _ => e.nested
  | .cjump _ l r _ _ => l.nested ++ r.nested
  | .move d s => d.nested ++ s.nested
  | .exp e => e.nested

end

/-- All sequences of a body, the body itself first. -/
def Stm.sequences (body : List Stm) : List (List Stm) :=
  body.flatMap Stm.sequence :: body.flatMap Stm.nested

namespace Selection

section Sequence

variable {target : Target}

theorem selectAll_append (first second : List Stm) :
    Stm.selectAll target (first ++ second) =
      (do Stm.selectAll target first; Stm.selectAll target second) := by
  induction first with
  | nil => rw [List.nil_append, Stm.selectAll, pure_bind]
  | cons s rest ih => rw [List.cons_append, Stm.selectAll, Stm.selectAll, ih, bind_assoc]

theorem selectAll_singleton (s : Stm) : Stm.selectAll target [s] = s.select target := by
  rw [Stm.selectAll, Stm.selectAll]
  exact bind_pure _

/-- A statement is selected as its sequence is. -/
theorem selectAll_sequence (s : Stm) : Stm.selectAll target s.sequence = s.select target := by
  fun_induction Stm.sequence s with
  | case1 a b iha ihb => rw [selectAll_append, iha, ihb, Stm.select]
  | case2 s => exact selectAll_singleton s

theorem selectAll_flatMap_sequence (body : List Stm) :
    Stm.selectAll target (body.flatMap Stm.sequence) = Stm.selectAll target body := by
  induction body with
  | nil => rfl
  | cons s rest ih =>
      rw [List.flatMap_cons, selectAll_append, selectAll_sequence, ih, Stm.selectAll]

end Sequence

/-! ## Pieces of a selection -/

/-- Selection went on from one state to another. -/
def Follows (S S' : State) : Prop := ∃ ops, Extends S S' ops

theorem Follows.refl (S : State) : Follows S S := ⟨[], .refl S⟩

theorem Follows.trans {S S' S'' : State} (h : Follows S S') (h' : Follows S' S'') :
    Follows S S'' := by
  obtain ⟨ops, hext⟩ := h
  obtain ⟨ops', hext'⟩ := h'
  exact ⟨_, hext.trans hext'⟩

/-- An action only appends, and wherever it succeeds each of some sequences was selected. -/
structure Covers {α : Type} (target : Target) (sequences : List (List Stm)) (x : SelectM α) :
    Prop where
  appends : ∀ S, Follows S (x.run.run S).2
  selects : ∀ B ∈ sequences, ∀ S a S', x.run.run S = (.ok a, S') →
    ∃ S₁ S₂, (Stm.selectAll target B).run.run S₁ = (.ok (), S₂) ∧ Follows S S₁ ∧ Follows S₂ S'

section Covers

variable {target : Target} {α β : Type} {x : SelectM α} {f : α → SelectM β}
  {Bs Cs : List (List Stm)}

theorem run_bind_error {S S' : State} {e : SelectionError} (h : x.run.run S = (.error e, S')) :
    (x >>= f).run.run S = (.error e, S') := by
  simp only [ExceptT.run_bind, StateT.run_bind, h]
  rfl

/-- Actions in sequence succeed one after the other. -/
theorem exists_of_run_bind {S S' : State} {b : β} (h : (x >>= f).run.run S = (.ok b, S')) :
    ∃ a S₁, x.run.run S = (.ok a, S₁) ∧ (f a).run.run S₁ = (.ok b, S') := by
  rcases hx : x.run.run S with ⟨a | a, S₁⟩
  · rw [run_bind_error hx] at h
    cases h
  · exact ⟨a, S₁, rfl, run_bind_ok hx ▸ h⟩

theorem Covers.follows {S S' : State} {a : Except SelectionError α} (h : Covers target Bs x)
    (hrun : x.run.run S = (a, S')) : Follows S S' := by
  have happends := h.appends S
  rwa [hrun] at happends

theorem Covers.mono (h : Covers target Bs x) (hsub : Cs ⊆ Bs) : Covers target Cs x :=
  ⟨h.appends, fun B hB => h.selects B (hsub hB)⟩

theorem Covers.bind (hx : Covers target Bs x) (hf : ∀ a, Covers target Cs (f a)) :
    Covers target (Bs ++ Cs) (x >>= f) where
  appends S := by
    rcases hrun : x.run.run S with ⟨a | a, S₁⟩
    · rw [run_bind_error hrun]
      exact hx.follows hrun
    · rw [run_bind_ok hrun]
      exact (hx.follows hrun).trans ((hf a).appends S₁)
  selects B hB S b S' hrun := by
    obtain ⟨a, S₁, hx₁, hf₁⟩ := exists_of_run_bind hrun
    rcases List.mem_append.1 hB with hB | hB
    · obtain ⟨S₂, S₃, hB', hfirst, hlast⟩ := hx.selects B hB S a S₁ hx₁
      exact ⟨S₂, S₃, hB', hfirst, hlast.trans ((hf a).follows hf₁)⟩
    · obtain ⟨S₂, S₃, hB', hfirst, hlast⟩ := (hf a).selects B hB S₁ b S' hf₁
      exact ⟨S₂, S₃, hB', (hx.follows hx₁).trans hfirst, hlast⟩

/-- What follows selects nothing. -/
theorem Covers.bind_nil (hx : Covers target Bs x) (hf : ∀ a, Covers target [] (f a)) :
    Covers target Bs (x >>= f) := List.append_nil Bs ▸ hx.bind hf

/-- What comes first selects nothing. -/
theorem Covers.nil_bind (hx : Covers target [] x) (hf : ∀ a, Covers target Cs (f a)) :
    Covers target Cs (x >>= f) := hx.bind hf

theorem Covers.of_appends (h : ∀ S, Follows S (x.run.run S).2) : Covers target [] x :=
  ⟨h, fun _ hB => absurd hB List.not_mem_nil⟩

theorem covers_pure (a : α) : Covers target [] (pure a : SelectM α) :=
  .of_appends fun S => .refl S

theorem covers_throw (e : SelectionError) : Covers target Bs (throw e : SelectM α) :=
  ⟨fun S => .refl S, fun _ _ _ _ _ hrun => by cases hrun⟩

theorem extends_of_emit {S S' : State} {op : Operation}
    (h : (emit op).run.run S = (.ok (), S')) : Extends S S' [op] := by
  cases h
  exact ⟨Array.toList_push, Nat.le_refl _, Nat.le_refl _⟩

theorem covers_emit (op : Operation) : Covers target [] (emit op) :=
  .of_appends fun _ => ⟨[op], extends_of_emit rfl⟩

theorem covers_fresh : Covers target [] fresh :=
  .of_appends fun _ => ⟨[], (List.append_nil _).symm, Nat.le_succ _, Nat.le_refl _⟩

theorem covers_reserveOutgoing (n : Nat) : Covers target [] (reserveOutgoing n) :=
  .of_appends fun _ => ⟨[], (List.append_nil _).symm, Nat.le_refl _, Nat.le_max_left _ _⟩

end Covers

/-! ## Bodies of procedures -/

section Bodies

variable {frame : Frame} {m : Machine} {body : List Stm} {n n' : Namer} {selected : Selected}

/-- Where selection succeeds, its instructions are the operations selected for the statements and
the exit. -/
theorem exists_of_select (h : frame.select m body n = (.ok selected, n')) :
    ∃ S, (Stm.selectAll ⟨m, frame.sizeSymbol⟩ body).run.run { namer := n } = (.ok (), S) ∧
      selected.instrs = (S.operations.toList ++ [Operation.exit]).map
        (Operation.instr ⟨m, frame.sizeSymbol⟩) ∧
      selected.frame = frame.reserveOutgoing S.memoryArguments := by
  unfold Frame.select at h
  dsimp only at h
  rcases hrun : (Stm.selectAll ⟨m, frame.sizeSymbol⟩ body).run.run { namer := n } with ⟨e | u, S⟩
  · rw [run_bind_error hrun] at h
    cases h
  · rw [run_bind_ok hrun] at h
    cases h
    exact ⟨S, rfl, by simp, rfl⟩

/-- The temps that selection handed out stay handed out. -/
theorem namer_of_select {S : State} (h : frame.select m body n = (.ok selected, n'))
    (hrun : (Stm.selectAll ⟨m, frame.sizeSymbol⟩ body).run.run { namer := n } = (.ok (), S)) :
    n' = S.namer := by
  unfold Frame.select at h
  dsimp only at h
  rw [run_bind_ok hrun] at h
  cases h
  rfl

end Bodies

end Selection

end TreeCompiler
