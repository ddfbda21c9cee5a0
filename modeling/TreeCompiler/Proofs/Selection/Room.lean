import TreeCompiler.Proofs.Selection.Marks
import TreeCompiler.Proofs.Selection.Passing

/-!
# Room — how many words selection reserves for arguments

Selection comes to every call of a body, however deep it is, and reserves room for the arguments
that it passes in memory.  What it ends with is the room for the widest call
(`memoryArguments_eq_widestCall`).
-/

namespace TreeCompiler

namespace Selection

/-- How many arguments a call passes in memory. -/
def memoryArguments (m : Machine) (c : Exp × List Exp) : Nat :=
  c.2.length - m.roles.arguments.length

/-- The most arguments that any call in a body passes in memory. -/
def widestCall (m : Machine) (body : List Stm) : Nat :=
  ((body.flatMap Stm.calls).map (memoryArguments m)).foldl max 0

/-- The room that is reserved. -/
def Mark.room? : Mark → Option Nat
  | .room n => some n
  | _ => none

theorem foldl_widen_eq (ms : List Mark) (n : Nat) :
    ms.foldl Mark.widen n = (ms.filterMap Mark.room?).foldl max n := by
  induction ms generalizing n with
  | nil => rfl
  | cons mark ms ih => cases mark <;> exact ih _

section Rooms

variable {target : Target}

/-- The calls and the room reserved in two parts of a tree. -/
theorem rooms_append {ms ms' : List Mark} {cs cs' : List (Exp × List Exp)}
    (h : (ms.filterMap Mark.room?).Perm (cs.map (memoryArguments target.machine)))
    (h' : (ms'.filterMap Mark.room?).Perm (cs'.map (memoryArguments target.machine))) :
    ((ms ++ ms').filterMap Mark.room?).Perm ((cs ++ cs').map (memoryArguments target.machine)) := by
  rw [List.filterMap_append, List.map_append]
  exact h.append h'

theorem rooms_passingMarks (target : Target) (count : Nat) :
    (passingMarks target count).filterMap Mark.room? =
      [count - target.machine.roles.arguments.length] := by
  have hpassed : ∀ slots : List Nat, (slots.map Mark.passed).filterMap Mark.room? = [] := by
    intro slots
    rw [List.filterMap_map]
    exact List.filterMap_eq_nil_iff.2 fun _ _ => rfl
  rw [passingMarks, List.filterMap_append, hpassed]
  rfl

theorem rooms_callMarks {f : Exp} {args : List Exp} {ms ms' : List Mark}
    (hf : (ms.filterMap Mark.room?).Perm (f.calls.map (memoryArguments target.machine)))
    (hargs : (ms'.filterMap Mark.room?).Perm
      ((Exp.callsAll args).map (memoryArguments target.machine))) :
    ((callMarks target f ms ms' args.length).filterMap Mark.room?).Perm
      ((Exp.call f args).calls.map (memoryArguments target.machine)) := by
  -- the room of a call is reserved behind those inside it
  have hlast : ∀ {ks ks' : List Nat} {k : Nat}, ks.Perm ks' → (ks ++ [k]).Perm (k :: ks') :=
    fun h => (List.perm_append_singleton _ _).trans (h.cons _)
  rw [Exp.calls, List.map_cons]
  unfold callMarks
  split
  · rw [List.filterMap_append, List.filterMap_append, rooms_passingMarks]
    exact hlast hargs
  · rw [List.filterMap_append, List.filterMap_append, rooms_passingMarks, ← List.append_assoc,
      List.map_append]
    exact hlast (hf.append hargs)

theorem rooms_mention (ls : List Label) : [Mark.mention ls].filterMap Mark.room? = [] := rfl

mutual

/-- Room is reserved for each call of a tree. -/
theorem rooms_value : ∀ e : Exp, ((e.marks target).filterMap Mark.room?).Perm
    (e.calls.map (memoryArguments target.machine))
  | .binop _ l r => rooms_append (rooms_value l) (rooms_value r)
  | .mem e => rooms_value e
  | .temp _ => .nil
  | .eseq s e => rooms_append (rooms_statement s) (rooms_value e)
  | .name _ => .nil
  | .const _ => .nil
  | .call f args => rooms_callMarks (rooms_value f) (rooms_values args)

theorem rooms_values : ∀ es : List Exp, ((Exp.marksAll target es).filterMap Mark.room?).Perm
    ((Exp.callsAll es).map (memoryArguments target.machine))
  | [] => .nil
  | e :: es => rooms_append (rooms_value e) (rooms_values es)

theorem rooms_statement : ∀ s : Stm, ((s.marks target).filterMap Mark.room?).Perm
    (s.calls.map (memoryArguments target.machine))
  | .seq a b => rooms_append (rooms_statement a) (rooms_statement b)
  | .label _ => .nil
  | .jump e labels => by
      have h := rooms_value e
      rw [Stm.marks, Stm.calls]
      unfold jumpMarks
      split
      · exact h
      · rwa [List.filterMap_append, rooms_mention, List.append_nil]
  | .cjump _ l r t f => by
      rw [Stm.marks, ← List.append_assoc, List.filterMap_append, rooms_mention, List.append_nil]
      exact rooms_append (rooms_value l) (rooms_value r)
  | .move d s => rooms_append (rooms_value d) (rooms_value s)
  | .exp e => rooms_value e

end

/-- The room that selection reserves is that of the widest call. -/
theorem foldl_widen_eq_widestCall (body : List Stm) :
    (body.flatMap (Stm.marks target)).foldl Mark.widen 0 = widestCall target.machine body := by
  have hrooms : ((body.flatMap (Stm.marks target)).filterMap Mark.room?).Perm
      ((body.flatMap Stm.calls).map (memoryArguments target.machine)) := by
    induction body with
    | nil => exact .nil
    | cons s rest ih => exact rooms_append (rooms_statement s) ih
  rw [foldl_widen_eq, widestCall]
  exact hrooms.foldl_eq 0

/-- The room is there when the statements of the body are selected. -/
theorem memoryArguments_eq_widestCall {body : List Stm} {n : Namer} {S : State}
    (h : (Stm.selectAll target body).run.run { namer := n } = (.ok (), S)) :
    S.memoryArguments = widestCall target.machine body :=
  ((yields_statements body).run h).2.2.trans (foldl_widen_eq_widestCall body)

end Rooms

end Selection

end TreeCompiler
