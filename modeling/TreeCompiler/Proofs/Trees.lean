import TreeCompiler.Tree.Basic

/-!
# Trees — the temps that a tree mentions, and those that it moves to

The largest temp of a tree bounds the temps that it mentions (`Procedure.le_maxTemp`), and the
namer of a file continues behind those of all its procedures (`Procedure.le_maxTempAll`).
-/

namespace TreeCompiler

/-! ## Temps that occur -/

mutual

/-- The temps that occur in an expression. -/
def Exp.temps : Exp → List Temp
  | .binop _ l r => l.temps ++ r.temps
  | .mem a => a.temps
  | .temp t => [t]
  | .eseq s e => s.temps ++ e.temps
  | .name _ => []
  | .const _ => []
  | .call f args => f.temps ++ Exp.tempsAll args

def Exp.tempsAll : List Exp → List Temp
  | [] => []
  | e :: es => e.temps ++ Exp.tempsAll es

/-- The temps that occur in a statement. -/
def Stm.temps : Stm → List Temp
  | .seq a b => a.temps ++ b.temps
  | .label _ => []
  | .jump e _ => e.temps
  | .cjump _ l r _ _ => l.temps ++ r.temps
  | .move d s => d.temps ++ s.temps
  | .exp e => e.temps

end

/-- The temps that occur in the body of a procedure. -/
def Procedure.temps (p : Procedure) : List Temp := p.body.flatMap Stm.temps

/-! ## Temps that are moved to -/

/-- The temp that an expression denotes as the destination of a move. -/
def Exp.destination? : Exp → Option Temp
  | .temp t => some t
  | .eseq _ d => d.destination?
  | _ => none

mutual

/-- The temps to which an expression moves something. -/
def Exp.assigned : Exp → List Temp
  | .binop _ l r => l.assigned ++ r.assigned
  | .mem a => a.assigned
  | .temp _ => []
  | .eseq s e => s.assigned ++ e.assigned
  | .name _ => []
  | .const _ => []
  | .call f args => f.assigned ++ Exp.assignedAll args

def Exp.assignedAll : List Exp → List Temp
  | [] => []
  | e :: es => e.assigned ++ Exp.assignedAll es

/-- The temps to which a statement moves something. -/
def Stm.assigned : Stm → List Temp
  | .seq a b => a.assigned ++ b.assigned
  | .label _ => []
  | .jump e _ => e.assigned
  | .cjump _ l r _ _ => l.assigned ++ r.assigned
  | .move d s => d.destination?.toList ++ (d.assigned ++ s.assigned)
  | .exp e => e.assigned

end

/-- The temps to which the body of a procedure moves something. -/
def Procedure.assigned (p : Procedure) : List Temp := p.body.flatMap Stm.assigned

/-- A temp that is the destination of a move occurs there. -/
theorem Exp.mem_temps_of_destination? {t : Temp} :
    ∀ {d : Exp}, d.destination? = some t → t ∈ d.temps
  | .temp _, h => List.mem_singleton.2 (Option.some.inj h).symm
  | .eseq _ d, h => List.mem_append_right _ (Exp.mem_temps_of_destination? (d := d) h)

theorem append_subset_append {α : Type} {as bs cs ds : List α} (h : as ⊆ cs) (h' : bs ⊆ ds) :
    as ++ bs ⊆ cs ++ ds :=
  List.append_subset.2 ⟨fun _ ht => List.mem_append_left _ (h ht),
    fun _ ht => List.mem_append_right _ (h' ht)⟩

mutual

theorem Exp.assigned_subset : ∀ e : Exp, e.assigned ⊆ e.temps
  | .binop _ l r => append_subset_append l.assigned_subset r.assigned_subset
  | .mem a => a.assigned_subset
  | .temp _ => List.nil_subset _
  | .eseq s e => append_subset_append s.assigned_subset e.assigned_subset
  | .name _ => List.nil_subset _
  | .const _ => List.nil_subset _
  | .call f args => append_subset_append f.assigned_subset (Exp.assignedAll_subset args)

theorem Exp.assignedAll_subset : ∀ es : List Exp, Exp.assignedAll es ⊆ Exp.tempsAll es
  | [] => List.nil_subset _
  | e :: es => append_subset_append e.assigned_subset (Exp.assignedAll_subset es)

theorem Stm.assigned_subset : ∀ s : Stm, s.assigned ⊆ s.temps
  | .seq a b => append_subset_append a.assigned_subset b.assigned_subset
  | .label _ => List.nil_subset _
  | .jump e _ => e.assigned_subset
  | .cjump _ l r _ _ => append_subset_append l.assigned_subset r.assigned_subset
  | .move d s => List.append_subset.2 ⟨fun _ ht => List.mem_append_left _
      (Exp.mem_temps_of_destination? (Option.mem_toList.1 ht)),
      append_subset_append d.assigned_subset s.assigned_subset⟩
  | .exp e => e.assigned_subset

end

theorem Procedure.assigned_subset (p : Procedure) : p.assigned ⊆ p.temps := fun _ ht =>
  have ⟨s, hs, ht⟩ := List.mem_flatMap.1 ht
  List.mem_flatMap.2 ⟨s, hs, s.assigned_subset ht⟩

/-! ## The largest temp -/

namespace Temp

/-- A temp is at most as large as the largest one. -/
def AtMost (t : Temp) (bound : Option Temp) : Prop := ∃ b, bound = some b ∧ t.id ≤ b.id

theorem AtMost.left {t : Temp} {a b : Option Temp} (h : t.AtMost a) : t.AtMost (max? a b) := by
  obtain ⟨u, rfl, hle⟩ := h
  cases b with
  | none => exact ⟨u, rfl, hle⟩
  | some v =>
      by_cases huv : u.id < v.id
      · exact ⟨v, if_pos huv, Nat.le_trans hle (Nat.le_of_lt huv)⟩
      · exact ⟨u, if_neg huv, hle⟩

theorem AtMost.right {t : Temp} {a b : Option Temp} (h : t.AtMost b) : t.AtMost (max? a b) := by
  obtain ⟨v, rfl, hle⟩ := h
  cases a with
  | none => exact ⟨v, rfl, hle⟩
  | some u =>
      by_cases huv : u.id < v.id
      · exact ⟨v, if_pos huv, hle⟩
      · exact ⟨u, if_neg huv, Nat.le_trans hle (Nat.le_of_not_lt huv)⟩

theorem AtMost.foldl {α : Type} {f : α → Option Temp} {t : Temp} {xs : List α} {bound : Option Temp}
    (h : t.AtMost bound ∨ ∃ x ∈ xs, t.AtMost (f x)) :
    t.AtMost (xs.foldl (fun m x => max? m (f x)) bound) := by
  induction xs generalizing bound with
  | nil => exact h.resolve_right (by simp)
  | cons x xs ih =>
      refine ih ?_
      rcases h with h | ⟨y, hy, h⟩
      · exact .inl h.left
      · rcases List.mem_cons.1 hy with rfl | hy
        · exact .inl h.right
        · exact .inr ⟨y, hy, h⟩

end Temp

mutual

theorem Exp.le_maxTemp {t : Temp} : ∀ e : Exp, t ∈ e.temps → t.AtMost e.maxTemp
  | .binop _ l r, h => (List.mem_append.1 h).elim (fun h => (l.le_maxTemp h).left)
      fun h => (r.le_maxTemp h).right
  | .mem a, h => a.le_maxTemp h
  | .temp u, h => ⟨u, rfl, Nat.le_of_eq (congrArg Temp.id (List.mem_singleton.1 h))⟩
  | .eseq s e, h => (List.mem_append.1 h).elim (fun h => (s.le_maxTemp h).left)
      fun h => (e.le_maxTemp h).right
  | .name _, h => absurd h List.not_mem_nil
  | .const _, h => absurd h List.not_mem_nil
  | .call f args, h => (List.mem_append.1 h).elim (fun h => (f.le_maxTemp h).left)
      fun h => (Exp.le_maxTempAll args h).right

theorem Exp.le_maxTempAll {t : Temp} :
    ∀ es : List Exp, t ∈ Exp.tempsAll es → t.AtMost (Exp.maxTempAll es)
  | [], h => absurd h List.not_mem_nil
  | e :: es, h => (List.mem_append.1 h).elim (fun h => (e.le_maxTemp h).left)
      fun h => (Exp.le_maxTempAll es h).right

theorem Stm.le_maxTemp {t : Temp} : ∀ s : Stm, t ∈ s.temps → t.AtMost s.maxTemp
  | .seq a b, h => (List.mem_append.1 h).elim (fun h => (a.le_maxTemp h).left)
      fun h => (b.le_maxTemp h).right
  | .label _, h => absurd h List.not_mem_nil
  | .jump e _, h => e.le_maxTemp h
  | .cjump _ l r _ _, h => (List.mem_append.1 h).elim (fun h => (l.le_maxTemp h).left)
      fun h => (r.le_maxTemp h).right
  | .move d s, h => (List.mem_append.1 h).elim (fun h => (d.le_maxTemp h).left)
      fun h => (s.le_maxTemp h).right
  | .exp e, h => e.le_maxTemp h

end

namespace Procedure

variable {t : Temp} {p : Procedure} {ps : List Procedure}

theorem le_maxTemp (h : t ∈ p.temps) : t.AtMost p.maxTemp := by
  obtain ⟨s, hs, h⟩ := List.mem_flatMap.1 h
  exact .foldl (.inr ⟨s, hs, s.le_maxTemp h⟩)

theorem le_maxTempAll (hp : p ∈ ps) (h : t ∈ p.temps) : t.AtMost (maxTempAll ps) :=
  .foldl (.inr ⟨p, hp, le_maxTemp h⟩)

end Procedure

/-- The temps of a namer that continues behind a temp lie behind all temps up to it. -/
theorem Namer.lt_nextTemp_of_atMost {n : Namer} {t : Temp} {bound : Option Temp}
    (h : t.AtMost bound) : t.id < (n.resumeAfter bound).nextTemp := by
  obtain ⟨b, rfl, hle⟩ := h
  exact Nat.lt_of_le_of_lt hle (n.lt_nextTemp_resumeAfter b)

end TreeCompiler
