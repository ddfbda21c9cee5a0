import TreeCompiler.Coloring.Run
import TreeCompiler.Proofs.Renumbering.Basic

/-!
# Coloring labels — what a run does not look at

Of the temps of its nodes a run only compares the numbers, to choose a node to spill; whether the
state is checked is a field that only `Coloring.check` reads.  Each function of a run therefore
commutes with renumbering the temps and changing this field (`relabel`).
-/

namespace TreeCompiler

namespace Coloring

variable (c : Coloring) (r : Renumbering) (b : Bool)

/-- The same state with renumbered temps, checked or not. -/
def relabel (c : Coloring) (r : Renumbering) (b : Bool) : Coloring :=
  { c with temps := c.temps.map r, checkInvariants := b }

/-- The same state, checked or not. -/
def withChecks (c : Coloring) (b : Bool) : Coloring := { c with checkInvariants := b }

theorem withChecks_eq : c.withChecks b = c.relabel .refl b := by
  have htemps : c.temps.map Renumbering.refl = c.temps := Array.map_id _
  rw [relabel, htemps]
  rfl

@[simp] theorem relabel_frame : (c.relabel r b).k = c.k
    ∧ (c.relabel r b).state = c.state ∧ (c.relabel r b).degree = c.degree
    ∧ (c.relabel r b).neighbors = c.neighbors ∧ (c.relabel r b).edges = c.edges
    ∧ (c.relabel r b).moveList = c.moveList ∧ (c.relabel r b).moves = c.moves
    ∧ (c.relabel r b).moveState = c.moveState ∧ (c.relabel r b).mergedInto = c.mergedInto
    ∧ (c.relabel r b).color = c.color ∧ (c.relabel r b).simplifyWorklist = c.simplifyWorklist
    ∧ (c.relabel r b).freezeWorklist = c.freezeWorklist
    ∧ (c.relabel r b).spillWorklist = c.spillWorklist
    ∧ (c.relabel r b).selectStack = c.selectStack
    ∧ (c.relabel r b).worklistMoves = c.worklistMoves
    ∧ (c.relabel r b).activeMoves = c.activeMoves ∧ (c.relabel r b).avoid = c.avoid := by
  simp [relabel]

/-- A fold commutes if its steps do. -/
theorem foldl_relabel {α : Type} {f : Coloring → α → Coloring}
    (hf : ∀ c a, f (c.relabel r b) a = (f c a).relabel r b) (l : List α) :
    l.foldl f (c.relabel r b) = (l.foldl f c).relabel r b := by
  induction l generalizing c with
  | nil => rfl
  | cons a l ih => rw [List.foldl_cons, List.foldl_cons, hf, ih]

theorem ite_relabel (p : Prop) [Decidable p] (c d : Coloring) :
    (if p then c.relabel r b else d.relabel r b) = (if p then c else d).relabel r b := by
  split <;> rfl

/-! ## What is read -/

@[simp] theorem isPrecolored_relabel (n : Nat) :
    (c.relabel r b).isPrecolored n = c.isPrecolored n := rfl

@[simp] theorem hasEdge_relabel (x y : Nat) : (c.relabel r b).hasEdge x y = c.hasEdge x y := rfl

@[simp] theorem adjacent_relabel (n : Nat) : (c.relabel r b).adjacent n = c.adjacent n := rfl

@[simp] theorem isMoveRelated_relabel (n : Nat) :
    (c.relabel r b).isMoveRelated n = c.isMoveRelated n := rfl

@[simp] theorem canCoalesce_relabel (u v : Nat) :
    (c.relabel r b).canCoalesce u v = c.canCoalesce u v := rfl

@[simp] theorem size_relabel : (c.relabel r b).size = c.size := Array.size_map

@[simp] theorem nodes_relabel : (c.relabel r b).nodes = c.nodes := by
  rw [nodes, nodes, size_relabel]

@[simp] theorem temp_relabel (n : Nat) : (c.relabel r b).temp n = r (c.temp n) := by
  have hzero : r ⟨0⟩ = ⟨0⟩ := r.eq_self (Nat.zero_lt_succ _)
  have htemps : (c.relabel r b).temps = c.temps.map r := rfl
  rw [temp, temp, htemps, Array.getD_eq_getD_getElem?, Array.getD_eq_getD_getElem?,
    Array.getElem?_map, ← hzero, Option.getD_map, hzero]

/-- A renumbering keeps the lower of two temps. -/
theorem spillsBefore_relabel (x y : Nat) :
    (c.relabel r b).spillsBefore x y = c.spillsBefore x y := by
  unfold spillsBefore
  simp only [relabel_frame, temp_relabel, r.lt_iff]

@[simp] theorem bestSpill_relabel (n : Nat) (ns : List Nat) :
    (c.relabel r b).bestSpill n ns = c.bestSpill n ns := by
  simp only [bestSpill, spillsBefore_relabel]

theorem representativeWithin_relabel (steps n : Nat) :
    (c.relabel r b).representativeWithin steps n = c.representativeWithin steps n := by
  induction steps generalizing n with
  | zero => rfl
  | succ steps ih => simp only [representativeWithin, ih, relabel_frame]

@[simp] theorem representative_relabel (n : Nat) :
    (c.relabel r b).representative n = c.representative n := by
  rw [representative, representative, size_relabel, representativeWithin_relabel]

/-! ## What is changed -/

@[simp] theorem setState_relabel (n : Nat) (s : NodeState) :
    (c.relabel r b).setState n s = (c.setState n s).relabel r b := by
  unfold setState leaveList enterList
  have hstate : (c.relabel r b).state = c.state := rfl
  rw [hstate]
  split <;> split <;> rfl

@[simp] theorem setMoveState_relabel (m : Nat) (s : MoveState) :
    (c.relabel r b).setMoveState m s = (c.setMoveState m s).relabel r b := by
  unfold setMoveState leaveMoves enterMoves
  simp only [relabel_frame]
  split <;> split <;> rfl

@[simp] theorem addNeighbor_relabel (x y : Nat) :
    (c.relabel r b).addNeighbor x y = (c.addNeighbor x y).relabel r b := by
  unfold addNeighbor
  rw [isPrecolored_relabel]
  split <;> rfl

@[simp] theorem addEdge_relabel (x y : Nat) :
    (c.relabel r b).addEdge x y = (c.addEdge x y).relabel r b := by
  unfold addEdge
  rw [hasEdge_relabel, ← ite_relabel, ← addNeighbor_relabel, ← addNeighbor_relabel]
  rfl

@[simp] theorem enableMoves_relabel (ns : List Nat) :
    (c.relabel r b).enableMoves ns = (c.enableMoves ns).relabel r b := by
  refine foldl_relabel c r b (fun c n => ?_) ns
  refine foldl_relabel c r b (fun c m => ?_) _
  simp only [relabel_frame, setMoveState_relabel, ite_relabel]

@[simp] theorem decrementDegree_relabel (n : Nat) :
    (c.relabel r b).decrementDegree n = (c.decrementDegree n).relabel r b := by
  -- what is done once the degree was set
  let rest (c₁ : Coloring) : Coloring :=
    if c.degree.get n = c.k then
      let d := c₁.enableMoves (c₁.adjacent n ++ [n])
      if d.state.get n = .spill then d.setState n (if d.isMoveRelated n then .freeze else .simplify)
      else d
    else c₁
  have hrest : ∀ c₁ : Coloring, rest (c₁.relabel r b) = (rest c₁).relabel r b := by
    intro c₁
    simp only [rest, adjacent_relabel, enableMoves_relabel, relabel_frame,
      isMoveRelated_relabel, setState_relabel, ite_relabel]
  have heq : ∀ b, (c.relabel r b).decrementDegree n = if c.isPrecolored n then c.relabel r b
      else rest (({ c with degree := c.degree.set n (c.degree.get n - 1) } :
        Coloring).relabel r b) :=
    fun _ => rfl
  have heq' : c.decrementDegree n = if c.isPrecolored n then c
      else rest { c with degree := c.degree.set n (c.degree.get n - 1) } := rfl
  rw [heq, heq', hrest, ite_relabel]

@[simp] theorem addWorkList_relabel (n : Nat) :
    (c.relabel r b).addWorkList n = (c.addWorkList n).relabel r b := by
  unfold addWorkList
  simp only [relabel_frame, isPrecolored_relabel, isMoveRelated_relabel,
    setState_relabel, ite_relabel]

@[simp] theorem freezeMoves_relabel (n : Nat) :
    (c.relabel r b).freezeMoves n = (c.freezeMoves n).relabel r b := by
  refine foldl_relabel c r b (fun c m => ?_) _
  unfold freezeMove
  simp only [relabel_frame]
  cases c.moves[m]? with
  | none => rfl
  | some e =>
      simp only [representative_relabel, setMoveState_relabel, relabel_frame,
        isMoveRelated_relabel, setState_relabel, ite_relabel]

@[simp] theorem combine_relabel (u v : Nat) :
    (c.relabel r b).combine u v = (c.combine u v).relabel r b := by
  -- what is done once the nodes are linked
  let rest (c₁ : Coloring) : Coloring :=
    let d := c₁.enableMoves [v]
    let e := (d.adjacent v).foldl (fun c t => (c.addEdge t u).decrementDegree t) d
    if e.k ≤ e.degree.get u && e.state.get u = .freeze then e.setState u .spill else e
  have hrest : ∀ c₁ : Coloring, rest (c₁.relabel r b) = (rest c₁).relabel r b := by
    intro c₁
    have hfold := fun (d : Coloring) (l : List Nat) =>
      foldl_relabel d r b (f := fun c t => (c.addEdge t u).decrementDegree t)
        (fun c t => by rw [addEdge_relabel, decrementDegree_relabel]) l
    simp only [rest, adjacent_relabel, enableMoves_relabel, hfold, relabel_frame,
      setState_relabel, ite_relabel]
  have hlink : ∀ c : Coloring, c.combine u v =
      rest (({ c.setState v .coalesced with
        mergedInto := (c.setState v .coalesced).mergedInto.set v u } : Coloring).joinMoves u v) :=
    fun _ => rfl
  have hset : ∀ d : Coloring, ({ d.relabel r b with
      mergedInto := (d.relabel r b).mergedInto.set v u } : Coloring).joinMoves u v
        = (({ d with mergedInto := d.mergedInto.set v u } : Coloring).joinMoves u v).relabel r b :=
    fun _ => rfl
  rw [hlink, hlink, setState_relabel, hset, hrest]

@[simp] theorem coalesce_relabel (m : Nat) :
    (c.relabel r b).coalesce m = (c.coalesce m).relabel r b := by
  unfold coalesce
  simp only [relabel_frame]
  cases c.moves[m]? with
  | none => rfl
  | some e =>
      simp only [representative_relabel, isPrecolored_relabel, hasEdge_relabel,
        setMoveState_relabel, addWorkList_relabel, canCoalesce_relabel,
        combine_relabel, ite_relabel]

theorem makeWorklist_relabel : (c.relabel r b).makeWorklist = c.makeWorklist.relabel r b := by
  unfold makeWorklist
  rw [nodes_relabel]
  refine foldl_relabel c r b (fun c n => ?_) _
  simp only [relabel_frame, isMoveRelated_relabel, setState_relabel, ite_relabel]

/-- The same node is chosen, and the same move. -/
theorem step?_relabel : (c.relabel r b).step? = c.step?.map (·.relabel r b) := by
  have hsimplify : ∀ n, (c.relabel r b).simplify n = (c.simplify n).relabel r b := by
    intro n
    unfold simplify
    simp only [setState_relabel, adjacent_relabel]
    exact foldl_relabel _ r b (fun c t => decrementDegree_relabel c r b t) _
  have hfreeze : ∀ n, (c.relabel r b).freeze n = (c.freeze n).relabel r b := by
    intro n
    unfold freeze
    simp only [setState_relabel, freezeMoves_relabel]
  have hspill : ∀ n, (c.relabel r b).selectSpill n = (c.selectSpill n).relabel r b := hfreeze
  unfold step?
  simp only [relabel_frame, hsimplify, hfreeze, hspill, coalesce_relabel, bestSpill_relabel]
  split <;> rfl

theorem assignColors_relabel : (c.relabel r b).assignColors = c.assignColors.relabel r b := by
  have hused : ∀ (c : Coloring) (n : Nat), (c.relabel r b).usedColors n = c.usedColors n := by
    intro c n
    unfold usedColors
    simp only [representative_relabel, relabel_frame]
  have hassign : ∀ c n, assignColor (c.relabel r b) n = (assignColor c n).relabel r b := by
    intro c n
    have hset : ∀ x : Option Nat,
        ({ c.relabel r b with color := c.color.set n x } : Coloring).setState n .colored =
          (({ c with color := c.color.set n x } : Coloring).setState n .colored).relabel r b :=
      fun x => setState_relabel { c with color := c.color.set n x } r b n .colored
    unfold assignColor
    dsimp only
    rw [hused, ← ite_relabel]
    by_cases hk : (c.usedColors n).smallestAbsent.1 < c.k
    · rw [if_pos hk]
      exact (if_pos hk).trans (hset _)
    · rw [if_neg hk]
      exact (if_neg hk).trans (setState_relabel c r b n .spilled)
  have hinherit : ∀ c n, inheritColor (c.relabel r b) n = (inheritColor c n).relabel r b := by
    intro c n
    unfold inheritColor
    rw [representative_relabel, ← ite_relabel]
    rfl
  have hstack : (c.relabel r b).selectStack = c.selectStack := rfl
  unfold assignColors
  dsimp only
  rw [hstack, foldl_relabel c r b hassign, nodes_relabel]
  exact foldl_relabel _ r b hinherit _

end Coloring

end TreeCompiler
