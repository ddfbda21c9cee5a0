import TreeCompiler.Proofs.Coloring.Merge

/-!
# Coloring transitions — the invariant holds after each step

A step is one of four functions, and one of them decides on a move in one of four ways
(`Decision`).  On the graph a step does one of three things (`Transition`): keep it, take out a
node, or merge one node into another one.  Each step keeps the invariant (`Coherent.step`).
-/

namespace TreeCompiler

namespace Coloring

variable {c d : Coloring} {u v : Nat}

/-! ## The ends of a move -/

/-- The node that stays and the node that is merged, if the move is merged. -/
def mergeEnds (c : Coloring) (e : Nat × Nat) : Nat × Nat :=
  let x := c.representative e.1
  let y := c.representative e.2
  if c.isPrecolored y then (y, x) else (x, y)

theorem coalesce_eq {m : Nat} {e : Nat × Nat} (hm : c.moves[m]? = some e)
    (huv : c.mergeEnds e = (u, v)) : c.coalesce m =
      if u = v then (c.setMoveState m .coalesced).addWorkList u
      else if c.isPrecolored v || c.hasEdge u v then
        ((c.setMoveState m .constrained).addWorkList u).addWorkList v
      else if c.canCoalesce u v then ((c.setMoveState m .coalesced).combine u v).addWorkList u
      else c.setMoveState m .active := by
  obtain ⟨x, y⟩ := e
  unfold mergeEnds at huv
  unfold coalesce
  simp only [hm]
  rw [huv]

/-- An end of a move that may still be merged is a register, or waits for the move. -/
theorem Coherent.state_of_live {n m : Nat} (h : Coherent c) (hm : m ∈ c.moveList.get n)
    (hn : c.state.get n ≠ .coalesced) (hlive : c.isLive m = true) :
    c.state.get n = .precolored ∨ c.state.get n = .freeze ∨ c.state.get n = .spill := by
  have hrel : c.isMoveRelated n = true := isMoveRelated_iff.2 ⟨m, hm, hlive⟩
  have hidle : ¬ (c.state.get n = .simplify ∨ c.state.get n = .selectStack) := by
    intro hs
    rw [h.sorted.no_moves n hs id] at hrel
    cases hrel
  have hinit := h.working.sorted n (h.moves.lt_size hm).1
  have hcolor := h.working.uncolored n
  cases hs : c.state.get n <;> simp_all

/-- What is known of the ends of a move of the worklist. -/
structure Ends (c : Coloring) (m u v : Nat) : Prop where
  lt_left : u < c.size
  lt_right : v < c.size
  left : c.state.get u = .precolored ∨ c.state.get u = .freeze ∨ c.state.get u = .spill
  right : c.state.get v = .precolored ∨ c.state.get v = .freeze ∨ c.state.get v = .spill

theorem Ends.stays {m : Nat} (h : Ends c m u v) :
    c.state.get u = .precolored ∨ (c.state.get u).isListed = true := by
  rcases h.left with hs | hs | hs
  · exact .inl hs
  · exact .inr (by rw [hs]; rfl)
  · exact .inr (by rw [hs]; rfl)

theorem Coherent.ends {m : Nat} {e : Nat × Nat} (h : Coherent c) (hm : c.moves[m]? = some e)
    (hlive : c.isLive m = true) (huv : c.mergeEnds e = (u, v)) : Ends c m u v := by
  obtain ⟨x, y⟩ := e
  obtain ⟨hx, hy⟩ := h.moves.listed hm
  have hsx := h.state_of_live hx (h.aliases.not_coalesced x) hlive
  have hsy := h.state_of_live hy (h.aliases.not_coalesced y) hlive
  unfold mergeEnds at huv
  dsimp only at huv
  split at huv <;> cases huv
  · exact ⟨(h.moves.lt_size hy).1, (h.moves.lt_size hx).1, hsy, hsx⟩
  · exact ⟨(h.moves.lt_size hx).1, (h.moves.lt_size hy).1, hsx, hsy⟩

/-- The ends are what stands for the two nodes of the move. -/
theorem representative_mergeEnds {x y : Nat} (huv : c.mergeEnds (x, y) = (u, v)) :
    (c.representative x = u ∨ c.representative x = v)
      ∧ (c.representative y = u ∨ c.representative y = v) := by
  unfold mergeEnds at huv
  dsimp only at huv
  split at huv <;> cases huv
  · exact ⟨.inr rfl, .inl rfl⟩
  · exact ⟨.inl rfl, .inr rfl⟩

theorem isListed_of_waits {n : Nat} (hpre : c.isPrecolored n = false)
    (hs : c.state.get n = .precolored ∨ c.state.get n = .freeze ∨ c.state.get n = .spill) :
    (c.state.get n).isListed = true := by
  rcases hs with hs | hs | hs
  · rw [isPrecolored_iff.2 hs] at hpre
    cases hpre
  · rw [hs]
    rfl
  · rw [hs]
    rfl

/-- Node `v` may be merged into node `u`, because of some move. -/
structure Merges (c : Coloring) (u v : Nat) : Prop where
  lt_size : u < c.size
  stays : c.state.get u = .precolored ∨ (c.state.get u).isListed = true
  leaves : (c.state.get v).isListed = true
  ne : u ≠ v
  notEdge : c.hasEdge u v = false
  allowed : c.canCoalesce u v = true
  move : ∃ m e, c.moves[m]? = some e ∧ c.isLive m = true ∧ c.mergeEnds e = (u, v)

/-- How a move is decided, if `u` and `v` are what stands for its ends. -/
inductive Decision (c : Coloring) (m u v : Nat) : Coloring → Prop
  | same (heq : u = v) : Decision c m u v ((c.setMoveState m .coalesced).addWorkList u)
  | clash (hne : u ≠ v) (hbound : c.isPrecolored v = true ∨ c.hasEdge u v = true) :
      Decision c m u v (((c.setMoveState m .constrained).addWorkList u).addWorkList v)
  | merge (hm : Merges c u v) :
      Decision c m u v (((c.setMoveState m .coalesced).combine u v).addWorkList u)
  | wait (hne : u ≠ v) (hv : c.isPrecolored v = false) : Decision c m u v (c.setMoveState m .active)

theorem Coherent.decision {m : Nat} {e : Nat × Nat} (h : Coherent c) (he : c.moves[m]? = some e)
    (hlive : c.isLive m = true) (huv : c.mergeEnds e = (u, v)) :
    Decision c m u v (c.coalesce m) := by
  have hends := h.ends he hlive huv
  rw [coalesce_eq he huv]
  split
  · exact .same ‹_›
  · rename_i hne
    split
    · rename_i hbound
      exact .clash hne (by simpa using hbound)
    · rename_i hfree
      simp only [Bool.or_eq_true, not_or, Bool.not_eq_true] at hfree
      split
      · rename_i hok
        exact .merge ⟨hends.lt_left, hends.stays, isListed_of_waits hfree.1 hends.right, hne,
          hfree.2, hok, m, e, he, hlive, huv⟩
      · exact .wait hne hfree.1

/-- A node that waits for a move is in no list for nodes without moves. -/
theorem not_idle_of_waits {n : Nat}
    (hn : c.state.get n = .precolored ∨ c.state.get n = .freeze ∨ c.state.get n = .spill) :
    ¬ (c.state.get n = .simplify ∨ c.state.get n = .selectStack) := by
  intro hs
  rcases hn with hn | hn | hn <;> rw [hn] at hs <;> rcases hs with hs | hs <;> cases hs

theorem Merges.ends (h : Coherent c) (hm : Merges c u v) : ∃ m, Ends c m u v := by
  obtain ⟨m, e, he, hlive, huv⟩ := hm.move
  exact ⟨m, h.ends he hlive huv⟩

theorem state_addWorkList_of_ne (c : Coloring) {i : Nat} (hi : i ≠ u) :
    (c.addWorkList u).state.get i = c.state.get i := by
  unfold addWorkList
  split
  · rw [state_setState, if_neg hi]
  · rfl

/-! ## Deciding on a move -/

theorem SameGraph.merge (hcd : SameGraph c d) (hv : (c.state.get v).isListed = true) :
    SameGraph (c.merge u v) (d.merge u v) := by
  have hstack : ∀ {c : Coloring}, (c.state.get v).isOpen = true →
      (c.merge u v).selectStack = c.selectStack := by
    intro c hv
    refine selectStack_setState ?_ nofun
    intro e
    rw [e] at hv
    cases hv
  have hopen := NodeState.isOpen_of_isListed hv
  exact {
    k := by simpa [Coloring.merge] using hcd.k
    temps := by simpa [Coloring.merge] using hcd.temps
    neighbors := by simpa [Coloring.merge] using hcd.neighbors
    edges := by simpa [Coloring.merge] using hcd.edges
    moveList := by simp [Coloring.merge, joinMoves, hcd.moveList]
    moves := by simpa [Coloring.merge] using hcd.moves
    mergedInto := by simp [Coloring.merge, link, hcd.mergedInto]
    color := by simpa [Coloring.merge] using hcd.color
    selectStack := by rw [hstack hopen, hstack (hcd.isOpen v ▸ hopen), hcd.selectStack]
    avoid := by simpa [Coloring.merge] using hcd.avoid
    checkInvariants := by simpa [Coloring.merge] using hcd.checkInvariants
    state := by
      intro n
      rw [state_merge, state_merge]
      split
      · exact .inl rfl
      · exact hcd.state n
    simplify := by
      intro n
      rw [state_merge, state_merge]
      split
      · exact id
      · exact hcd.simplify n }

theorem SameGraph.absorb (hcd : SameGraph c d) (hv : (c.state.get v).isListed = true) :
    SameGraph (c.absorb u v) (d.absorb u v) := by
  have hfold : ∀ (ts : List Nat) {c d : Coloring}, SameGraph c d →
      SameGraph (ts.foldl (fun c t => c.addEdge t u) c)
        (ts.foldl (fun c t => c.addEdge t u) d) := by
    intro ts
    induction ts with
    | nil => exact id
    | cons t ts ih => exact fun hcd => ih (hcd.addEdge t u)
  unfold Coloring.absorb
  rw [hcd.adjacent]
  exact hfold _ (hcd.merge hv)

section Coalesce

variable {m : Nat} (h : Coherent c) (hm : m ∈ c.worklistMoves)

include h hm

theorem Coherent.exists_move : ∃ e, c.moves[m]? = some e :=
  ⟨_, Array.getElem?_eq_getElem ((h.lists.worklistMoves m).1 hm).1⟩

theorem Coherent.isLive_of_worklist : c.isLive m = true := by
  simp [isLive, ((h.lists.worklistMoves m).1 hm).2]

omit hm in
/-- A move that is decided leaves at most its two ends as exceptions. -/
theorem Coherent.decide {e : Nat × Nat} (he : c.moves[m]? = some e) (huv : c.mergeEnds e = (u, v))
    (s : MoveState) :
    Invariant (c.setMoveState m s) [] (fun _ => False) (fun n => n = u ∨ n = v) := by
  obtain ⟨hx, hy⟩ := representative_mergeEnds huv
  exact h.setMoveState he (fun _ hf => hf.elim) hx hy

omit hm in
/-- On the graph alone a move is decided before its ends are merged. -/
theorem Coherent.sameGraph_merge {e : Nat × Nat} (he : c.moves[m]? = some e)
    (huv : c.mergeEnds e = (u, v)) (hv : (c.state.get v).isListed = true) :
    SameGraph (c.absorb u v) ((c.setMoveState m .coalesced).combine u v) :=
  ((SameNodes.setMoveState c m .coalesced).toSameGraph.absorb hv).trans
    ((h.decide he huv .coalesced).sameGraph_combine (by simpa using hv))

theorem Coherent.coalesce : Coherent (c.coalesce m) := by
  obtain ⟨e, he⟩ := h.exists_move hm
  obtain ⟨u, v, huv⟩ : ∃ u v, c.mergeEnds e = (u, v) := ⟨_, _, rfl⟩
  have hlive := h.isLive_of_worklist hm
  have hends := h.ends he hlive huv
  have hdecide := h.decide he huv
  have hdecision := h.decision he hlive huv
  generalize c.coalesce m = d at hdecision ⊢
  cases hdecision with
  | same heq =>
      subst heq
      refine (hdecide .coalesced).addWorkList_of_not_idle ?_ ?_
      · simpa using not_idle_of_waits hends.left
      · intro n hn e
        exact hn (e.elim id id)
  | clash hne _ =>
      have hleft : Invariant ((c.setMoveState m .constrained).addWorkList u) [] (fun _ => False)
          (fun n => n = v) := by
        refine (hdecide .constrained).addWorkList_of_not_idle ?_ ?_
        · simpa using not_idle_of_waits hends.left
        · intro n hn e
          exact e.resolve_left hn
      have hstate : ((c.setMoveState m .constrained).addWorkList u).state.get v =
          c.state.get v := by
        rw [state_addWorkList_of_ne _ (Ne.symm hne)]
        simp
      refine hleft.addWorkList_of_not_idle ?_ fun n hn e => hn e
      rw [hstate]
      exact not_idle_of_waits hends.right
  | merge hmerge =>
      have ⟨hmerged, hstate⟩ := (hdecide .coalesced).combine (by simpa [size] using hmerge.lt_size)
        (by simpa using hmerge.stays) (by simpa using hmerge.leaves) hmerge.ne
        (by simpa [hasEdge] using hmerge.notEdge)
      refine hmerged.addWorkList_of_not_idle ?_ fun n hn e => hn e
      -- the node stays in its list, or has too many neighbors now and goes to the spill worklist
      rcases hstate with e | e
      · rw [e]
        simpa using not_idle_of_waits hends.left
      · simp [e]
  | wait => exact h.setMoveState_active hm

end Coalesce

/-! ## Steps -/

/-- A step is the first of four functions that has something to do. -/
inductive Step (c : Coloring) : Coloring → Prop
  | simplify {n : Nat} (h : c.simplifyWorklist.min? = some n) : Step c (c.simplify n)
  | coalesce {m : Nat} (hs : c.simplifyWorklist.min? = none) (h : c.worklistMoves.min? = some m) :
      Step c (c.coalesce m)
  | freeze {n : Nat} (hs : c.simplifyWorklist.min? = none) (hm : c.worklistMoves.min? = none)
      (h : c.freezeWorklist.min? = some n) : Step c (c.freeze n)
  | selectSpill {n : Nat} {ns : List Nat} (hs : c.simplifyWorklist.min? = none)
      (hm : c.worklistMoves.min? = none) (hf : c.freezeWorklist.min? = none)
      (h : c.spillWorklist.toList = n :: ns) : Step c (c.selectSpill (c.bestSpill n ns))

theorem step_of_step? (h : c.step? = some d) : Step c d := by
  unfold step? at h
  split at h <;> cases h
  · exact .simplify ‹_›
  · exact .coalesce ‹_› ‹_›
  · exact .freeze ‹_› ‹_› ‹_›
  · exact .selectSpill ‹_› ‹_› ‹_› ‹_›

/-- Without a next step all worklists are empty. -/
theorem worklists_of_step?_eq_none (h : c.step? = none) : c.simplifyWorklist.min? = none
    ∧ c.worklistMoves.min? = none ∧ c.freezeWorklist.min? = none ∧ c.spillWorklist.toList = [] := by
  unfold step? at h
  split at h <;> try cases h
  exact ⟨‹_›, ‹_›, ‹_›, ‹_›⟩

theorem bestSpill_mem (c : Coloring) (n : Nat) (ns : List Nat) : c.bestSpill n ns ∈ n :: ns := by
  unfold bestSpill
  induction ns generalizing n with
  | nil => exact List.mem_cons_self
  | cons x ns ih =>
      rw [List.foldl_cons]
      rcases List.mem_cons.1 (ih (if c.spillsBefore x n then x else n)) with e | hmem
      · rw [e]
        split
        · exact List.mem_cons_of_mem _ List.mem_cons_self
        · exact List.mem_cons_self
      · exact List.mem_cons_of_mem _ (List.mem_cons_of_mem _ hmem)

/-- What a step does to the graph. -/
inductive Transition (c d : Coloring) : Prop
  | stay (h : SameGraph c d)
  | remove (n : Nat) (hn : c.state.get n = .simplify) (h : SameGraph (c.setState n .selectStack) d)
  | merge (u v : Nat) (hmerge : Merges c u v) (h : SameGraph (c.absorb u v) d)

theorem Coherent.transition_coalesce {m : Nat} (h : Coherent c) (hm : m ∈ c.worklistMoves) :
    Transition c (c.coalesce m) := by
  obtain ⟨e, he⟩ := h.exists_move hm
  obtain ⟨u, v, huv⟩ : ∃ u v, c.mergeEnds e = (u, v) := ⟨_, _, rfl⟩
  have hset := fun s => (SameNodes.setMoveState c m s).toSameGraph
  have hdecision := h.decision he (h.isLive_of_worklist hm) huv
  generalize c.coalesce m = d at hdecision ⊢
  cases hdecision with
  | same => exact .stay ((hset _).trans (.addWorkList _ u))
  | clash => exact .stay (((hset _).trans (.addWorkList _ u)).trans (.addWorkList _ v))
  | merge hmerge =>
      exact .merge u v hmerge ((h.sameGraph_merge he huv hmerge.leaves).trans (.addWorkList _ u))
  | wait => exact .stay (hset _)

/-- A node of the freeze worklist or a chosen one has what it takes to give up its moves. -/
theorem Coherent.state_bestSpill {n : Nat} {ns : List Nat} (h : Coherent c)
    (hns : c.spillWorklist.toList = n :: ns) : c.state.get (c.bestSpill n ns) = .spill := by
  refine (h.lists.spill _).1 (SortedSet.mem_toList.1 ?_)
  rw [hns]
  exact bestSpill_mem c n ns

theorem Coherent.transition (h : Coherent c) (hstep : c.step? = some d) : Transition c d := by
  cases step_of_step? hstep with
  | simplify hn =>
      exact .remove _ ((h.lists.simplify _).1 (SortedSet.mem_of_min? hn)) (sameGraph_simplify c _)
  | coalesce _ hm => exact h.transition_coalesce (SortedSet.mem_of_min? hm)
  | freeze _ _ hn =>
      exact .stay (.giveUp (.inl ((h.lists.freeze _).1 (SortedSet.mem_of_min? hn))))
  | selectSpill _ _ _ hns => exact .stay (.giveUp (.inr (h.state_bestSpill hns)))

/-- The invariant holds after each step. -/
theorem Coherent.step (h : Coherent c) (hstep : c.step? = some d) : Coherent d := by
  cases step_of_step? hstep with
  | simplify hn => exact h.simplify ((h.lists.simplify _).1 (SortedSet.mem_of_min? hn))
  | coalesce _ hm => exact h.coalesce (SortedSet.mem_of_min? hm)
  | freeze _ _ hn => exact h.giveUp (.inl ((h.lists.freeze _).1 (SortedSet.mem_of_min? hn)))
  | selectSpill _ _ _ hns => exact h.giveUp (.inr (h.state_bestSpill hns))

end Coloring

end TreeCompiler
