import TreeCompiler.Proofs.Coloring.Invariant

/-!
# Coloring changes — the small changes that transitions are made of

Each lemma says which exceptions to the invariant a small change makes or mends: telling a node that
a neighbor left, giving up a move, sending a node to be simplified.  Simplifying and freezing a node
are folds over such changes.
-/

namespace TreeCompiler

namespace Coloring

variable {c d : Coloring} {pending : List Nat} {high loose : Nat → Prop}

/-! ## A neighbor left the graph -/

/-- What telling node `t` that a neighbor left does. -/
structure Decremented (c d : Coloring) (t : Nat) : Prop extends SameGraph c d where
  degree : ∀ i, d.degree.get i = if i = t then c.degree.get t - 1 else c.degree.get i
  isLive : ∀ m, d.isLive m = c.isLive m
  states : ∀ i, d.state.get i =
    if i = t ∧ c.state.get t = .spill ∧ c.degree.get t = c.k then
      (if c.isMoveRelated t then .freeze else .simplify)
    else c.state.get i

theorem Decremented.isMoveRelated {t : Nat} (h : Decremented c d t) (n : Nat) :
    d.isMoveRelated n = c.isMoveRelated n :=
  isMoveRelated_congr (by rw [h.moveList]) fun m _ => h.isLive m

/-- Wherever its moves send a node that leaves the spill worklist, it stays on a worklist. -/
theorem isListed_ite (b : Bool) :
    (if b then NodeState.freeze else NodeState.simplify).isListed = true := by
  cases b <;> rfl

theorem decremented {t : Nat} (ht : c.isPrecolored t = false) :
    Decremented c (c.decrementDegree t) t := by
  let c₁ : Coloring := { c with degree := c.degree.set t (c.degree.get t - 1) }
  have hsame : SameGraph c c₁ := .setDegree c _
  have hdegree : ∀ i, c₁.degree.get i = if i = t then c.degree.get t - 1 else c.degree.get i :=
    fun i => Table.get_set c.degree t i _
  let c₂ := c₁.enableMoves (c₁.adjacent t ++ [t])
  have heq : c.decrementDegree t =
      if c.degree.get t = c.k then
        if c₂.state.get t = .spill then
          c₂.setState t (if c₂.isMoveRelated t then .freeze else .simplify)
        else c₂
      else c₁ := if_neg (by simp [ht])
  by_cases hk : c.degree.get t = c.k
  · -- from now on the node is of low degree: moves near it may be merged again
    have henabled : Enabled c₁ c₂ := enabled_enableMoves c₁ _
    have hlive : ∀ m, c₂.isLive m = c.isLive m := henabled.isLive
    have hrelated : c₂.isMoveRelated t = c.isMoveRelated t :=
      isMoveRelated_congr (by rw [henabled.moveList]) fun m _ => hlive m
    have hstate : c₂.state = c.state := henabled.states
    by_cases hs : c.state.get t = .spill
    · -- and it leaves the spill worklist
      rw [heq, if_pos hk, if_pos (by rw [hstate, hs])]
      have hopen : (c₂.state.get t).isOpen = true := by
        rw [hstate, hs]
        rfl
      refine ⟨(hsame.trans henabled.toSameGraph).trans (.setState hopen (isListed_ite _) ?_),
        ?_, ?_, ?_⟩
      · intro h
        rw [hstate, hs] at h
        cases h
      · intro i
        rw [← hdegree, ← henabled.degree]
        simp
      · intro m
        rw [← hlive]
        simp [Coloring.isLive]
      · intro i
        rw [state_setState, hrelated, hstate]
        by_cases hi : i = t
        · simp [hi, hs, hk]
        · simp [hi]
    · rw [heq, if_pos hk, if_neg (by rwa [hstate])]
      refine ⟨hsame.trans henabled.toSameGraph, ?_, hlive, ?_⟩
      · intro i
        rw [henabled.degree]
        exact hdegree i
      · intro i
        rw [if_neg fun h => hs h.2.1, hstate]
  · rw [heq, if_neg hk]
    refine ⟨hsame, hdegree, fun _ => rfl, ?_⟩
    intro i
    rw [if_neg fun h => hk h.2.2]

theorem decrementDegree_of_isPrecolored {t : Nat} (ht : c.isPrecolored t = true) :
    c.decrementDegree t = c := by
  simp only [decrementDegree, ht, if_true]

theorem Lists.decrementDegree (h : Lists c)
    (hlt : ∀ n, ∀ m ∈ c.moveList.get n, m < c.moves.size) (t : Nat) :
    Lists (c.decrementDegree t) := by
  unfold Coloring.decrementDegree
  split
  · exact h
  · have h₁ : Lists { c with degree := c.degree.set t (c.degree.get t - 1) } := ⟨h.1, h.2, h.3, h.4,
      h.5, h.6, h.7, h.8⟩
    dsimp only
    split
    · have h₂ := h₁.enableMoves hlt
        (({ c with degree := c.degree.set t (c.degree.get t - 1) } : Coloring).adjacent t ++ [t])
      split
      · rename_i hs
        refine h₂.setState_of_isOpen (h₂.lt_size t ?_) ?_ <;> simp [hs, NodeState.isOpen,
          NodeState.isListed]
      · exact h₂
    · exact h₁

/-- A node that leaves the spill worklist has too few neighbors for it, and is sorted by its
moves. -/
theorem Sorted.decremented {t : Nat} (h : Sorted c high loose) (hdec : Decremented c d t)
    (hpos : (c.state.get t).isOpen = true → 0 < c.degree.get t) : Sorted d high loose where
  spill n hn := by
    rw [hdec.states] at hn
    rw [hdec.degree, hdec.k]
    split at hn
    · split at hn <;> cases hn
    · rename_i hcond
      have hle := h.spill n hn
      by_cases hnt : n = t
      · -- the degree was above the number of colors, since the node stays
        subst hnt
        have hne : c.degree.get n ≠ c.k := fun e => hcond ⟨rfl, hn, e⟩
        rw [if_pos rfl]
        exact Nat.le_sub_one_of_lt (Nat.lt_of_le_of_ne hle (Ne.symm hne))
      · rw [if_neg hnt]
        exact hle
  freeze_degree n hn hhigh := by
    rw [hdec.states] at hn
    rw [hdec.degree, hdec.k]
    split at hn
    · -- the node that leaves had exactly as many neighbors as there are colors
      rename_i hcond
      obtain ⟨rfl, hs, hk⟩ := hcond
      have hopen : (c.state.get n).isOpen = true := by rw [hs]; rfl
      rw [if_pos rfl, ← hk]
      exact Nat.sub_one_lt (Nat.ne_of_gt (hpos hopen))
    · have hlt := h.freeze_degree n hn hhigh
      split
      · rename_i hnt
        exact Nat.lt_of_le_of_lt (Nat.sub_le _ _) (hnt ▸ hlt)
      · exact hlt
  freeze_moves n hn hloose := by
    rw [hdec.states] at hn
    rw [hdec.isMoveRelated]
    split at hn
    · -- it goes to the nodes that are frozen if it has moves
      rename_i hcond
      rw [hcond.1]
      split at hn
      · assumption
      · cases hn
    · exact h.freeze_moves n hn hloose
  no_moves n hn hloose := by
    rw [hdec.states] at hn
    rw [hdec.isMoveRelated]
    split at hn
    · rename_i hcond
      rw [hcond.1]
      split at hn
      · rcases hn with hn | hn <;> cases hn
      · rename_i hrel
        simpa using hrel
    · exact h.no_moves n hn hloose

/-- The degree of a pending node is mended. -/
theorem Invariant.decrementDegree {t : Nat} (h : Invariant c (t :: pending) high loose)
    (ht : t ∉ pending) : Invariant (c.decrementDegree t) pending high loose := by
  have hlists := h.lists.decrementDegree (fun n m hm => (h.moves.lt_size hm).2) t
  by_cases hpre : c.isPrecolored t = true
  · rw [decrementDegree_of_isPrecolored hpre] at hlists ⊢
    refine h.of_sameGraph (.refl c) hlists ?_ h.sorted
    intro n hn
    have hnt : n ≠ t := by
      rintro rfl
      rw [isPrecolored_of_isOpen hn] at hpre
      cases hpre
    simpa [hnt] using h.degrees n hn
  · have hdec := Coloring.decremented (c := c) (t := t) (by simpa using hpre)
    -- a pending node in the graph has a neighbor that left, so its degree is positive
    have hpos : (c.state.get t).isOpen = true → c.degree.get t = (c.adjacent t).length + 1 := by
      intro hopen
      have hdeg := h.degrees t hopen
      rwa [if_pos List.mem_cons_self] at hdeg
    refine h.of_sameGraph hdec.toSameGraph hlists ?_
      (h.sorted.decremented hdec fun hopen => hpos hopen ▸ Nat.succ_pos _)
    intro n hn
    rw [hdec.isOpen] at hn
    rw [hdec.degree, hdec.adjacent]
    by_cases hnt : n = t
    · subst hnt
      rw [if_pos rfl, if_neg ht, hpos hn]
      rfl
    · simpa [hnt] using h.degrees n hn

theorem Invariant.foldl_decrementDegree (h : Invariant c pending high loose)
    (hnodup : pending.Nodup) :
    Invariant (pending.foldl Coloring.decrementDegree c) [] high loose := by
  induction pending generalizing c with
  | nil => exact h
  | cons t pending ih =>
      rw [List.nodup_cons] at hnodup
      exact ih (h.decrementDegree hnodup.1) hnodup.2

/-! ## Sorting a node anew -/

/-- A node in the graph goes to a worklist; the conditions of that list are asked of this node
only. -/
theorem Invariant.setState {u : Nat} {s : NodeState} {high' loose' : Nat → Prop}
    (h : Invariant c pending high loose) (hlisted₀ : (c.state.get u).isListed = true)
    (hlisted : s.isListed = true) (hsimplify : c.state.get u = .simplify → s = .simplify)
    (hspill : s = .spill → c.k ≤ c.degree.get u)
    (hfreeze : s = .freeze → c.degree.get u < c.k ∧ c.isMoveRelated u = true)
    (hidle : s = .simplify → ¬ loose' u → c.isMoveRelated u = false)
    (hhigh : ∀ n, n ≠ u → high n → high' n) (hloose : ∀ n, n ≠ u → loose n → loose' n) :
    Invariant (c.setState u s) pending high' loose' := by
  have hopen := NodeState.isOpen_of_isListed hlisted₀
  have hsame : SameGraph c (c.setState u s) := .setState hopen hlisted hsimplify
  have hlt : u < c.size := by
    refine h.lists.lt_size u fun e => ?_
    rw [e] at hlisted₀
    cases hlisted₀
  refine h.of_sameGraph hsame (h.lists.setState_of_isOpen hlt hopen)
    (hsame.degrees_part (by simp) h.degrees) ?_
  exact h.sorted.setState hlisted hspill hfreeze hidle hhigh hloose

/-- A node that may have lost its last move is sorted anew. -/
theorem Invariant.addWorkList {u : Nat} {loose' : Nat → Prop} (h : Invariant c pending high loose)
    (hdegree : c.state.get u = .freeze → c.degree.get u < c.k)
    (hidle : c.state.get u = .simplify ∨ c.state.get u = .selectStack → ¬ loose' u →
      c.isMoveRelated u = false)
    (hloose : ∀ n, n ≠ u → loose n → loose' n) :
    Invariant (c.addWorkList u) pending high loose' := by
  by_cases hcond : (!c.isPrecolored u && c.state.get u = .freeze && !c.isMoveRelated u
      && c.degree.get u < c.k) = true
  · -- the node has no moves left, and is simplified next
    rw [show c.addWorkList u = c.setState u .simplify from if_pos hcond]
    simp only [Bool.and_eq_true, decide_eq_true_eq, Bool.not_eq_true'] at hcond
    obtain ⟨⟨⟨_, hs⟩, hrel⟩, _⟩ := hcond
    refine h.setState (by rw [hs]; rfl) rfl ?_ ?_ ?_ (fun _ _ => hrel) (fun _ _ hh => hh) hloose
    · intro e
      rfl
    · intro e
      cases e
    · intro e
      cases e
  · -- it stays where it is, so there are moves left if it is to be frozen
    rw [show c.addWorkList u = c from if_neg hcond]
    refine { h with sorted := { h.sorted with freeze_moves := ?_, no_moves := ?_ } }
    · intro n hn hne
      by_cases hnu : n = u
      · subst hnu
        have hpre : c.isPrecolored n = false := isPrecolored_of_isOpen (by rw [hn]; rfl)
        simpa [hpre, hn, hdegree hn] using hcond
      · exact h.sorted.freeze_moves n hn fun hl => hne (hloose n hnu hl)
    · intro n hn hne
      by_cases hnu : n = u
      · subst hnu
        exact hidle hn hne
      · exact h.sorted.no_moves n hn fun hl => hne (hloose n hnu hl)

/-- An end of a move that is decided may have lost its last move, and is sorted anew. -/
theorem Invariant.addWorkList_of_not_idle {u : Nat} {loose' : Nat → Prop}
    (h : Invariant c pending (fun _ => False) loose)
    (hidle : ¬ (c.state.get u = .simplify ∨ c.state.get u = .selectStack))
    (hloose : ∀ n, n ≠ u → loose n → loose' n) :
    Invariant (c.addWorkList u) pending (fun _ => False) loose' :=
  h.addWorkList (fun hs => h.sorted.freeze_degree u hs id) (fun hs => absurd hs hidle) hloose

theorem SameGraph.addWorkList (c : Coloring) (u : Nat) : SameGraph c (c.addWorkList u) := by
  unfold Coloring.addWorkList
  split
  · rename_i hcond
    simp only [Bool.and_eq_true, decide_eq_true_eq] at hcond
    have hs : c.state.get u = .freeze := hcond.1.1.2
    exact .setState (by rw [hs]; rfl) rfl fun _ => rfl
  · exact .refl c

/-! ## Moves that are decided -/

theorem isLive_setMoveState (c : Coloring) (m i : Nat) (s : MoveState) :
    (c.setMoveState m s).isLive i
      = if i = m then decide (s = .active ∨ s = .worklist) else c.isLive i := by
  simp only [isLive, moveState_setMoveState]
  split
  · simp
  · rfl

/-- Only the nodes that stand for the ends of a move can lose it. -/
theorem Invariant.setMoveState {m x y : Nat} {s : MoveState} {loose' : Nat → Prop}
    (h : Invariant c pending high loose) (hm : c.moves[m]? = some (x, y))
    (hloose : ∀ n, loose n → loose' n)
    (hx : loose' (c.representative x)) (hy : loose' (c.representative y)) :
    Invariant (c.setMoveState m s) pending high loose' := by
  have hsame := SameNodes.setMoveState c m s
  have hlt : m < c.moves.size := (Array.getElem?_eq_some_iff.1 hm).1
  have hrelated : ∀ n, c.state.get n ≠ .coalesced → ¬ loose' n →
      (c.setMoveState m s).isMoveRelated n = c.isMoveRelated n := by
    -- another node has no move in its list that this one is
    intro n hn hl
    refine isMoveRelated_congr (by simp) fun i hi => ?_
    rw [isLive_setMoveState, if_neg]
    rintro rfl
    rcases h.moves.owner hi hn hm with e | e
    · exact hl (e ▸ hx)
    · exact hl (e ▸ hy)
  refine h.of_sameGraph hsame.toSameGraph (h.lists.setMoveState hlt s)
    (hsame.degrees_part hsame.degree h.degrees) ⟨?_, ?_, ?_, ?_⟩
  · rw [hsame.states, hsame.degree, hsame.k]
    exact h.sorted.spill
  · rw [hsame.states, hsame.degree, hsame.k]
    exact h.sorted.freeze_degree
  · intro n hn hl
    rw [hsame.states] at hn
    rw [hrelated n (by rw [hn]; exact nofun) hl]
    exact h.sorted.freeze_moves n hn fun hl' => hl (hloose n hl')
  · intro n hn hl
    rw [hsame.states] at hn
    rw [hrelated n (by rcases hn with hn | hn <;> rw [hn] <;> exact nofun) hl]
    exact h.sorted.no_moves n hn fun hl' => hl (hloose n hl')

/-- A move that waits may still be merged. -/
theorem Invariant.setMoveState_active {m : Nat} (h : Invariant c pending high loose)
    (hm : m ∈ c.worklistMoves) : Invariant (c.setMoveState m .active) pending high loose := by
  have hsame := SameNodes.setMoveState c m .active
  obtain ⟨hlt, hstate⟩ := (h.lists.worklistMoves m).1 hm
  have hrelated : ∀ n, (c.setMoveState m .active).isMoveRelated n = c.isMoveRelated n := by
    intro n
    refine isMoveRelated_congr (by simp) fun i _ => ?_
    rw [isLive_setMoveState]
    split
    · rename_i hi
      simp [isLive, hi, hstate]
    · rfl
  exact h.of_sameNodes hsame (h.lists.setMoveState hlt _) hrelated

/-! ## Giving up the moves of a node -/

/-- The end of a move that does not stand for `n`, if there is one. -/
def otherEnd (c : Coloring) (n : Nat) (e : Nat × Nat) : Nat :=
  if c.representative e.2 = c.representative n then c.representative e.1 else c.representative e.2

theorem freezeMove_eq {n m : Nat} {e : Nat × Nat} (hm : c.moves[m]? = some e) :
    c.freezeMove n m = (c.setMoveState m .frozen).addWorkList (c.otherEnd n e) := by
  obtain ⟨x, y⟩ := e
  have hpre : ∀ d : Coloring, ∀ v, d.state.get v = .freeze → d.isPrecolored v = false := by
    intro d v hv
    simp [isPrecolored, hv]
  unfold freezeMove Coloring.addWorkList
  simp only [hm]
  by_cases hv : c.state.get (c.otherEnd n (x, y)) = .freeze
  · simp [otherEnd] at hv ⊢
    simp [hv, hpre]
  · simp [otherEnd] at hv ⊢
    simp [hv]

theorem SameGraph.freezeMove (c : Coloring) (n m : Nat) : SameGraph c (c.freezeMove n m) := by
  cases hm : c.moves[m]? with
  | none =>
      unfold Coloring.freezeMove
      simp only [hm]
      exact .refl c
  | some e =>
      rw [freezeMove_eq hm]
      exact (SameNodes.setMoveState c m .frozen).toSameGraph.trans (.addWorkList _ _)

theorem isLive_addWorkList (c : Coloring) (u i : Nat) :
    (c.addWorkList u).isLive i = c.isLive i := by
  unfold addWorkList
  split <;> simp [isLive]

theorem isLive_freezeMove {n m : Nat} (hm : m < c.moves.size) (i : Nat) :
    (c.freezeMove n m).isLive i = if i = m then false else c.isLive i := by
  rw [freezeMove_eq (Array.getElem?_eq_getElem hm), isLive_addWorkList, isLive_setMoveState]
  simp

/-- Giving up a move of `n` concerns `n` and the other end, which is sorted anew. -/
theorem Invariant.freezeMove {n m : Nat} (h : Invariant c pending (fun _ => False) (· = n))
    (hn : c.state.get n = .simplify) (hm : m ∈ c.moveList.get n) :
    Invariant (c.freezeMove n m) pending (fun _ => False) (· = n) := by
  have hlt := (h.moves.lt_size hm).2
  have he := Array.getElem?_eq_getElem hlt
  obtain ⟨⟨x, y⟩, hxy⟩ : ∃ e, c.moves[m]? = some e := ⟨_, he⟩
  have hcoal : c.state.get n ≠ .coalesced := by
    rw [hn]
    exact nofun
  have hrep : c.representative n = n := representative_of_not_coalesced hcoal
  -- one end of the move is `n`, the other one is looked at next
  have hends : (c.representative x = n ∨ c.representative x = c.otherEnd n (x, y)) ∧
      (c.representative y = n ∨ c.representative y = c.otherEnd n (x, y)) := by
    simp only [otherEnd, hrep]
    rcases h.moves.owner hm hcoal hxy with e | e
    · split
      · exact ⟨.inr rfl, .inl ‹_›⟩
      · exact ⟨.inl e.symm, .inr rfl⟩
    · rw [if_pos e.symm]
      exact ⟨.inr rfl, .inl e.symm⟩
  have h₁ : Invariant (c.setMoveState m .frozen) pending (fun _ => False)
      (fun i => i = n ∨ i = c.otherEnd n (x, y)) :=
    h.setMoveState hxy (fun _ => .inl) hends.1 hends.2
  rw [freezeMove_eq hxy]
  refine h₁.addWorkList ?_ ?_ ?_
  · intro hs
    exact h₁.sorted.freeze_degree _ hs id
  · -- what has no move before has none when one is given up
    intro hs hne
    have hidle := h.sorted.no_moves _ (by simpa using hs) hne
    refine Bool.eq_false_iff.2 fun hrel => Bool.eq_false_iff.1 hidle ?_
    obtain ⟨i, hi, hl⟩ := isMoveRelated_iff.1 hrel
    rw [isLive_setMoveState] at hl
    refine isMoveRelated_iff.2 ⟨i, by simpa using hi, ?_⟩
    split at hl
    · simp at hl
    · exact hl
  · rintro i hne (hi | hi)
    · exact hi
    · exact absurd hi hne

/-- Once all moves of a node are given up, the node is no exception any more. -/
theorem Invariant.foldl_freezeMove {n : Nat} {ms : List Nat}
    (h : Invariant c pending (fun _ => False) (· = n)) (hn : c.state.get n = .simplify)
    (hms : ∀ m ∈ ms, m ∈ c.moveList.get n)
    (hlive : ∀ m ∈ c.moveList.get n, c.isLive m = true → m ∈ ms) :
    Invariant (ms.foldl (Coloring.freezeMove n) c) pending (fun _ => False) (fun _ => False) := by
  induction ms generalizing c with
  | nil =>
      -- all moves that were left are given up
      have hidle : c.isMoveRelated n = false := by
        refine Bool.eq_false_iff.2 fun hrel => ?_
        obtain ⟨m, hm, hl⟩ := isMoveRelated_iff.1 hrel
        exact List.not_mem_nil (hlive m hm hl)
      refine { h with sorted := { h.sorted with freeze_moves := ?_, no_moves := ?_ } }
      · intro i hi _
        refine h.sorted.freeze_moves i hi ?_
        rintro rfl
        cases hn.symm.trans hi
      · intro i hi _
        by_cases hin : i = n
        · exact hin ▸ hidle
        · exact h.sorted.no_moves i hi hin
  | cons m ms ih =>
      have hsame := SameGraph.freezeMove c n m
      have hm := hms m List.mem_cons_self
      refine ih (h.freezeMove hn hm) (hsame.simplify n hn) ?_ ?_
      · intro i hi
        rw [hsame.moveList]
        exact hms i (List.mem_cons_of_mem _ hi)
      · intro i hi hl
        rw [hsame.moveList] at hi
        rw [isLive_freezeMove (h.moves.lt_size hm).2] at hl
        split at hl
        · cases hl
        · rename_i him
          rcases List.mem_cons.1 (hlive i hi hl) with e | hms'
          · exact absurd e him
          · exact hms'

theorem SameGraph.foldl_freezeMove (n : Nat) (ms : List Nat) (c : Coloring) :
    SameGraph c (ms.foldl (Coloring.freezeMove n) c) := by
  induction ms generalizing c with
  | nil => exact .refl c
  | cons m ms ih => exact (SameGraph.freezeMove c n m).trans (ih _)

theorem SameGraph.freezeMoves (c : Coloring) (n : Nat) : SameGraph c (c.freezeMoves n) :=
  .foldl_freezeMove n _ c

theorem Invariant.freezeMoves {n : Nat} (h : Invariant c pending (fun _ => False) (· = n))
    (hn : c.state.get n = .simplify) :
    Invariant (c.freezeMoves n) pending (fun _ => False) (fun _ => False) := by
  refine h.foldl_freezeMove hn ?_ ?_
  · intro m hm
    exact (List.mem_filter.1 hm).1
  · intro m hm hl
    exact List.mem_filter.2 ⟨hm, hl⟩

end Coloring

end TreeCompiler
