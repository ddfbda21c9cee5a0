import TreeCompiler.Proofs.Coloring.Hosts
import TreeCompiler.Proofs.Coloring.Proper

/-!
# Coloring room — nodes that surely get a color

A node that leaves the graph with fewer neighbors than there are colors gets one of them: what it
sees when its turn comes are these neighbors, or nodes that they were merged into (`Roomy`).  Only a
node that was chosen leaves the graph with more neighbors (`Low`), so that nodes that are spilled
were chosen (`Ready.chosen_of_spilled`).
-/

namespace TreeCompiler

namespace Coloring

variable {c d start : Coloring} {P : Nat → Prop} {a n t u v : Nat}

/-! ## Degrees of nodes ready to be simplified -/

/-- A node that is ready to be simplified has a low degree, or is one of some exceptions. -/
def Low (P : Nat → Prop) (c : Coloring) : Prop :=
  ∀ n, c.state.get n = .simplify → c.degree.get n < c.k ∨ P n

theorem SameNodes.low (hcd : SameNodes c d) (h : Low P c) : Low P d := by
  intro n hn
  rw [hcd.states] at hn
  rw [hcd.degree, hcd.k]
  exact h n hn

theorem Low.setState {s : NodeState} (h : Low P c)
    (hs : s = .simplify → c.degree.get n < c.k ∨ P n) : Low P (c.setState n s) := by
  intro i hi
  rw [state_setState] at hi
  simp only [setState_frame]
  split at hi
  · rename_i hin
    exact hin ▸ hs hi
  · exact h i hi

theorem Low.addWorkList (h : Low P c) (u : Nat) : Low P (c.addWorkList u) := by
  unfold Coloring.addWorkList
  split
  · rename_i hcond
    simp only [Bool.and_eq_true, decide_eq_true_eq] at hcond
    exact h.setState fun _ => .inl hcond.2
  · exact h

theorem Low.freezeMoves (h : Low P c) (n : Nat) : Low P (c.freezeMoves n) := by
  have hfold : ∀ (ms : List Nat) (c : Coloring), Low P c → Low P (ms.foldl (freezeMove n) c) := by
    intro ms
    induction ms with
    | nil => exact fun _ h => h
    | cons m ms ih =>
        intro c h
        refine ih _ ?_
        cases hm : c.moves[m]? with
        | none =>
            unfold freezeMove
            simp only [hm]
            exact h
        | some e =>
            rw [freezeMove_eq hm]
            exact Low.addWorkList ((SameNodes.setMoveState c m .frozen).low h) _
  exact hfold _ c h

/-- Only a node whose degree goes below the number of colors becomes ready. -/
theorem Low.decrementDegree (h : Low P c) (hk : 0 < c.k) (t : Nat) :
    Low P (c.decrementDegree t) := by
  by_cases hpre : c.isPrecolored t = true
  · rw [decrementDegree_of_isPrecolored hpre]
    exact h
  · have hdec := decremented (c := c) (t := t) (by simpa using hpre)
    intro n hn
    rw [hdec.states] at hn
    rw [hdec.degree, hdec.k]
    split at hn
    · rename_i hcond
      rw [if_pos hcond.1, hcond.2.2]
      exact .inl (Nat.sub_lt hk Nat.one_pos)
    · refine (h n hn).imp_left fun hlow => ?_
      split
      · rename_i hnt
        exact Nat.lt_of_le_of_lt (Nat.sub_le _ _) (hnt ▸ hlow)
      · exact hlow

theorem Low.foldl_decrementDegree (h : Low P c) (hk : 0 < c.k) (ts : List Nat) :
    Low P (ts.foldl Coloring.decrementDegree c) := by
  induction ts generalizing c with
  | nil => exact h
  | cons t ts ih =>
      refine ih (h.decrementDegree hk t) ?_
      rw [(SameGraph.decrementDegree c t).k]
      exact hk

/-- A node that exchanges a neighbor for another one has no higher degree than before. -/
theorem Low.exchange (h : Low P c) (hk : 0 < c.k) (hu : c.state.get u ≠ .simplify) :
    Low P (exchange u c t) := by
  have hk' : (c.addEdge t u).k = c.k := (addEdge_frame c t u).1
  unfold Coloring.exchange
  by_cases hpre : (c.addEdge t u).isPrecolored t = true
  · -- a register has no degree to go down
    rw [decrementDegree_of_isPrecolored hpre]
    intro n hn
    have hn' : c.state.get n = .simplify := by simpa using hn
    have hnt : n ≠ t := by
      rintro rfl
      rw [isPrecolored_iff, hn] at hpre
      cases hpre
    have hnu : n ≠ u := fun e => hu (by rw [← e, hn'])
    rw [degree_addEdge_of_ne hnt hnu, hk']
    exact h n hn'
  · have hdec := decremented (c := c.addEdge t u) (t := t) (by simpa using hpre)
    intro n hn
    rw [hdec.states] at hn
    rw [hdec.degree, hdec.k, hk']
    split at hn
    · -- it has just left the spill worklist, one below the number of colors
      rename_i hcond
      rw [if_pos hcond.1, hcond.2.2, hk']
      exact .inl (Nat.sub_lt hk Nat.one_pos)
    · have hn' : c.state.get n = .simplify := by simpa using hn
      refine (h n hn').imp_left fun hlow => ?_
      split
      · rename_i hnt
        have hle := degree_addEdge_le c t u t
        rw [hnt] at hlow
        omega
      · rename_i hnt
        have hnu : n ≠ u := fun e => hu (by rw [← e, hn'])
        rwa [degree_addEdge_of_ne hnt hnu]

theorem Low.foldl_exchange {ts : List Nat} (h : Low P c) (hk : 0 < c.k)
    (hu : c.state.get u ≠ .simplify) (hts : u ∉ ts) : Low P (ts.foldl (Coloring.exchange u) c) := by
  induction ts generalizing c with
  | nil => exact h
  | cons t ts ih =>
      rw [List.mem_cons, not_or] at hts
      refine ih (h.exchange hk hu) ?_ ?_ hts.2
      · rw [(sameGraph_exchange c u t).k, (addEdge_frame c t u).1]
        exact hk
      · rw [state_exchange c t hts.1]
        exact hu

/-- A merge leaves degrees low, but for the merged node, which is not ready to be simplified. -/
theorem Low.combine (h : Low P c) (hk : 0 < c.k) (hu : c.state.get u ≠ .simplify) (huv : u ≠ v)
    (hadj : u ∉ (c.merge u v).adjacent v) : Low P (c.combine u v) := by
  have henabled := enabled_enableMoves (c.merge u v) [v]
  have hmerge : Low P (c.merge u v) := by
    intro n hn
    rw [state_merge] at hn
    split at hn
    · cases hn
    · simpa [Coloring.merge] using h n hn
  have hk' : 0 < ((c.merge u v).enableMoves [v]).k := by
    rw [henabled.k]
    simpa [Coloring.merge] using hk
  have hu' : ((c.merge u v).enableMoves [v]).state.get u ≠ .simplify := by
    rw [henabled.states, state_merge, if_neg huv]
    exact hu
  have hfold := (henabled.toSameNodes.low hmerge).foldl_exchange hk' hu' hadj
  rw [combine_eq]
  dsimp only
  rw [henabled.adjacent]
  split
  · exact hfold.setState fun e => absurd e (by decide)
  · exact hfold

theorem Coherent.low_coalesce {m : Nat} (h : Coherent c) (hlow : Low P c) (hk : 0 < c.k)
    (hm : m ∈ c.worklistMoves) : Low P (c.coalesce m) := by
  rcases h.exists_move hm with ⟨e, he⟩
  rcases huv : c.mergeEnds e with ⟨u, v⟩
  have hset := fun s => (SameNodes.setMoveState c m s).low hlow
  have hdecision := h.decision he (h.isLive_of_worklist hm) huv
  generalize c.coalesce m = d at hdecision ⊢
  cases hdecision with
  | same => exact (hset _).addWorkList u
  | clash => exact ((hset _).addWorkList u).addWorkList v
  | merge hmerge =>
      have hleft : c.state.get u ≠ .simplify := by
        rcases hmerge.ends h with ⟨_, hends⟩
        exact fun hs => not_idle_of_waits hends.left (.inl hs)
      -- the ends share no edge, so the merged node is none of the neighbors
      have hadj : u ∉ ((c.setMoveState m .coalesced).merge u v).adjacent v := by
        rw [(h.decide he huv .coalesced).adjacent_merge (by simpa using hmerge.leaves),
          (SameNodes.setMoveState c m .coalesced).toSameGraph.adjacent]
        intro hmem
        have hpre := isPrecolored_of_isOpen (NodeState.isOpen_of_isListed hmerge.leaves)
        have hedge := (h.edges.mem_neighbors hpre).1 (mem_adjacent.1 hmem).1
        exact Bool.eq_false_iff.1 hmerge.notEdge (hasEdge_iff.2 (h.edges.symm hedge))
      have hcombine := (hset .coalesced).combine (by simpa using hk) (by simpa using hleft)
        hmerge.ne hadj
      exact hcombine.addWorkList u
  | wait => exact hset _

/-- Only a chosen node becomes ready with a high degree. -/
theorem Coherent.low_step (h : Coherent c) (hlow : Low P c) (hk : 0 < c.k)
    (hstep : c.step? = some d) (hP : ∀ n, Chooses c n → P n) : Low P d := by
  cases step_of_step? hstep with
  | simplify hn =>
      refine Low.foldl_decrementDegree (hlow.setState fun e => absurd e (by decide)) ?_ _
      simpa using hk
  | coalesce _ hm => exact h.low_coalesce hlow hk (SortedSet.mem_of_min? hm)
  | @freeze n hs hm hn =>
      have hstate := (h.lists.freeze n).1 (SortedSet.mem_of_min? hn)
      exact (hlow.setState fun _ => .inl (h.sorted.freeze_degree n hstate id)).freezeMoves n
  | @selectSpill n ns hs hm hf hns =>
      exact (hlow.setState fun _ => .inr (hP _ ⟨hs, hm, hf, n, ns, hns, rfl⟩)).freezeMoves _

/-- After the nodes were sorted, those ready to be simplified have low degrees. -/
theorem low_makeWorklist (h : ∀ n, c.state.get n ≠ .simplify) : Low P c.makeWorklist := by
  have hsort : ∀ {c : Coloring} (n : Nat), Low P c → Low P (c.sortNode n) := by
    intro c n h
    unfold sortNode
    split
    · split
      · exact h.setState fun e => absurd e (by decide)
      · rename_i hk
        split
        · exact h.setState fun e => absurd e (by decide)
        · exact h.setState fun _ => .inl (Nat.lt_of_not_le hk)
    · exact h
  have hfold : ∀ (ns : List Nat) (c : Coloring), Low P c → Low P (ns.foldl sortNode c) := by
    intro ns
    induction ns with
    | nil => exact fun _ h => h
    | cons n ns ih => exact fun c h => ih _ (hsort n h)
  rw [makeWorklist_eq]
  exact hfold _ c fun n hn => absurd hn (h n)

/-! ## Nodes with room for a color -/

/-- What stands for the neighbors of a node of the stack that are colored before it also stands for
the entries of a list that is shorter than the number of colors. -/
def Roomy (c : Coloring) (a : Nat) : Prop :=
  ∃ l : List Nat, l.length < c.k ∧ ∀ w ∈ c.neighbors.get a, Before c (c.representative w) a →
    ∃ x ∈ l, c.representative x = c.representative w

theorem SameGraph.roomy (hcd : SameGraph c d) (h : Roomy c a) : Roomy d a := by
  unfold Roomy
  simp only [hcd.k, hcd.neighbors, hcd.representative, hcd.before]
  exact h

theorem Roomy.push (h : Roomy c a) (hn : c.state.get n = .simplify) :
    Roomy (c.setState n .selectStack) a := by
  rcases h with ⟨l, hlength, hl⟩
  refine ⟨l, by simpa using hlength, fun w hw hbefore => ?_⟩
  rw [representative_push hn] at hbefore ⊢
  simp only [representative_push hn]
  exact hl w (by simpa using hw) (hbefore.of_push hn)

/-- A node that leaves the graph with a low degree has room for a color. -/
theorem roomy_push (h : Coherent c) (hseparated : Separated c) (hn : c.state.get n = .simplify)
    (hlow : c.degree.get n < c.k) : Roomy (c.setState n .selectStack) n := by
  have hopen : (c.state.get n).isOpen = true := by rw [hn]; rfl
  have hpre := isPrecolored_of_isOpen hopen
  have hrem := isRemoved_of_isOpen hopen
  rw [h.degrees n hopen, if_neg List.not_mem_nil, Nat.add_zero] at hlow
  refine ⟨c.adjacent n, by simpa using hlow, fun w hw hbefore => ?_⟩
  rw [representative_push hn] at hbefore ⊢
  simp only [representative_push hn]
  have hedge : w ∈ c.edges.get n := (h.edges.mem_neighbors hpre).1 (by simpa using hw)
  have hw' := isRemoved_of_before_push h.lists hn hbefore
  have hself : c.representative n = n := representative_of_not_removed hrem
  have hnear := hseparated.near hedge (by rwa [hself]) hw'
  rw [hself] at hnear
  exact ⟨c.representative w, mem_adjacent.2 ⟨(h.edges.mem_neighbors hpre).2 hnear, hw'⟩,
    h.aliases.representative_idem w⟩

theorem Roomy.absorb (hroomy : Roomy c a) (h : Coherent c) (hm : Merges c u v)
    (ha : a ∈ c.selectStack) : Roomy (c.absorb u v) a := by
  rcases hroomy with ⟨l, hlength, hl⟩
  refine ⟨l, by rwa [(absorb_frame c u v).1], fun w hw hbefore => ?_⟩
  rcases hl w (((hm.of_mem_selectStack h ha).2.2 w).1 hw) (hbefore.of_absorb h hm) with ⟨x, hx, hxw⟩
  refine ⟨x, hx, ?_⟩
  rw [hm.representative_absorb h, hm.representative_absorb h, hxw]

/-! ## Runs -/

/-- Each node of the stack has room for a color, or is one of some exceptions. -/
structure Accounted (P : Nat → Prop) (c : Coloring) : Prop where
  low : Low P c
  roomy : ∀ n ∈ c.selectStack, Roomy c n ∨ P n

theorem Accounted.step (ha : Accounted P c) (h : Coherent c) (hseparated : Separated c)
    (hk : 0 < c.k) (hstep : c.step? = some d) (hP : ∀ n, Chooses c n → P n) : Accounted P d := by
  refine ⟨h.low_step ha.low hk hstep hP, ?_⟩
  intro n hn
  cases h.transition hstep with
  | stay hcd =>
      rw [hcd.selectStack] at hn
      exact (ha.roomy n hn).imp_left hcd.roomy
  | remove i hi hcd =>
      rw [hcd.selectStack, selectStack_push_of_simplify hi] at hn
      rcases List.mem_cons.1 hn with rfl | hn
      · exact (ha.low n hi).imp_left fun hlow => hcd.roomy (roomy_push h hseparated hi hlow)
      · exact (ha.roomy n hn).imp_left fun hroomy => hcd.roomy (hroomy.push hi)
  | merge u v hm hcd =>
      rw [hcd.selectStack, hm.selectStack_absorb] at hn
      exact (ha.roomy n hn).imp_left fun hroomy => hcd.roomy (hroomy.absorb h hm hn)

/-- The exceptions are the nodes that are chosen. -/
theorem Accounted.reaches (ha : Accounted (Chosen start) start) (h : Coherent start)
    (hseparated : Separated start) (hk : 0 < start.k) (hreach : Reaches start c) :
    Accounted (Chosen start) c := by
  induction hreach with
  | refl => exact ha
  | @step c d hreach hstep ih =>
      have hkeeps := h.keeps_reaches hreach
      exact ih.step (h.reaches hreach) (hseparated.reaches h hreach) (hkeeps.k.symm ▸ hk) hstep
        fun n hn => ⟨c, hreach, hn⟩

/-- A node of the stack with room for a color gets one. -/
theorem Ready.colored_of_roomy (h : Ready c) (ha : a ∈ c.selectStack) (hroomy : Roomy c a) :
    c.stackColors.state.get a = .colored := by
  rcases List.append_of_mem ha with ⟨above, below, hstack⟩
  rcases h.coherent.lists.stackColors_at hstack with ⟨cur, hassigned, hbelow, _, hstate, _⟩
  rcases hroomy with ⟨l, hlength, hl⟩
  have hcovers : ∀ x ∈ (cur.usedColors a).items,
      x ∈ l.filterMap fun i => cur.color.get (c.representative i) := by
    intro x hx
    rcases (mem_usedColors cur a x).1 hx with ⟨w, hw, hcolored, hcolor⟩
    rw [hassigned.neighbors] at hw
    rw [hassigned.representative] at hcolored hcolor
    -- a neighbor with a color is a register, or above on the stack
    have hbefore : Before c (c.representative w) a := by
      rcases hcolored with hs | hs
      · refine before_of_above hstack (Classical.byContradiction fun hnot => ?_)
        rw [hbelow _ hnot] at hs
        exact (h.coherent.working.uncolored _).1 hs
      · rw [hassigned.state_iff ⟨by decide, by decide, by decide⟩] at hs
        exact .inl (isRemoved_of_isPrecolored (isPrecolored_iff.2 hs))
    rcases hl w hw hbefore with ⟨i, hi, hrep⟩
    exact List.mem_filterMap.2 ⟨i, hi, hrep ▸ hcolor⟩
  have hle : cur.freeColor a ≤ l.length :=
    Nat.le_trans ((cur.usedColors a).smallestAbsent_le_length hcovers)
      (List.length_filterMap_le _ _)
  rw [hstate, if_pos (Nat.lt_of_le_of_lt hle hlength)]

/-- Nodes that are spilled were chosen. -/
theorem Ready.chosen_of_spilled (h : Ready c) (ha : Accounted P c)
    (hspilled : c.stackColors.state.get n = .spilled) : P n := by
  have hn := h.mem_selectStack_of_spilled (state_assignColors c ▸ hspilled)
  refine (ha.roomy n hn).resolve_left fun hroomy => ?_
  cases hspilled.symm.trans (h.colored_of_roomy hn hroomy)

end Coloring

end TreeCompiler
