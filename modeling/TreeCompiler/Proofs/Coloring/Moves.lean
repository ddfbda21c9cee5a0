import TreeCompiler.Machine.TwoRegisters
import TreeCompiler.Proofs.Coloring.Outcome

/-!
# Coloring moves — how each move ends

The bucket of a move says something of its ends (`Fits`): those of a coalesced move stand as one
node, those of a constrained move can never do so, and of the ends of a frozen move one has given up
its moves.  A move waits in the active bucket only while its ends stay what they are, because a
merge of one of them takes it back to the worklist.  So each step keeps what the buckets say
(`Coherent.classified_step`), and when nothing is left to do every move is decided for good
(`moves_settle`).
-/

namespace TreeCompiler

/-- Merged, found to interfere, or given up. -/
def MoveState.isDecided : MoveState → Bool
  | .coalesced | .constrained | .frozen => true
  | _ => false

namespace Coloring

open Interference (Built)

variable {c d e : Coloring} {i n u v x y : Nat} {s : MoveState}

/-! ## What a bucket says -/

/-- Two nodes that can never stand as one: they stand for different registers, or there is an edge
between nodes that they stand with. -/
def KeptApart (c : Coloring) (x y : Nat) : Prop :=
  (c.isPrecolored (c.representative x) = true ∧ c.isPrecolored (c.representative y) = true
      ∧ c.representative x ≠ c.representative y)
    ∨ ∃ a b, b ∈ c.edges.get a ∧ c.representative a = c.representative x
        ∧ c.representative b = c.representative y

/-- The node has no moves to wait for any more. -/
def GaveUp (c : Coloring) (n : Nat) : Prop :=
  c.state.get n = .simplify ∨ c.state.get n = .selectStack

/-- What the bucket of a move says of its ends. -/
inductive Fits (c : Coloring) (x y : Nat) : MoveState → Prop
  /-- Nothing is known before the move is considered. -/
  | worklist : Fits c x y .worklist
  | active (hne : c.representative x ≠ c.representative y)
      (hfree : c.isPrecolored (c.representative x) = true →
        c.isPrecolored (c.representative y) = false) : Fits c x y .active
  | coalesced (heq : c.representative x = c.representative y) : Fits c x y .coalesced
  | constrained (hapart : KeptApart c x y) : Fits c x y .constrained
  | frozen (hne : c.representative x ≠ c.representative y)
      (hidle : GaveUp c (c.representative x) ∨ GaveUp c (c.representative y)) : Fits c x y .frozen

/-- Every move is in a bucket that fits its ends. -/
structure Classified (c : Coloring) : Prop where
  fits : ∀ {i x y}, c.moves[i]? = some (x, y) → Fits c x y (c.moveState.get i)

/-- Steps that merge nothing leave a move where it fits. -/
theorem Fits.mono (h : Fits c x y s) (hrep : ∀ n, d.representative n = c.representative n)
    (hpre : ∀ n, d.isPrecolored n = c.isPrecolored n) (hedges : d.edges = c.edges)
    (hidle : ∀ n, GaveUp c n → GaveUp d n) : Fits d x y s := by
  cases h with
  | worklist => exact .worklist
  | active hne hfree =>
      refine .active ?_ ?_
      · rwa [hrep, hrep]
      · rwa [hrep, hrep, hpre, hpre]
  | coalesced heq => exact .coalesced ((hrep x).trans (heq.trans (hrep y).symm))
  | constrained hapart =>
      unfold KeptApart at hapart
      refine .constrained ?_
      unfold KeptApart
      simpa only [hrep, hpre, hedges] using hapart
  | frozen hne hgave =>
      refine .frozen ?_ ?_
      · rwa [hrep, hrep]
      · rw [hrep, hrep]
        exact hgave.imp (hidle _) (hidle _)

theorem SameGraph.fits (hcd : SameGraph c d) (h : Fits c x y s) : Fits d x y s :=
  h.mono hcd.representative hcd.isPrecolored hcd.edges fun n hn =>
    hn.imp (hcd.simplify n) (hcd.state_iff rfl).2

/-- A node that leaves the graph had given up its moves before. -/
theorem Fits.push (h : Fits c x y s) (hn : c.state.get n = .simplify) :
    Fits (c.setState n .selectStack) x y s := by
  refine h.mono (representative_push hn)
    (isPrecolored_setState (by rw [hn]; rfl) nofun) (by simp) fun i hi => ?_
  unfold GaveUp
  rw [state_setState]
  split
  · exact .inr rfl
  · exact hi

section Absorb

variable (hcoh : Coherent c) (hm : Merges c u v)

include hcoh hm

theorem Merges.representative_of_ne (hx : c.representative x ≠ v) :
    (c.absorb u v).representative x = c.representative x :=
  (hm.representative_absorb hcoh x).trans (if_neg hx)

/-- A merge parts no nodes. -/
theorem Merges.representative_eq (hxy : c.representative x = c.representative y) :
    (c.absorb u v).representative x = (c.absorb u v).representative y := by
  rw [hm.representative_absorb hcoh, hm.representative_absorb hcoh, hxy]

theorem KeptApart.absorb (h : KeptApart c x y) : KeptApart (c.absorb u v) x y := by
  rcases h with ⟨hx, hy, hne⟩ | ⟨a, b, hedge, ha, hb⟩
  · -- the node that is merged is no register, so these stay
    have hstays : ∀ {n}, c.isPrecolored (c.representative n) = true → c.representative n ≠ v := by
      rintro n hn rfl
      cases hn.symm.trans (isPrecolored_of_isOpen (NodeState.isOpen_of_isListed hm.leaves))
    refine .inl ?_
    rw [hm.representative_of_ne hcoh (hstays hx), hm.representative_of_ne hcoh (hstays hy),
      isPrecolored_absorb hm.leaves, isPrecolored_absorb hm.leaves]
    exact ⟨hx, hy, hne⟩
  · exact .inr ⟨a, b, (hm.mem_edges_absorb hcoh a b).2 (.inl hedge),
      hm.representative_eq hcoh ha, hm.representative_eq hcoh hb⟩

/-- A node that gave up its moves stays, and nothing is merged into it. -/
theorem Merges.apart_of_gaveUp (hne : c.representative x ≠ c.representative y)
    (hx : GaveUp c (c.representative x)) :
    (c.absorb u v).representative x ≠ (c.absorb u v).representative y
      ∧ GaveUp (c.absorb u v) ((c.absorb u v).representative x) := by
  obtain ⟨_, hends⟩ := hm.ends hcoh
  have hxu : c.representative x ≠ u := fun e => not_idle_of_waits hends.left (e ▸ hx)
  have hxv : c.representative x ≠ v := fun e => not_idle_of_waits hends.right (e ▸ hx)
  rw [hm.representative_of_ne hcoh hxv, hm.representative_absorb hcoh y, GaveUp, state_absorb,
    if_neg hxv]
  refine ⟨?_, hx⟩
  split
  · exact hxu
  · exact hne

/-- A merge leaves a move where it fits, unless the move waits for the node that is merged. -/
theorem Fits.absorb (h : Fits c x y s)
    (hwaits : s = .active → c.representative x ≠ v ∧ c.representative y ≠ v) :
    Fits (c.absorb u v) x y s := by
  cases h with
  | worklist => exact .worklist
  | active hne hfree =>
      obtain ⟨hx, hy⟩ := hwaits rfl
      refine .active ?_ ?_
      · rwa [hm.representative_of_ne hcoh hx, hm.representative_of_ne hcoh hy]
      · rwa [hm.representative_of_ne hcoh hx, hm.representative_of_ne hcoh hy,
          isPrecolored_absorb hm.leaves, isPrecolored_absorb hm.leaves]
  | coalesced heq => exact .coalesced (hm.representative_eq hcoh heq)
  | constrained hapart => exact .constrained (hapart.absorb hcoh hm)
  | frozen hne hidle =>
      rcases hidle with hx | hy
      · obtain ⟨hne', hx'⟩ := hm.apart_of_gaveUp hcoh hne hx
        exact .frozen hne' (.inl hx')
      · obtain ⟨hne', hy'⟩ := hm.apart_of_gaveUp hcoh hne.symm hy
        exact .frozen hne'.symm (.inr hy')

end Absorb

/-! ## How buckets change -/

/-- Moves stay in their buckets, or come back from waiting. -/
def Woken (c d : Coloring) : Prop :=
  ∀ i, d.moveState.get i = c.moveState.get i
    ∨ (c.moveState.get i = .active ∧ d.moveState.get i = .worklist)

namespace Woken

theorem of_eq (h : d.moveState = c.moveState) : Woken c d := fun i => .inl (by rw [h])

theorem trans (h : Woken c d) (h' : Woken d e) : Woken c e := by
  intro i
  rcases h i with hi | ⟨hi, hi'⟩
  · rw [← hi]
    exact h' i
  · rcases h' i with hj | ⟨hj, _⟩
    · exact .inr ⟨hi, hj.trans hi'⟩
    · cases hi'.symm.trans hj

theorem eq_of_ne (h : Woken c d) (hi : c.moveState.get i ≠ .active) :
    d.moveState.get i = c.moveState.get i :=
  (h i).resolve_right fun hwoken => hi hwoken.1

theorem foldl {α : Type} {f : Coloring → α → Coloring} (hf : ∀ c a, Woken c (f c a)) (l : List α)
    (c : Coloring) : Woken c (l.foldl f c) := by
  induction l generalizing c with
  | nil => exact of_eq rfl
  | cons a l ih => exact (hf c a).trans (ih _)

end Woken

theorem woken_decrementDegree (c : Coloring) (t : Nat) : Woken c (c.decrementDegree t) := by
  unfold Coloring.decrementDegree
  split
  · exact .of_eq rfl
  · dsimp only
    split
    · have henabled := enabled_enableMoves { c with degree := c.degree.set t (c.degree.get t - 1) }
        (({ c with degree := c.degree.set t (c.degree.get t - 1) } : Coloring).adjacent t ++ [t])
      split
      · exact Woken.trans (c := c) henabled.moveState (.of_eq (by simp))
      · exact henabled.moveState
    · exact .of_eq rfl

theorem woken_simplify (c : Coloring) (n : Nat) : Woken c (c.simplify n) :=
  (Woken.of_eq (by simp)).trans (.foldl woken_decrementDegree _ _)

theorem woken_exchange (u : Nat) (c : Coloring) (t : Nat) : Woken c (exchange u c t) :=
  (Woken.of_eq (by simp)).trans (woken_decrementDegree _ t)

theorem moveState_addWorkList (c : Coloring) (n : Nat) :
    (c.addWorkList n).moveState = c.moveState := by
  unfold addWorkList
  split <;> simp

/-- After linking, a merge only takes moves back from waiting. -/
theorem woken_combine (c : Coloring) (u v : Nat) :
    Woken ((c.merge u v).enableMoves [v]) (c.combine u v) := by
  have hfold := Woken.foldl (woken_exchange u) (((c.merge u v).enableMoves [v]).adjacent v)
    ((c.merge u v).enableMoves [v])
  rw [combine_eq]
  refine hfold.trans ?_
  dsimp only
  split
  · exact .of_eq (by simp)
  · exact .of_eq rfl

theorem woken_merge (c : Coloring) (u v : Nat) : Woken c ((c.merge u v).enableMoves [v]) :=
  (Woken.of_eq (by simp [merge])).trans (enabled_enableMoves _ _).moveState

theorem woken_wake (c : Coloring) (i : Nat) : Woken c (c.wake i) := (enabled_wake c i).moveState

theorem foldl_wake_ne_active {ms : List Nat} (hi : i ∈ ms) :
    (ms.foldl wake c).moveState.get i ≠ .active := by
  induction ms generalizing c with
  | nil => cases hi
  | cons j ms ih =>
      rw [List.foldl_cons]
      rcases List.mem_cons.1 hi with rfl | hi
      · have hwake : (c.wake i).moveState.get i ≠ .active := by
          unfold wake
          split
          · rw [moveState_setMoveState, if_pos rfl]
            decide
          · assumption
        rwa [(Woken.foldl woken_wake ms (c.wake i)).eq_of_ne hwake]
      · exact ih hi

/-- No move of a node waits once its moves are considered again. -/
theorem enableNodeMoves_ne_active (hi : i ∈ c.moveList.get n) :
    (c.enableNodeMoves n).moveState.get i ≠ .active := by
  rw [enableNodeMoves_eq]
  by_cases hactive : c.moveState.get i = .active
  · exact foldl_wake_ne_active (List.mem_filter.2 ⟨hi, by simp [isLive, hactive]⟩)
  · rwa [(Woken.foldl woken_wake (c.nodeMoves n) c).eq_of_ne hactive]

/-- No move of the merged node waits after a merge. -/
theorem combine_ne_active (hi : i ∈ c.moveList.get v) :
    (c.combine u v).moveState.get i ≠ .active := by
  have hmem : i ∈ (c.merge u v).moveList.get v :=
    (mem_moveList_joinMoves (c.link u v) u v v i).2 (.inl (by simpa using hi))
  have hlinked : ((c.merge u v).enableMoves [v]).moveState.get i ≠ .active :=
    enableNodeMoves_ne_active hmem
  rwa [(woken_combine c u v).eq_of_ne hlinked]

theorem moveState_foldl_freezeMove {ms : List Nat} (hms : ∀ j ∈ ms, j < c.moves.size) (i : Nat) :
    (ms.foldl (freezeMove n) c).moveState.get i =
      if i ∈ ms then .frozen else c.moveState.get i := by
  induction ms generalizing c with
  | nil => rfl
  | cons j ms ih =>
      obtain ⟨hj, hms⟩ := List.forall_mem_cons.1 hms
      have hmoves : (c.freezeMove n j).moves = c.moves := (SameGraph.freezeMove c n j).moves
      rw [List.foldl_cons, ih (by rwa [hmoves]), freezeMove_eq (Array.getElem?_eq_getElem hj),
        moveState_addWorkList, moveState_setMoveState]
      by_cases hij : i = j <;> simp [hij]

/-- A node that gives up its moves freezes those that may still be merged. -/
theorem Coherent.moveState_giveUp (h : Coherent c) (n i : Nat) :
    ((c.setState n .simplify).freezeMoves n).moveState.get i =
      if i ∈ c.nodeMoves n then .frozen else c.moveState.get i := by
  have hmoves : (c.setState n .simplify).nodeMoves n = c.nodeMoves n := by
    have hlive : (c.setState n .simplify).isLive = c.isLive := by
      funext j
      simp [isLive]
    rw [nodeMoves, nodeMoves, hlive, (setState_frame c n .simplify).2.2.2.2.2.1]
  rw [freezeMoves, hmoves, moveState_foldl_freezeMove]
  · simp
  · intro j hj
    simpa using (h.moves.lt_size (List.mem_filter.1 hj).1).2

/-- Deciding on a move puts that move into a bucket; others at most come back from waiting. -/
theorem Decision.woken (h : Decision c i u v d) : ∃ s, Woken (c.setMoveState i s) d := by
  cases h with
  | same => exact ⟨.coalesced, .of_eq (moveState_addWorkList _ u)⟩
  | clash =>
      exact ⟨.constrained, .of_eq ((moveState_addWorkList _ v).trans (moveState_addWorkList _ u))⟩
  | merge =>
      exact ⟨.coalesced, ((woken_merge _ u v).trans (woken_combine _ u v)).trans
        (.of_eq (moveState_addWorkList _ u))⟩
  | wait => exact ⟨.active, .of_eq rfl⟩

theorem isLive_eq_not_isDecided (c : Coloring) (i : Nat) :
    c.isLive i = !(c.moveState.get i).isDecided := by
  unfold isLive MoveState.isDecided
  cases c.moveState.get i <;> rfl

/-- A step leaves decided moves in their buckets. -/
theorem Coherent.moveState_step (h : Coherent c) (hstep : c.step? = some d)
    (hi : (c.moveState.get i).isDecided = true) : d.moveState.get i = c.moveState.get i := by
  have hlive : c.isLive i = false := by rw [isLive_eq_not_isDecided, hi]; rfl
  have hactive : c.moveState.get i ≠ .active := by
    intro hs
    rw [hs] at hi
    cases hi
  have hgiveUp : ∀ n, ((c.setState n .simplify).freezeMoves n).moveState.get i
      = c.moveState.get i := by
    intro n
    rw [h.moveState_giveUp, if_neg]
    intro hmem
    cases hlive.symm.trans (List.mem_filter.1 hmem).2
  cases step_of_step? hstep with
  | simplify _ => exact (woken_simplify c _).eq_of_ne hactive
  | @coalesce j _ hj =>
      have hmem := SortedSet.mem_of_min? hj
      obtain ⟨p, hp⟩ := h.exists_move hmem
      obtain ⟨s, hwoken⟩ := (h.decision hp (h.isLive_of_worklist hmem) rfl).woken
      -- the move that is considered was not decided, so it is another one
      have hij : i ≠ j := by
        rintro rfl
        cases hlive.symm.trans (h.isLive_of_worklist hmem)
      have hset := moveState_setMoveState c j i s
      rw [if_neg hij] at hset
      exact (hwoken.eq_of_ne (by rwa [hset])).trans hset
  | freeze _ _ _ => exact hgiveUp _
  | selectSpill _ _ _ _ => exact hgiveUp _

/-- A decided move stays in its bucket for the rest of a run. -/
theorem Coherent.moveState_reaches (h : Coherent c) (hcd : Reaches c d)
    (hi : (c.moveState.get i).isDecided = true) : d.moveState.get i = c.moveState.get i := by
  induction hcd with
  | refl => rfl
  | step hreach hstep ih => exact ((h.reaches hreach).moveState_step hstep (ih ▸ hi)).trans ih

/-! ## Steps keep what the buckets say -/

theorem Classified.of_woken (h : Classified c) (hwoken : Woken c d) (hmoves : d.moves = c.moves)
    (hfits : ∀ {x y s}, Fits c x y s → Fits d x y s) : Classified d := by
  refine ⟨fun {i x y} hxy => ?_⟩
  rw [hmoves] at hxy
  rcases hwoken i with hi | ⟨_, hi⟩
  · rw [hi]
    exact hfits (h.fits hxy)
  · rw [hi]
    exact .worklist

theorem Classified.addWorkList (h : Classified c) (n : Nat) : Classified (c.addWorkList n) :=
  h.of_woken (.of_eq (moveState_addWorkList c n)) (SameGraph.addWorkList c n).moves
    (SameGraph.addWorkList c n).fits

theorem Classified.setMoveState (h : Classified c) (hxy : c.moves[i]? = some (x, y))
    (hfits : Fits c x y s) : Classified (c.setMoveState i s) := by
  have hsame := (SameNodes.setMoveState c i s).toSameGraph
  refine ⟨fun {j x' y'} hj => ?_⟩
  rw [hsame.moves] at hj
  rw [moveState_setMoveState]
  refine hsame.fits ?_
  split
  · rename_i hji
    cases hxy.symm.trans (hji ▸ hj)
    exact hfits
  · exact h.fits hj

/-- The ends of a move, in the order in which they are merged. -/
theorem mergeEnds_cases (huv : c.mergeEnds (x, y) = (u, v)) :
    (c.isPrecolored (c.representative y) = true ∧ u = c.representative y ∧ v = c.representative x)
      ∨ (c.isPrecolored (c.representative y) = false ∧ u = c.representative x
          ∧ v = c.representative y) := by
  unfold mergeEnds at huv
  dsimp only at huv
  split at huv <;> cases huv
  · exact .inl ⟨‹_›, rfl, rfl⟩
  · exact .inr ⟨Bool.eq_false_iff.2 ‹_›, rfl, rfl⟩

section Coalesce

variable (h : Coherent c) (huv : c.mergeEnds (x, y) = (u, v))

include huv

theorem fits_of_mergeEnds_eq (heq : u = v) : Fits c x y .coalesced := by
  rcases mergeEnds_cases huv with ⟨_, hu, hv⟩ | ⟨_, hu, hv⟩
  · exact .coalesced ((hv.symm.trans heq.symm).trans hu)
  · exact .coalesced ((hu.symm.trans heq).trans hv)

include h in
/-- Registers come first, so if the second end is one, both are. -/
theorem Coherent.fits_constrained (hne : u ≠ v)
    (hbound : c.isPrecolored v = true ∨ c.hasEdge u v = true) : Fits c x y .constrained := by
  have hself := h.aliases.representative_idem
  rcases mergeEnds_cases huv with ⟨hpre, rfl, rfl⟩ | ⟨hpre, rfl, rfl⟩
  · rcases hbound with hv | hedge
    · exact .constrained (.inl ⟨hv, hpre, hne.symm⟩)
    · exact .constrained (.inr ⟨_, _, h.edges.symm (hasEdge_iff.1 hedge), hself x, hself y⟩)
  · rcases hbound with hv | hedge
    · cases hpre.symm.trans hv
    · exact .constrained (.inr ⟨_, _, hasEdge_iff.1 hedge, hself x, hself y⟩)

theorem fits_active (hne : u ≠ v) (hv : c.isPrecolored v = false) : Fits c x y .active := by
  rcases mergeEnds_cases huv with ⟨_, rfl, rfl⟩ | ⟨_, rfl, rfl⟩
  · exact .active hne.symm fun hpre => by cases hv.symm.trans hpre
  · exact .active hne fun _ => hv

include h in
theorem Coherent.fits_absorb (hm : Merges c u v) : Fits (c.absorb u v) x y .coalesced := by
  have hrep : ∀ n, c.representative n = u ∨ c.representative n = v →
      (c.absorb u v).representative n = u := by
    rintro n (hn | hn)
    · rw [hm.representative_absorb h, hn, if_neg hm.ne]
    · rw [hm.representative_absorb h, hn, if_pos rfl]
  obtain ⟨hx, hy⟩ := representative_mergeEnds huv
  exact .coalesced ((hrep x hx).trans (hrep y hy).symm)

end Coalesce

/-- A merge fits the move that it was made for, and moves that waited for the merged node wait no
more. -/
theorem Coherent.classified_combine (h : Coherent c) (hc : Classified c)
    (hxy : c.moves[i]? = some (x, y)) (huv : c.mergeEnds (x, y) = (u, v)) (hm : Merges c u v) :
    Classified ((c.setMoveState i .coalesced).combine u v) := by
  have hsame := h.sameGraph_merge hxy huv hm.leaves
  have hwoken := (woken_merge (c.setMoveState i .coalesced) u v).trans (woken_combine _ u v)
  refine ⟨fun {j x' y'} hj => ?_⟩
  rw [hsame.moves, (absorb_frame c u v).2.2.2.2.2.2.2.2] at hj
  have hset := moveState_setMoveState c i j .coalesced
  by_cases hji : j = i
  · -- the move itself: what stood for either end is now what stays
    subst hji
    cases hxy.symm.trans hj
    rw [if_pos rfl] at hset
    rw [hwoken.eq_of_ne (by rw [hset]; decide), hset]
    exact hsame.fits (h.fits_absorb huv hm)
  · rw [if_neg hji] at hset
    rcases hwoken j with hold | ⟨_, hnew⟩
    · rw [hold, hset]
      refine hsame.fits ((hc.fits hj).absorb h hm fun hactive => ?_)
      -- a move of the merged node would be back in the worklist
      have hlisted := h.moves.listed hj
      have hnot : j ∉ c.moveList.get v := fun hmem =>
        combine_ne_active (u := u) (c := c.setMoveState i .coalesced) (by simpa using hmem)
          (hold.trans (hset.trans hactive))
      exact ⟨fun e => hnot (e ▸ hlisted.1), fun e => hnot (e ▸ hlisted.2)⟩
    · rw [hnew]
      exact .worklist

theorem Coherent.classified_coalesce (h : Coherent c) (hc : Classified c)
    (hi : i ∈ c.worklistMoves) : Classified (c.coalesce i) := by
  obtain ⟨⟨x, y⟩, hxy⟩ := h.exists_move hi
  obtain ⟨u, v, huv⟩ : ∃ u v, c.mergeEnds (x, y) = (u, v) := ⟨_, _, rfl⟩
  have hdecision := h.decision hxy (h.isLive_of_worklist hi) huv
  generalize c.coalesce i = d at hdecision ⊢
  cases hdecision with
  | same heq => exact (hc.setMoveState hxy (fits_of_mergeEnds_eq huv heq)).addWorkList u
  | clash hne hbound =>
      have hfits := h.fits_constrained huv hne hbound
      exact ((hc.setMoveState hxy hfits).addWorkList u).addWorkList v
  | merge hm => exact (h.classified_combine hc hxy huv hm).addWorkList u
  | wait hne hv => exact hc.setMoveState hxy (fits_active huv hne hv)

/-- When no move is left to consider, giving up a node freezes moves that waited. -/
theorem Coherent.classified_giveUp (h : Coherent c) (hc : Classified c)
    (hn : c.state.get n = .freeze ∨ c.state.get n = .spill)
    (hnone : c.worklistMoves.min? = none) :
    Classified ((c.setState n .simplify).freezeMoves n) := by
  have hsame := SameGraph.giveUp hn
  have hcoal : c.state.get n ≠ .coalesced := by
    rcases hn with hn | hn <;> rw [hn] <;> decide
  have hgaveUp : GaveUp ((c.setState n .simplify).freezeMoves n) n :=
    .inl ((SameGraph.freezeMoves (c.setState n .simplify) n).simplify n
      (by rw [state_setState, if_pos rfl]))
  refine ⟨fun {i x y} hxy => ?_⟩
  rw [hsame.moves] at hxy
  have hfits := hc.fits hxy
  rw [h.moveState_giveUp]
  split
  · rename_i hi
    obtain ⟨hlisted, hlive⟩ := List.mem_filter.1 hi
    -- no move is in the worklist, so what is frozen here waited, and its ends differ
    have hactive : c.moveState.get i = .active := by
      have hnot : c.moveState.get i ≠ .worklist := fun hs =>
        SortedSet.not_mem_of_min?_eq_none hnone i
          ((h.lists.worklistMoves i).2 ⟨(h.moves.lt_size hlisted).2, hs⟩)
      simpa [isLive, hnot] using hlive
    rw [hactive] at hfits
    cases hfits with
    | active hne hfree =>
    refine .frozen (by rwa [hsame.representative, hsame.representative]) ?_
    rw [hsame.representative, hsame.representative]
    rcases h.moves.owner hlisted hcoal hxy with hx | hy
    · exact .inl (hx ▸ hgaveUp)
    · exact .inr (hy ▸ hgaveUp)
  · exact hsame.fits hfits

/-- Each step keeps what the buckets say. -/
theorem Coherent.classified_step (h : Coherent c) (hc : Classified c) (hstep : c.step? = some d) :
    Classified d := by
  cases step_of_step? hstep with
  | simplify hn =>
      have hs := (h.lists.simplify _).1 (SortedSet.mem_of_min? hn)
      have hsame := sameGraph_simplify c
      exact hc.of_woken (woken_simplify c _) (by rw [(hsame _).moves]; simp) fun hfits =>
        (hsame _).fits (hfits.push hs)
  | coalesce _ hi => exact h.classified_coalesce hc (SortedSet.mem_of_min? hi)
  | freeze _ hnone hn =>
      exact h.classified_giveUp hc (.inl ((h.lists.freeze _).1 (SortedSet.mem_of_min? hn))) hnone
  | selectSpill _ hnone _ hns => exact h.classified_giveUp hc (.inr (h.state_bestSpill hns)) hnone

theorem Coherent.classified_reaches (h : Coherent c) (hc : Classified c) (hcd : Reaches c d) :
    Classified d := by
  induction hcd with
  | refl => exact hc
  | step hreach hstep ih => exact (h.reaches hreach).classified_step ih hstep

/-! ## When nothing is left to do -/

namespace Ready

variable (h : Ready c) (hc : Classified c)

include h

theorem isPrecolored_of_live (hi : i ∈ c.moveList.get n) (hn : c.state.get n ≠ .coalesced)
    (hlive : c.isLive i = true) : c.isPrecolored n = true := by
  have hlisted := h.coherent.not_listed h.done n
  rw [isPrecolored_iff]
  rcases h.coherent.state_of_live hi hn hlive with hs | hs | hs
  · exact hs
  · rw [hs] at hlisted
    cases hlisted
  · rw [hs] at hlisted
    cases hlisted

include hc

/-- A move that still waits would be between two registers, but such moves do not wait. -/
theorem isDecided (hxy : c.moves[i]? = some (x, y)) : (c.moveState.get i).isDecided = true := by
  have hcoherent := h.coherent
  have hfits := hc.fits hxy
  have hlt : i < c.moves.size := (Array.getElem?_eq_some_iff.1 hxy).1
  cases hs : c.moveState.get i with
  | worklist =>
      exact absurd ((hcoherent.lists.worklistMoves i).2 ⟨hlt, hs⟩)
        (SortedSet.not_mem_of_min?_eq_none (worklists_of_step?_eq_none h.done).2.1 i)
  | active =>
      have hlive : c.isLive i = true := by simp [isLive, hs]
      have hlisted := hcoherent.moves.listed hxy
      have hpre := fun {n} hi => h.isPrecolored_of_live (n := c.representative n) hi
        (hcoherent.aliases.not_coalesced n) hlive
      rw [hs] at hfits
      cases hfits with
      | active hne hfree => cases (hpre hlisted.2).symm.trans (hfree (hpre hlisted.1))
  | coalesced => rfl
  | constrained => rfl
  | frozen => rfl

/-- A move is coalesced if and only if its ends stand as one node. -/
theorem coalesced_iff (hxy : c.moves[i]? = some (x, y)) :
    c.moveState.get i = .coalesced ↔ c.representative x = c.representative y := by
  have hdecided := h.isDecided hc hxy
  have hfits := hc.fits hxy
  generalize c.moveState.get i = s at hdecided hfits
  cases hfits with
  | worklist => cases hdecided
  | active => cases hdecided
  | coalesced heq => exact iff_of_true rfl heq
  | constrained hapart =>
      -- the ends of an edge never stand as one node, however they were merged
      refine iff_of_false nofun fun heq => ?_
      rcases hapart with ⟨_, _, hne⟩ | ⟨a, b, hedge, ha, hb⟩
      · exact hne heq
      · exact h.separated.apart hedge ((ha.trans heq).trans hb.symm)
  | frozen hne hidle => exact iff_of_false nofun hne

omit hc in
/-- Nodes that are kept apart never share a color. -/
theorem color_ne_of_keptApart {a b : Nat} (hapart : KeptApart c x y)
    (ha : c.stackColors.color.get (c.representative x) = some a)
    (hb : c.stackColors.color.get (c.representative y) = some b) : a ≠ b := by
  rcases hapart with ⟨hx, hy, hne⟩ | ⟨p, q, hedge, hp, hq⟩
  · rw [(h.color_precolored hx).1] at ha
    rw [(h.color_precolored hy).1] at hb
    rintro rfl
    exact hne (h.fixed_inj hx hy ha hb)
  · exact h.color_ne_of_edge hedge (hp ▸ ha) (hq ▸ hb)

/-- The moves that are counted are those whose ends stand as one node. -/
theorem coalescedMoves_result : c.assignColors.result.coalescedMoves =
    c.moves.toList.countP fun e => c.representative e.1 = c.representative e.2 := by
  have hassigned := h.coherent.assigned.2
  have hget : ∀ i, i < c.moves.size → c.moves[i]? = some (c.moves[i]?.getD (0, 0)) := by
    intro i hi
    rw [Array.getElem?_eq_getElem hi, Option.getD_some]
  have hmoves : c.moves.toList = (List.range c.moves.size).map (c.moves[·]?.getD (0, 0)) := by
    refine List.ext_getElem (by simp) fun i hi _ => ?_
    have hlt : i < c.moves.size := by simpa using hi
    simp [hlt]
  rw [hmoves, List.countP_map]
  unfold result
  rw [hassigned.moves, hassigned.moveState]
  refine List.countP_congr fun i hi => ?_
  simp only [Function.comp_apply, decide_eq_true_eq]
  exact h.coalesced_iff hc (hget i (List.mem_range.1 hi))

end Ready

/-- The result has the color of the node that stands for a node, if it has any. -/
theorem Ready.get?_colors {g : Interference} (h : Ready c) (hg : g.WellFormed)
    (htemps : c.temps = g.graph.nodes) {t : Temp} (hn : g.graph.nodes[n]? = some t) :
    c.assignColors.result.colors.get? t = c.stackColors.color.get (c.representative n) := by
  rw [get?_colors_of_node hg h.coherent htemps hn]
  split
  · -- a spilled node stands for itself, and has no color
    rename_i hspilled
    have hstack := h.mem_selectStack_of_spilled (state_assignColors c ▸ hspilled)
    rw [(h.coherent.lists.of_mem_selectStack hstack).2.1]
    rcases h.stack_outcome hstack with ⟨hnot, _⟩ | ⟨_, hnone⟩
    · exact absurd hspilled hnot
    · exact hnone.symm
  · rfl

/-! ## Runs -/

/-- How the moves of a graph end in the state in which a run over it settles. -/
structure MovesSettle (m : Machine) (g : Interference) (options : AllocOptions) (avoid : TempSet)
    (c : Coloring) : Prop where
  reaches : Reaches (ofGraph g m options avoid).makeWorklist c
  done : c.step? = none
  run : (ofGraph g m options avoid).run = .ok c.assignColors.result
  moves : c.moves = g.moves
  /-- No move waits, or is still to be considered. -/
  worklist_empty : c.worklistMoves.toList = []
  active_empty : c.activeMoves.toList = []
  decided : ∀ i, i < g.moves.size → (c.moveState.get i).isDecided = true
  coalesced_iff : ∀ i x y, g.moves[i]? = some (x, y) →
    (c.moveState.get i = .coalesced ↔ c.representative x = c.representative y)
  /-- The ends of a coalesced move have the same color, or none. -/
  same_color : ∀ i x y s t, g.moves[i]? = some (x, y) → g.graph.nodes[x]? = some s →
    g.graph.nodes[y]? = some t → c.moveState.get i = .coalesced →
    c.assignColors.result.colors.get? s = c.assignColors.result.colors.get? t
  color_ne : ∀ i x y s t a b, g.moves[i]? = some (x, y) → g.graph.nodes[x]? = some s →
    g.graph.nodes[y]? = some t → c.moveState.get i = .constrained →
    c.assignColors.result.colors.get? s = some a →
    c.assignColors.result.colors.get? t = some b → a ≠ b
  count : c.assignColors.result.coalescedMoves =
    g.moves.toList.countP fun e => c.representative e.1 = c.representative e.2

section OfGraph

variable {m : Machine} {g : Interference} {options : AllocOptions} {avoid : TempSet}

theorem moveState_foldl_addMove (es : List (Nat × Nat)) (h : ∀ i, c.moveState.get i = .worklist)
    (i : Nat) : (es.foldl (fun c e => c.addMove e.1 e.2) c).moveState.get i = .worklist := by
  induction es generalizing c with
  | nil => exact h i
  | cons e es ih =>
      refine ih fun j => ?_
      refine (Table.get_set c.moveState c.moves.size j .worklist).trans ?_
      split
      · rfl
      · exact h j

theorem woken_sortNode (c : Coloring) (n : Nat) : Woken c (c.sortNode n) := by
  unfold sortNode
  split
  · split
    · exact .of_eq (by simp)
    · split <;> exact .of_eq (by simp)
  · exact .of_eq rfl

/-- At the start every move is to be considered. -/
theorem moveState_makeWorklist_ofGraph (i : Nat) :
    (ofGraph g m options avoid).makeWorklist.moveState.get i = .worklist := by
  have hedges : Woken (ofNodes g m options avoid)
      (g.edges.foldl (fun c e => c.addEdge e.1 e.2) (ofNodes g m options avoid)) :=
    Woken.foldl (fun c e => .of_eq (by simp)) _ _
  have hnodes : ∀ j, (ofNodes g m options avoid).moveState.get j = .worklist := fun _ => rfl
  have hgraph : ∀ j, (ofGraph g m options avoid).moveState.get j = .worklist := by
    rw [ofGraph_eq]
    refine moveState_foldl_addMove _ fun j => ?_
    rw [hedges.eq_of_ne (by rw [hnodes]; decide), hnodes]
  rw [makeWorklist_eq, (Woken.foldl woken_sortNode _ _).eq_of_ne (by rw [hgraph]; decide), hgraph]

theorem classified_makeWorklist_ofGraph : Classified (ofGraph g m options avoid).makeWorklist :=
  ⟨fun _ => by rw [moveState_makeWorklist_ofGraph]; exact .worklist⟩

/-- Every move of a graph ends settled: merged if and only if its ends stand as one node, which then
have the same color; constrained only if its ends have different colors; and a decided move stays
decided as it is, so that the moves counted as coalesced are those whose ends were merged. -/
theorem moves_settle (hg : Built m g) (options : AllocOptions) (avoid : TempSet)
    (hcoalescing : options.coalescing = true) :
    (∃ c, MovesSettle m g options avoid c) ∧
    ∀ c d i, Reaches (ofGraph g m options avoid).makeWorklist c → Reaches c d →
      (c.moveState.get i).isDecided = true → d.moveState.get i = c.moveState.get i := by
  have hstart := start_ofGraph hg.wellFormed m options avoid
  obtain ⟨hcoherent, hsame⟩ := hstart.coherent
  refine ⟨?_, fun c d i hc hcd => (hcoherent.reaches hc).moveState_reaches hcd⟩
  obtain ⟨c, hreach, hdone, hrun⟩ := hstart.run
  obtain ⟨hready, hkeeps⟩ := ready_of_reaches hg hreach hdone
  have hclassified := hcoherent.classified_reaches classified_makeWorklist_ofGraph hreach
  have htemps : c.temps = g.graph.nodes := hkeeps.temps.trans ofGraph_frame.2.1
  have hmoves : c.moves = g.moves := by
    rw [hcoherent.moves_reaches hreach, hsame.moves, moves_ofGraph, if_pos hcoalescing]
  have hcolor := fun {n t} hn => hready.get?_colors (n := n) (t := t) hg.wellFormed htemps hn
  have hdecided : ∀ i, i < c.moves.size → (c.moveState.get i).isDecided = true := fun i hi =>
    hready.isDecided hclassified (Array.getElem?_eq_getElem hi)
  refine ⟨c, hreach, hdone, hrun _, hmoves, ?_, ?_, ?_, ?_, ?_, ?_, ?_⟩
  · exact List.head?_eq_none_iff.1 (worklists_of_step?_eq_none hdone).2.1
  · refine List.eq_nil_iff_forall_not_mem.2 fun i hi => ?_
    obtain ⟨hlt, hactive⟩ := (hready.coherent.lists.activeMoves i).1 hi
    have hi' := hdecided i hlt
    rw [hactive] at hi'
    cases hi'
  · exact fun i hi => hdecided i (hmoves ▸ hi)
  · exact fun i x y hxy => hready.coalesced_iff hclassified (hmoves ▸ hxy)
  · intro i x y s t hxy hs ht hstate
    have heq := (hready.coalesced_iff hclassified (hmoves ▸ hxy)).1 hstate
    rw [hcolor hs, hcolor ht, heq]
  · intro i x y s t a b hxy hs ht hstate ha hb
    have hfits := hclassified.fits (hmoves.symm ▸ hxy)
    rw [hstate] at hfits
    cases hfits with
    | constrained hapart =>
    rw [hcolor hs] at ha
    rw [hcolor ht] at hb
    exact hready.color_ne_of_keptApart hapart ha hb
  · rw [hready.coalescedMoves_result hclassified, hmoves]

/-- A copy between neighbors, a chain of copies to a register, and a copy of a temp to itself. -/
theorem moves_settle_chain :
    let g := (((((Interference.registers .twoRegisters).addEdge ⟨100⟩ ⟨101⟩).addMove ⟨100⟩
      ⟨101⟩).addMove ⟨100⟩ ⟨102⟩).addMove ⟨102⟩ ⟨0⟩).addMove ⟨101⟩ ⟨101⟩
    Built .twoRegisters g ∧ ({} : AllocOptions).coalescing = true ∧
      ∃ c, MovesSettle .twoRegisters g {} .empty c := by
  intro g
  have hbuilt : Built .twoRegisters g :=
    .addMove _ _ (.addMove _ _ (.addMove _ _ (.addMove _ _ (.addEdge _ _ .registers))))
  exact ⟨hbuilt, rfl, (moves_settle hbuilt {} .empty rfl).1⟩

end OfGraph

end Coloring

end TreeCompiler
