import TreeCompiler.Proofs.Coloring.Separated

/-!
# Coloring dense sets — nodes that stay significant

A set of nodes is dense if each of them has as many neighbors among the set and the registers as
there are colors.  Taking out nodes with fewer neighbors never reaches a dense set, so dense sets
are what stands in the way of coloring without spills.

No step makes a set dense that was not dense before (`Coherent.dense_reaches`).  Taking out a node
only takes away neighbors.  For a merge this is what the tests of `Coloring.canCoalesce` are for: a
merged node has too few significant neighbors to be in a dense set itself, and a register gains only
neighbors whose degrees are low anyway (`Dense.of_absorb`).
-/

namespace TreeCompiler

namespace Coloring

variable {c d : Coloring} {A : Nat → Prop} {n u v w : Nat}

/-- Node `n` has as many neighbors among the registers and a set as there are colors. -/
def Crowded (c : Coloring) (A : Nat → Prop) (n : Nat) : Prop :=
  ∃ ws : List Nat, ws.Nodup ∧ c.k ≤ ws.length ∧
    ∀ w ∈ ws, w ∈ c.edges.get n ∧ (c.isPrecolored w = true ∨ A w)

structure Dense (c : Coloring) (A : Nat → Prop) : Prop where
  isOpen : ∀ {n}, A n → (c.state.get n).isOpen = true
  crowded : ∀ {n}, A n → Crowded c A n

/-! ## Steps without a merge -/

theorem SameGraph.dense (hcd : SameGraph c d) (h : Dense d A) : Dense c A where
  isOpen := fun hn => (hcd.isOpen _).symm.trans (h.isOpen hn)
  crowded := by
    intro n hn
    rcases h.crowded hn with ⟨ws, hnodup, hlength, hws⟩
    refine ⟨ws, hnodup, hcd.k ▸ hlength, fun w hw => ?_⟩
    rw [← hcd.edges, ← hcd.isPrecolored]
    exact hws w hw

/-- A node that is taken out was in no set that is dense without it. -/
theorem Dense.of_remove (h : Dense (c.setState n .selectStack) A) : Dense c A where
  isOpen := by
    intro i hi
    have hopen := h.isOpen hi
    rw [state_setState] at hopen
    split at hopen
    · cases hopen
    · exact hopen
  crowded := by
    intro i hi
    rcases h.crowded hi with ⟨ws, hnodup, hlength, hws⟩
    refine ⟨ws, hnodup, by simpa using hlength, fun w hw => ?_⟩
    rcases hws w hw with ⟨hedge, hpre | hA⟩
    · refine ⟨by simpa using hedge, .inl ?_⟩
      rw [isPrecolored_iff, state_setState] at hpre
      split at hpre
      · cases hpre
      · exact isPrecolored_iff.2 hpre
    · exact ⟨by simpa using hedge, .inr hA⟩

/-! ## Merges -/

/-- Different neighbors in the graph count for the degree. -/
theorem Coherent.length_le_degree (h : Coherent c) (hn : (c.state.get n).isOpen = true)
    {ws : List Nat} (hnodup : ws.Nodup)
    (hws : ∀ w ∈ ws, w ∈ c.edges.get n ∧ c.isRemoved w = false) : ws.length ≤ c.degree.get n := by
  have hsub : ws ⊆ c.adjacent n := by
    intro w hw
    rcases hws w hw with ⟨hedge, hrem⟩
    exact mem_adjacent.2 ⟨(h.edges.mem_neighbors (isPrecolored_of_isOpen hn)).2 hedge, hrem⟩
  rw [h.degrees n hn, if_neg List.not_mem_nil]
  exact hnodup.length_le_of_subset hsub

section Absorb

variable (h : Coherent c) (hm : Merges c u v) (hA : Dense (c.absorb u v) A)

/-- What counts for a dense set after a merge was in the graph before. -/
theorem Dense.stays_of_absorb (hA : Dense (c.absorb u v) A)
    (hw : (c.absorb u v).isPrecolored w = true ∨ A w) :
    w ≠ v ∧ (c.isPrecolored w = true ∨ A w) ∧ c.isRemoved w = false := by
  rcases hw with hpre | hw
  · rw [isPrecolored_iff, state_absorb] at hpre
    split at hpre
    · cases hpre
    · exact ⟨‹_›, .inl (isPrecolored_iff.2 hpre), by simp [isRemoved, hpre]⟩
  · have hopen := hA.isOpen hw
    rw [state_absorb] at hopen
    split at hopen
    · cases hopen
    · exact ⟨‹_›, .inr hw, isRemoved_of_isOpen hopen⟩

theorem Dense.isOpen_of_absorb (hA : Dense (c.absorb u v) A) (hw : A w) :
    (c.state.get w).isOpen = true := by
  have hopen := hA.isOpen hw
  rwa [state_absorb, if_neg (hA.stays_of_absorb (.inr hw)).1] at hopen

include h hm hA

/-- A member of a dense set other than the merged node had a high degree already: where it gained
the merged node as a neighbor, it lost the one that was merged. -/
theorem Dense.le_degree (hw : A w) (hwu : w ≠ u) : c.k ≤ c.degree.get w := by
  have hopen := hA.isOpen_of_absorb hw
  have hmem := hm.mem_edges_absorb h w
  rcases hA.crowded hw with ⟨ws, hnodup, hlength, hws⟩
  rw [(absorb_frame c u v).1] at hlength
  refine Nat.le_trans hlength ?_
  by_cases hnew : u ∈ ws ∧ u ∉ c.edges.get w
  · -- the merged node is new, so `v` was a neighbor in its place
    have hadj : w ∈ c.adjacent v := by
      rcases (hmem u).1 (hws u hnew.1).1 with hold | ⟨hadj, _⟩ | ⟨hwu', _⟩
      · exact absurd hold hnew.2
      · exact hadj
      · exact absurd hwu' hwu
    have hvpre := isPrecolored_of_isOpen (NodeState.isOpen_of_isListed hm.leaves)
    have hvw : v ∈ c.edges.get w :=
      h.edges.symm ((h.edges.mem_neighbors hvpre).1 (mem_adjacent.1 hadj).1)
    have hvws : v ∉ ws.erase u := fun hv =>
      (hA.stays_of_absorb (hws v (List.mem_of_mem_erase hv)).2).1 rfl
    have hpos : 0 < ws.length := List.length_pos_of_mem hnew.1
    have hreplaced : ws.length = (v :: ws.erase u).length := by
      rw [List.length_cons, List.length_erase_of_mem hnew.1]
      omega
    rw [hreplaced]
    refine h.length_le_degree hopen (List.nodup_cons.2 ⟨hvws, hnodup.erase u⟩) fun x hx => ?_
    rcases List.mem_cons.1 hx with rfl | hx
    · exact ⟨hvw, isRemoved_of_isOpen (NodeState.isOpen_of_isListed hm.leaves)⟩
    · rcases hnodup.mem_erase_iff.1 hx with ⟨hxu, hx⟩
      refine ⟨?_, (hA.stays_of_absorb (hws x hx).2).2.2⟩
      rcases (hmem x).1 (hws x hx).1 with hold | ⟨_, hxu'⟩ | ⟨hwu', _⟩
      · exact hold
      · exact absurd hxu' hxu
      · exact absurd hwu' hwu
  · refine h.length_le_degree hopen hnodup fun x hx => ?_
    refine ⟨?_, (hA.stays_of_absorb (hws x hx).2).2.2⟩
    rcases (hmem x).1 (hws x hx).1 with hold | ⟨_, rfl⟩ | ⟨hwu', _⟩
    · exact hold
    · exact Classical.byContradiction fun hold => hnew ⟨hx, hold⟩
    · exact absurd hwu' hwu

/-- The merged node has too few significant neighbors to be in a dense set. -/
theorem Dense.not_mem_of_absorb : ¬ A u := by
  intro hu
  have hupre : c.isPrecolored u = false := isPrecolored_of_isOpen (hA.isOpen_of_absorb hu)
  have hmem := hm.mem_edges_absorb h u
  have hallowed : ((SortedSet.ofList (c.adjacent u ++ c.adjacent v)).filter c.isSignificant).size
      < c.k := by
    simpa [canCoalesce, hupre] using hm.allowed
  rcases hA.crowded hu with ⟨ws, hnodup, hlength, hws⟩
  rw [(absorb_frame c u v).1] at hlength
  -- its neighbors in the set were significant neighbors of one of the two, which are not that many
  have hsub : ws ⊆ ((SortedSet.ofList (c.adjacent u ++ c.adjacent v)).filter
      c.isSignificant).toList := by
    intro w hw
    rcases hA.stays_of_absorb (hws w hw).2 with ⟨hwv, hstays, hrem⟩
    have hedge' : w ∈ (c.absorb u v).edges.get u := (hws w hw).1
    have hwu : w ≠ u := by
      rintro rfl
      exact (h.edges.absorb hm.lt_size hm.leaves).irrefl w hedge'
    refine SortedSet.mem_filter.2 ⟨SortedSet.mem_ofList.2 (List.mem_append.2 ?_), ?_⟩
    · rcases (hmem w).1 hedge' with hold | ⟨_, hwu'⟩ | ⟨_, hadj⟩
      · exact .inl (mem_adjacent.2 ⟨(h.edges.mem_neighbors hupre).2 hold, hrem⟩)
      · exact absurd hwu' hwu
      · exact .inr hadj
    · unfold isSignificant
      rcases hstays with hpre | hw'
      · rw [hpre]
        rfl
      · have hdegree := hA.le_degree h hm hw' hwu
        simp [hdegree]
  have hle := hnodup.length_le_of_subset hsub
  exact Nat.lt_irrefl _ (Nat.lt_of_le_of_lt (Nat.le_trans hlength hle) hallowed)

/-- A set that is dense after a merge was dense before. -/
theorem Dense.of_absorb : Dense c A where
  isOpen := hA.isOpen_of_absorb
  crowded := by
    intro w hw
    have hwu : w ≠ u := by
      rintro rfl
      exact hA.not_mem_of_absorb h hm hw
    have hmem := hm.mem_edges_absorb h w
    rcases hA.crowded hw with ⟨ws, hnodup, hlength, hws⟩
    rw [(absorb_frame c u v).1] at hlength
    refine ⟨ws, hnodup, hlength, fun x hx => ?_⟩
    have hstays := (hA.stays_of_absorb (hws x hx).2).2.1
    refine ⟨?_, hstays⟩
    rcases (hmem x).1 (hws x hx).1 with hold | ⟨hadj, rfl⟩ | ⟨hwu', _⟩
    · exact hold
    · -- a new neighbor is a register, and then harmless for a node of high degree
      have hxpre : c.isPrecolored x = true :=
        hstays.resolve_right (hA.not_mem_of_absorb h hm)
      have hall : ∀ t ∈ c.adjacent v, c.isHarmless x t = true := by
        simpa [canCoalesce, hxpre] using hm.allowed
      have hharmless := hall w hadj
      have hwpre := isPrecolored_of_isOpen (hA.isOpen_of_absorb hw)
      have hdegree := hA.le_degree h hm hw hwu
      simp only [isHarmless, hwpre, Bool.false_or, Bool.or_eq_true, decide_eq_true_eq] at hharmless
      rcases hharmless with hlow | hedge
      · exact absurd hlow (Nat.not_lt_of_le hdegree)
      · exact hasEdge_iff.1 hedge
    · exact absurd hwu' hwu

end Absorb

/-! ## Runs -/

theorem Coherent.dense_step (h : Coherent c) (hstep : c.step? = some d) (hA : Dense d A) :
    Dense c A := by
  cases h.transition hstep with
  | stay hcd => exact hcd.dense hA
  | remove n hn hcd => exact .of_remove (hcd.dense hA)
  | merge u v hm hcd => exact (hcd.dense hA).of_absorb h hm

/-- A set that is dense at some point of a run was dense at the start. -/
theorem Coherent.dense_reaches (h : Coherent c) (hcd : Reaches c d) (hA : Dense d A) :
    Dense c A := by
  induction hcd with
  | refl => exact hA
  | step hreach hstep ih => exact ih ((h.reaches hreach).dense_step hstep hA)

/-! ## Choosing a node to spill -/

/-- Node `n` is the next one to be taken as one that may have to be spilled. -/
structure Chooses (c : Coloring) (n : Nat) : Prop where
  simplify : c.simplifyWorklist.min? = none
  moves : c.worklistMoves.min? = none
  freeze : c.freezeWorklist.min? = none
  best : ∃ first rest, c.spillWorklist.toList = first :: rest ∧ n = c.bestSpill first rest

theorem Coherent.state_of_chooses (h : Coherent c) (hn : Chooses c n) : c.state.get n = .spill := by
  rcases hn.best with ⟨first, rest, hlist, rfl⟩
  exact h.state_bestSpill hlist

/-- A node in a worklist is in the one for nodes to spill when one of these is chosen. -/
theorem Coherent.spill_of_chooses (h : Coherent c) (hn : Chooses c n)
    (hw : (c.state.get w).isListed = true) : c.state.get w = .spill := by
  cases hs : c.state.get w with
  | simplify =>
      exact absurd ((h.lists.simplify w).2 hs) (SortedSet.not_mem_of_min?_eq_none hn.simplify w)
  | freeze =>
      exact absurd ((h.lists.freeze w).2 hs) (SortedSet.not_mem_of_min?_eq_none hn.freeze w)
  | spill => rfl
  | _ =>
      rw [hs] at hw
      cases hw

/-- When a node to spill is chosen, all nodes in the graph form a dense set. -/
theorem Coherent.dense_of_chooses (h : Coherent c) (hn : Chooses c n) :
    Dense c fun w => (c.state.get w).isListed = true where
  isOpen := NodeState.isOpen_of_isListed
  crowded := by
    intro w hw
    have hopen := NodeState.isOpen_of_isListed hw
    have hdegree := h.degrees w hopen
    rw [if_neg List.not_mem_nil, Nat.add_zero] at hdegree
    refine ⟨c.adjacent w, h.edges.nodup_adjacent w, ?_, fun x hx => ?_⟩
    · exact hdegree ▸ h.sorted.spill w (h.spill_of_chooses hn hw)
    · rcases mem_adjacent.1 hx with ⟨hneighbor, hrem⟩
      have hedge := (h.edges.mem_neighbors (isPrecolored_of_isOpen hopen)).1 hneighbor
      refine ⟨hedge, ?_⟩
      cases hpre : c.isPrecolored x with
      | true => exact .inl rfl
      | false => exact .inr (h.working.isListed (h.edges.lt_size hedge) hpre hrem)

end Coloring

end TreeCompiler
