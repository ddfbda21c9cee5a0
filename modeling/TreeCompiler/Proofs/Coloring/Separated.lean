import TreeCompiler.Proofs.Coloring.Settle

/-!
# Coloring separation — what the graph knows of the edges it started with

An edge of the start stays an edge, but its ends may be taken out of the graph or merged, and then
only old entries of neighbor lists tell of it.  `Separated` says what is still known of each edge in
terms of the nodes that stand for its ends:

- the two are different nodes;
- if both are in the graph, they share an edge;
- a node on the select stack has an entry for the other one, if that one gets its color earlier.

Each transition keeps it, and a neighbor of a merged node is the only one that needs a new edge.
-/

namespace TreeCompiler

namespace Coloring

variable {c d : Coloring} {u v : Nat}

/-- Node `a` has a neighbor for which `b` stands. -/
def Sees (c : Coloring) (a b : Nat) : Prop := ∃ w ∈ c.neighbors.get a, c.representative w = b

/-- Node `b` gets its color before node `a` of the select stack. -/
def Before (c : Coloring) (b a : Nat) : Prop :=
  c.isRemoved b = false ∨ [b, a].Sublist c.selectStack

structure Separated (c : Coloring) : Prop where
  apart : ∀ {a b}, b ∈ c.edges.get a → c.representative a ≠ c.representative b
  near : ∀ {a b}, b ∈ c.edges.get a → c.isRemoved (c.representative a) = false →
    c.isRemoved (c.representative b) = false → c.representative b ∈ c.edges.get (c.representative a)
  sees : ∀ {a b}, b ∈ c.edges.get a → c.representative a ∈ c.selectStack →
    Before c (c.representative b) (c.representative a) →
    Sees c (c.representative a) (c.representative b)

/-! ## Transitions without a merge -/

theorem SameGraph.before (hcd : SameGraph c d) (a b : Nat) : Before d b a ↔ Before c b a := by
  simp only [Before, hcd.isRemoved, hcd.selectStack]

theorem SameGraph.sees (hcd : SameGraph c d) (a b : Nat) : Sees d a b ↔ Sees c a b := by
  simp only [Sees, hcd.neighbors, hcd.representative]

theorem SameGraph.separated (hcd : SameGraph c d) (h : Separated c) : Separated d where
  apart := by
    intro a b hb
    rw [hcd.edges] at hb
    rw [hcd.representative, hcd.representative]
    exact h.apart hb
  near := by
    intro a b hb
    rw [hcd.edges] at hb
    rw [hcd.representative, hcd.representative, hcd.isRemoved, hcd.isRemoved, hcd.edges]
    exact h.near hb
  sees := by
    intro a b hb
    rw [hcd.edges] at hb
    rw [hcd.representative, hcd.representative, hcd.selectStack, hcd.before, hcd.sees]
    exact h.sees hb

theorem isRemoved_setState_selectStack (c : Coloring) (n i : Nat) :
    (c.setState n .selectStack).isRemoved i = if i = n then true else c.isRemoved i := by
  simp only [isRemoved, state_setState]
  split <;> rfl

section Push

variable {n : Nat} (hlists : Lists c) (hn : c.state.get n = .simplify)

include hn in
theorem selectStack_push_of_simplify :
    (c.setState n .selectStack).selectStack = n :: c.selectStack :=
  selectStack_push (by rw [hn]; decide)

include hn in
theorem representative_push (i : Nat) :
    (c.setState n .selectStack).representative i = c.representative i :=
  representative_setState (by rw [hn]; decide) (by decide) i

include hn in
/-- The node that leaves comes first on the stack. -/
theorem before_push {a b : Nat} : Before (c.setState n .selectStack) b a ↔
    (b ≠ n ∧ c.isRemoved b = false) ∨ [b, a].Sublist (n :: c.selectStack) := by
  unfold Before
  rw [isRemoved_setState_selectStack, selectStack_push_of_simplify hn]
  by_cases hbn : b = n
  · simp [hbn]
  · simp [hbn]

include hlists hn in
/-- What gets its color before the node that leaves is still in the graph. -/
theorem isRemoved_of_before_push {b : Nat} (hb : Before (c.setState n .selectStack) b n) :
    c.isRemoved b = false := by
  have hnot : n ∉ c.selectStack := by
    rw [hlists.select, hn]
    decide
  rcases (before_push hn).1 hb with ⟨_, hrem⟩ | hsub
  · exact hrem
  · rcases List.sublist_cons_iff.1 hsub with hsub | ⟨r, hr, hsub⟩
    · exact absurd (hsub.subset (by simp)) hnot
    · cases hr
      exact absurd (hsub.subset (by simp)) hnot

include hn in
/-- The node that leaves was in the graph when the nodes of the stack left it. -/
theorem Before.of_push {a b : Nat} (hb : Before (c.setState n .selectStack) b a) :
    Before c b a := by
  rcases (before_push hn).1 hb with ⟨_, hrem⟩ | hsub
  · exact .inl hrem
  · rcases List.sublist_cons_iff.1 hsub with hsub | ⟨r, hr, hsub⟩
    · exact .inr hsub
    · cases hr
      exact .inl (isRemoved_of_isOpen (by rw [hn]; rfl))

include hlists hn in
/-- A node that leaves the graph has entries for all neighbors that stay. -/
theorem Separated.push (h : Separated c) (hedges : Edges c) :
    Separated (c.setState n .selectStack) := by
  have hopen : (c.state.get n).isOpen = true := by rw [hn]; rfl
  have hrep := representative_push hn
  have hremoved := isRemoved_setState_selectStack c n
  have hsees : ∀ a b, Sees (c.setState n .selectStack) a b ↔ Sees c a b := by
    intro a b
    simp only [Sees, hrep, (setState_frame c n .selectStack).2.2.2.1]
  refine { apart := ?apart, near := ?near, sees := ?sees }
  case apart =>
    intro a b hb
    rw [hrep, hrep]
    exact h.apart (by simpa using hb)
  case near =>
    intro a b hb ha hb'
    rw [hrep, hremoved] at ha hb'
    rw [hrep, hrep]
    split at ha
    · cases ha
    · split at hb'
      · cases hb'
      · simpa using h.near (by simpa using hb) ha hb'
  case sees =>
    intro a b hb ha hbefore
    have hb₀ : b ∈ c.edges.get a := by simpa using hb
    rw [hrep, hrep, hsees]
    rw [hrep, hrep] at hbefore
    rw [hrep, selectStack_push_of_simplify hn] at ha
    rcases List.mem_cons.1 ha with han | ha
    · -- the node itself: all that is colored earlier is still in the graph
      rw [han] at hbefore
      have hb' := isRemoved_of_before_push hlists hn hbefore
      have hnear := h.near hb₀ (by rw [han]; exact isRemoved_of_isOpen hopen) hb'
      rw [han] at hnear ⊢
      refine ⟨c.representative b, (hedges.mem_neighbors (isPrecolored_of_isOpen hopen)).2 hnear, ?_⟩
      refine representative_of_not_coalesced fun e => ?_
      simp [isRemoved, e] at hb'
    · exact h.sees hb₀ ha (hbefore.of_push hn)

end Push

/-! ## Merges -/

section Absorb

theorem not_coalesced_of_stays
    (hu : c.state.get u = .precolored ∨ (c.state.get u).isListed = true) :
    c.state.get u ≠ .coalesced := by
  rcases hu with hu | hu
  · rw [hu]
    exact nofun
  · exact not_coalesced_of_isListed hu

theorem isRemoved_of_stays (hu : c.state.get u = .precolored ∨ (c.state.get u).isListed = true) :
    c.isRemoved u = false := by
  rcases hu with hu | hu
  · simp [isRemoved, hu]
  · exact isRemoved_of_isOpen (NodeState.isOpen_of_isListed hu)

theorem isRemoved_absorb (c : Coloring) (u v i : Nat) :
    (c.absorb u v).isRemoved i = if i = v then true else c.isRemoved i := by
  simp only [isRemoved, state_absorb]
  split <;> rfl

theorem representative_of_not_removed {n : Nat} (hn : c.isRemoved n = false) :
    c.representative n = n := by
  refine representative_of_not_coalesced fun e => ?_
  simp [isRemoved, e] at hn

variable (hcoh : Coherent c) (hm : Merges c u v)

include hm in
theorem Merges.selectStack_absorb : (c.absorb u v).selectStack = c.selectStack := by
  rw [(absorb_frame c u v).2.2.2.2.2.2.1]
  refine selectStack_setState (fun e => ?_) (by decide)
  have hleaves := hm.leaves
  rw [e] at hleaves
  cases hleaves

include hcoh hm

theorem Merges.representative_absorb (n : Nat) : (c.absorb u v).representative n =
    if c.representative n = v then u else c.representative n :=
  Coloring.representative_absorb hcoh.aliases (hcoh.lt_size_of_isListed hm.leaves)
    (not_coalesced_of_stays hm.stays) (not_coalesced_of_isListed hm.leaves) hm.ne n

theorem Merges.mem_edges_absorb (i j : Nat) : j ∈ (c.absorb u v).edges.get i ↔
    j ∈ c.edges.get i ∨ (i ∈ c.adjacent v ∧ j = u) ∨ (i = u ∧ j ∈ c.adjacent v) :=
  hcoh.edges.mem_absorb hm.lt_size hm.leaves hm.notEdge i j

/-- A node of the stack is no end of the merge, and none of its neighbors is new. -/
theorem Merges.of_mem_selectStack {a : Nat} (ha : a ∈ c.selectStack) : a ≠ u ∧ a ≠ v ∧
    ∀ w, w ∈ (c.absorb u v).neighbors.get a ↔ w ∈ c.neighbors.get a := by
  have hs := (hcoh.lists.select a).1 ha
  have hau : a ≠ u := by
    rintro rfl
    have hrem := isRemoved_of_stays hm.stays
    simp [isRemoved, hs] at hrem
  have hav : a ≠ v := by
    rintro rfl
    have hleaves := hm.leaves
    rw [hs] at hleaves
    cases hleaves
  have hpre : c.isPrecolored a = false := by simp [isPrecolored, hs]
  have hpre' : (c.absorb u v).isPrecolored a = false := by
    simp [isPrecolored, state_absorb, hav, hs]
  refine ⟨hau, hav, fun w => ?_⟩
  rw [(hcoh.edges.absorb hm.lt_size hm.leaves).mem_neighbors hpre', hm.mem_edges_absorb hcoh,
    hcoh.edges.mem_neighbors hpre]
  refine or_iff_left ?_
  rintro (⟨hadj, _⟩ | ⟨e, _⟩)
  · have hremoved := (mem_adjacent.1 hadj).2
    simp [isRemoved, hs] at hremoved
  · exact hau e

/-- What is colored before a node of the stack is so before the merge, too. -/
theorem Before.of_absorb {a b : Nat}
    (hb : Before (c.absorb u v) ((c.absorb u v).representative b) a) :
    Before c (c.representative b) a := by
  unfold Before at hb
  rw [hm.representative_absorb hcoh, isRemoved_absorb, hm.selectStack_absorb] at hb
  by_cases hbv : c.representative b = v
  · rw [hbv]
    exact .inl (isRemoved_of_isOpen (NodeState.isOpen_of_isListed hm.leaves))
  · rw [if_neg hbv, if_neg hbv] at hb
    exact hb

/-- A neighbor of the merged node stands for itself and is another node. -/
theorem Merges.of_mem_adjacent {t : Nat} (ht : t ∈ c.adjacent v) :
    c.isRemoved t = false ∧ c.representative t = t ∧ t ≠ v ∧ t ≠ u := by
  have hvpre := isPrecolored_of_isOpen (NodeState.isOpen_of_isListed hm.leaves)
  have htv := (hcoh.edges.mem_neighbors hvpre).1 (mem_adjacent.1 ht).1
  have htr := (mem_adjacent.1 ht).2
  refine ⟨htr, representative_of_not_removed htr, ?_, ?_⟩
  · rintro rfl
    exact hcoh.edges.irrefl t htv
  · rintro rfl
    exact Bool.eq_false_iff.1 hm.notEdge (hasEdge_iff.2 (hcoh.edges.symm htv))

/-- A neighbor of what the merged node stands for is a neighbor of the merged node. -/
theorem Separated.mem_adjacent (h : Separated c) {a b : Nat} (hb : b ∈ c.edges.get a)
    (hav : c.representative a = v) (hbr : c.isRemoved (c.representative b) = false) :
    c.representative b ∈ c.adjacent v := by
  have hvopen := NodeState.isOpen_of_isListed hm.leaves
  have hnear := h.near hb (by rw [hav]; exact isRemoved_of_isOpen hvopen) hbr
  rw [hav] at hnear
  exact Coloring.mem_adjacent.2
    ⟨(hcoh.edges.mem_neighbors (isPrecolored_of_isOpen hvopen)).2 hnear, hbr⟩

/-- Nodes with an edge between them do not both become the same node. -/
theorem Separated.ne_of_representative (h : Separated c) {a b : Nat} (hb : b ∈ c.edges.get a)
    (hav : c.representative a = v) : c.representative b ≠ v ∧ c.representative b ≠ u := by
  refine ⟨fun e => h.apart hb (hav.trans e.symm), fun e => ?_⟩
  have hu := h.mem_adjacent hcoh hm hb hav (by rw [e]; exact isRemoved_of_stays hm.stays)
  exact (hm.of_mem_adjacent hcoh hu).2.2.2 e

/-- The ends of an edge are not merged: a node has no edge to one that stands for another end. -/
theorem Separated.apart_absorb (h : Separated c) {a b : Nat}
    (hb : b ∈ (c.absorb u v).edges.get a) :
    (c.absorb u v).representative a ≠ (c.absorb u v).representative b := by
  have hrep := hm.representative_absorb hcoh
  have hrepu : c.representative u = u :=
    representative_of_not_removed (isRemoved_of_stays hm.stays)
  rw [hrep, hrep]
  -- the edge is an old one, or one that the node that stays has got from the other, either way
  -- round
  rcases (hm.mem_edges_absorb hcoh a b).1 hb with hb | ⟨hadj, rfl⟩ | ⟨rfl, hadj⟩
  · by_cases hav : c.representative a = v
    · obtain ⟨h₁, h₂⟩ := h.ne_of_representative hcoh hm hb hav
      rw [if_pos hav, if_neg h₁]
      exact Ne.symm h₂
    · by_cases hbv : c.representative b = v
      · obtain ⟨_, h₂⟩ := h.ne_of_representative hcoh hm (hcoh.edges.symm hb) hbv
        rw [if_neg hav, if_pos hbv]
        exact h₂
      · rw [if_neg hav, if_neg hbv]
        exact h.apart hb
  · obtain ⟨_, hrepa, hne, hneu⟩ := hm.of_mem_adjacent hcoh hadj
    rw [hrepa, if_neg hne, hrepu, if_neg hm.ne]
    exact hneu
  · obtain ⟨_, hrepb, hne, hneu⟩ := hm.of_mem_adjacent hcoh hadj
    rw [hrepb, if_neg hne, hrepu, if_neg hm.ne]
    exact Ne.symm hneu

/-- Where both ends of an edge are in the graph, the merge has given the node that stays the edges
of the other. -/
theorem Separated.near_absorb (h : Separated c) {a b : Nat}
    (hb : b ∈ (c.absorb u v).edges.get a)
    (ha : (c.absorb u v).isRemoved ((c.absorb u v).representative a) = false)
    (hbr : (c.absorb u v).isRemoved ((c.absorb u v).representative b) = false) :
    (c.absorb u v).representative b ∈
      (c.absorb u v).edges.get ((c.absorb u v).representative a) := by
  have hmem := hm.mem_edges_absorb hcoh
  have hrepu : c.representative u = u :=
    representative_of_not_removed (isRemoved_of_stays hm.stays)
  rw [hm.representative_absorb hcoh, isRemoved_absorb] at ha hbr
  rw [hm.representative_absorb hcoh, hm.representative_absorb hcoh, hmem]
  rcases (hmem a b).1 hb with hb | ⟨hadj, rfl⟩ | ⟨rfl, hadj⟩
  · -- of an old edge, at most one end stood for the node that leaves
    by_cases hav : c.representative a = v
    · obtain ⟨h₁, _⟩ := h.ne_of_representative hcoh hm hb hav
      rw [if_neg h₁, if_neg h₁] at hbr
      rw [if_pos hav, if_neg h₁]
      exact .inr (.inr ⟨rfl, h.mem_adjacent hcoh hm hb hav hbr⟩)
    · rw [if_neg hav, if_neg hav] at ha
      by_cases hbv : c.representative b = v
      · rw [if_neg hav, if_pos hbv]
        exact .inr (.inl ⟨h.mem_adjacent hcoh hm (hcoh.edges.symm hb) hbv ha, rfl⟩)
      · rw [if_neg hbv, if_neg hbv] at hbr
        rw [if_neg hav, if_neg hbv]
        exact .inl (h.near hb ha hbr)
  · obtain ⟨_, hrepa, hne, _⟩ := hm.of_mem_adjacent hcoh hadj
    rw [hrepa, if_neg hne, hrepu, if_neg hm.ne]
    exact .inr (.inl ⟨hadj, rfl⟩)
  · obtain ⟨_, hrepb, hne, _⟩ := hm.of_mem_adjacent hcoh hadj
    rw [hrepb, if_neg hne, hrepu, if_neg hm.ne]
    exact .inr (.inr ⟨rfl, hadj⟩)

/-- A node of the stack sees what its neighbors stand for after the merge. -/
theorem Separated.sees_absorb (h : Separated c) {a b : Nat}
    (hb : b ∈ (c.absorb u v).edges.get a)
    (ha : (c.absorb u v).representative a ∈ (c.absorb u v).selectStack)
    (hbefore : Before (c.absorb u v) ((c.absorb u v).representative b)
      ((c.absorb u v).representative a)) :
    Sees (c.absorb u v) ((c.absorb u v).representative a) ((c.absorb u v).representative b) := by
  have hrep := hm.representative_absorb hcoh
  rw [hrep, hm.selectStack_absorb] at ha
  -- neither end of the merge is on the stack, so the node is what it was
  have hav : c.representative a ≠ v := by
    intro e
    rw [if_pos e] at ha
    exact (hm.of_mem_selectStack hcoh ha).1 rfl
  rw [if_neg hav] at ha
  rcases (hm.mem_edges_absorb hcoh a b).1 hb with hb | ⟨hadj, rfl⟩ | ⟨rfl, hadj⟩
  · rw [hrep a, if_neg hav] at hbefore ⊢
    rcases h.sees hb ha (hbefore.of_absorb hcoh hm) with ⟨w, hw, hwb⟩
    exact ⟨w, ((hm.of_mem_selectStack hcoh ha).2.2 w).2 hw, by rw [hrep, hrep, hwb]⟩
  · obtain ⟨htr, hrepa, _, _⟩ := hm.of_mem_adjacent hcoh hadj
    rw [hrepa] at ha
    have hs := (hcoh.lists.select _).1 ha
    simp [isRemoved, hs] at htr
  · rw [representative_of_not_removed (isRemoved_of_stays hm.stays)] at ha
    exact absurd rfl (hm.of_mem_selectStack hcoh ha).1

theorem Separated.absorb (h : Separated c) : Separated (c.absorb u v) :=
  ⟨h.apart_absorb hcoh hm, h.near_absorb hcoh hm, h.sees_absorb hcoh hm⟩

end Absorb

/-! ## Steps -/

theorem Separated.step (h : Separated c) (hcoh : Coherent c) (hstep : c.step? = some d) :
    Separated d := by
  cases hcoh.transition hstep with
  | stay hcd => exact hcd.separated h
  | remove n hn hcd => exact hcd.separated (h.push hcoh.lists hn hcoh.edges)
  | merge u v hm hcd =>
      exact hcd.separated (h.absorb hcoh hm)

theorem Separated.reaches (h : Separated c) (hcoh : Coherent c) (hcd : Reaches c d) :
    Separated d := by
  induction hcd with
  | refl => exact h
  | step hreach hstep ih => exact ih.step (hcoh.reaches hreach) hstep

/-- At the start each node stands for itself and is in the graph. -/
theorem separated_of_all_in_graph (hgraph : ∀ n, c.isRemoved n = false)
    (hempty : c.selectStack = []) (hedges : Edges c) : Separated c := by
  have hrep := fun n => representative_of_not_removed (hgraph n)
  refine ⟨?_, ?_, ?_⟩
  · rintro a b hb
    rw [hrep, hrep]
    rintro rfl
    exact hedges.irrefl a hb
  · intro a b hb _ _
    rw [hrep, hrep]
    exact hb
  · intro a b _ ha
    rw [hempty] at ha
    cases ha

end Coloring

end TreeCompiler
