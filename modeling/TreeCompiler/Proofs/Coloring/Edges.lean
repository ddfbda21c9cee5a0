import TreeCompiler.Proofs.Coloring.Invariant

/-!
# Coloring edges — adding an edge to the graph

An edge goes into the edge sets of both ends, and into the neighbor list and the degree of each end
that is no register.  A graph is built by adding edges, and a merge adds the edges of the merged
node to the node that stands for it.
-/

namespace TreeCompiler

namespace Coloring

variable {c d : Coloring} {a b : Nat} {pending : List Nat} {high loose : Nat → Prop}

/-! ## What an edge changes -/

@[simp] theorem addNeighbor_frame (c : Coloring) (a b : Nat) :
    (c.addNeighbor a b).k = c.k ∧ (c.addNeighbor a b).temps = c.temps
      ∧ (c.addNeighbor a b).state = c.state ∧ (c.addNeighbor a b).edges = c.edges
      ∧ (c.addNeighbor a b).moveList = c.moveList ∧ (c.addNeighbor a b).moves = c.moves
      ∧ (c.addNeighbor a b).moveState = c.moveState
      ∧ (c.addNeighbor a b).mergedInto = c.mergedInto ∧ (c.addNeighbor a b).color = c.color
      ∧ (c.addNeighbor a b).simplifyWorklist = c.simplifyWorklist
      ∧ (c.addNeighbor a b).freezeWorklist = c.freezeWorklist
      ∧ (c.addNeighbor a b).spillWorklist = c.spillWorklist
      ∧ (c.addNeighbor a b).selectStack = c.selectStack
      ∧ (c.addNeighbor a b).worklistMoves = c.worklistMoves
      ∧ (c.addNeighbor a b).activeMoves = c.activeMoves ∧ (c.addNeighbor a b).avoid = c.avoid
      ∧ (c.addNeighbor a b).checkInvariants = c.checkInvariants := by
  unfold addNeighbor
  split <;> simp

@[simp] theorem addEdge_frame (c : Coloring) (a b : Nat) :
    (c.addEdge a b).k = c.k ∧ (c.addEdge a b).temps = c.temps
      ∧ (c.addEdge a b).state = c.state
      ∧ (c.addEdge a b).moveList = c.moveList ∧ (c.addEdge a b).moves = c.moves
      ∧ (c.addEdge a b).moveState = c.moveState
      ∧ (c.addEdge a b).mergedInto = c.mergedInto ∧ (c.addEdge a b).color = c.color
      ∧ (c.addEdge a b).simplifyWorklist = c.simplifyWorklist
      ∧ (c.addEdge a b).freezeWorklist = c.freezeWorklist
      ∧ (c.addEdge a b).spillWorklist = c.spillWorklist
      ∧ (c.addEdge a b).selectStack = c.selectStack
      ∧ (c.addEdge a b).worklistMoves = c.worklistMoves
      ∧ (c.addEdge a b).activeMoves = c.activeMoves ∧ (c.addEdge a b).avoid = c.avoid
      ∧ (c.addEdge a b).checkInvariants = c.checkInvariants := by
  unfold addEdge
  split <;> simp

@[simp] theorem size_addEdge (c : Coloring) (a b : Nat) : (c.addEdge a b).size = c.size := by
  simp [size]

@[simp] theorem isPrecolored_addEdge (c : Coloring) (a b i : Nat) :
    (c.addEdge a b).isPrecolored i = c.isPrecolored i := by
  simp [isPrecolored]

@[simp] theorem isRemoved_addEdge (c : Coloring) (a b i : Nat) :
    (c.addEdge a b).isRemoved i = c.isRemoved i := by
  simp [isRemoved]

theorem hasEdge_iff : c.hasEdge a b = true ↔ b ∈ c.edges.get a := SortedSet.contains_iff

theorem addEdge_of_old (h : a = b ∨ c.hasEdge a b = true) : c.addEdge a b = c := by
  refine if_pos ?_
  simpa using h

/-- An edge is there already, or is added between two nodes without one. -/
theorem addEdge_cases (c : Coloring) (a b : Nat) :
    c.addEdge a b = c ∨ (a ≠ b ∧ c.hasEdge a b = false) := by
  by_cases hold : a = b ∨ c.hasEdge a b = true
  · exact .inl (addEdge_of_old hold)
  · exact .inr ⟨fun e => hold (.inl e), Bool.eq_false_iff.2 fun e => hold (.inr e)⟩

/-- An edge is added in both directions. -/
theorem mem_edges_addEdge (hsymm : ∀ {a b}, b ∈ c.edges.get a → a ∈ c.edges.get b) {i j : Nat} :
    j ∈ (c.addEdge a b).edges.get i ↔
      j ∈ c.edges.get i ∨ (a ≠ b ∧ (i = a ∧ j = b ∨ i = b ∧ j = a)) := by
  by_cases hold : a = b ∨ c.hasEdge a b = true
  · rw [addEdge_of_old hold]
    constructor
    · exact .inl
    · rintro (hj | ⟨hab, hij⟩)
      · exact hj
      · have hedge := hasEdge_iff.1 (hold.resolve_left hab)
        rcases hij with ⟨rfl, rfl⟩ | ⟨rfl, rfl⟩
        · exact hedge
        · exact hsymm hedge
  · have hab : a ≠ b := fun e => hold (.inl e)
    have hedges : (c.addEdge a b).edges =
        (c.edges.modify a (·.insert b)).modify b (·.insert a) := by
      unfold addEdge
      rw [if_neg (by simpa using hold)]
      simp
    rw [hedges]
    simp only [Table.get_modify]
    by_cases hib : i = b
    · subst hib
      simp [hab.symm, SortedSet.mem_insert, hab, or_comm]
    · by_cases hia : i = a
      · subst hia
        simp [hib, SortedSet.mem_insert, or_comm]
      · simp [hia, hib]

/-- What an end of an edge has of it: nothing, if it is a register. -/
theorem neighbors_addNeighbor (c : Coloring) (a b i : Nat) :
    (c.addNeighbor a b).neighbors.get i =
      if i = a ∧ c.isPrecolored a = false then b :: c.neighbors.get a else c.neighbors.get i := by
  unfold addNeighbor
  by_cases ha : c.isPrecolored a = true
  · simp [ha]
  · simp [ha, Table.get_modify]

theorem degree_addNeighbor (c : Coloring) (a b i : Nat) :
    (c.addNeighbor a b).degree.get i =
      if i = a ∧ c.isPrecolored a = false then c.degree.get a + 1 else c.degree.get i := by
  unfold addNeighbor
  by_cases ha : c.isPrecolored a = true
  · simp [ha]
  · simp [ha, Table.get_modify]

section Fresh

variable (hab : a ≠ b) (hedge : c.hasEdge a b = false)

include hab hedge

theorem addEdge_of_fresh : c.addEdge a b =
    (({ c with edges := (c.edges.modify a (·.insert b)).modify b (·.insert a) } :
      Coloring).addNeighbor a b).addNeighbor b a :=
  if_neg (by simp [hab, hedge])

theorem neighbors_addEdge (i : Nat) : (c.addEdge a b).neighbors.get i =
    if c.isPrecolored i = false ∧ i = a then b :: c.neighbors.get i
    else if c.isPrecolored i = false ∧ i = b then a :: c.neighbors.get i
    else c.neighbors.get i := by
  rw [addEdge_of_fresh hab hedge, neighbors_addNeighbor, neighbors_addNeighbor,
    neighbors_addNeighbor]
  simp only [isPrecolored, addNeighbor_frame]
  by_cases hia : i = a
  · subst hia
    simp [hab]
  · by_cases hib : i = b
    · subst hib
      simp [hab.symm]
    · simp [hia, hib]

theorem degree_addEdge (i : Nat) : (c.addEdge a b).degree.get i =
    if c.isPrecolored i = false ∧ (i = a ∨ i = b) then c.degree.get i + 1
    else c.degree.get i := by
  rw [addEdge_of_fresh hab hedge, degree_addNeighbor, degree_addNeighbor, degree_addNeighbor]
  simp only [isPrecolored, addNeighbor_frame]
  by_cases hia : i = a
  · subst hia
    simp [hab]
  · by_cases hib : i = b
    · subst hib
      simp [hab.symm]
    · simp [hia, hib]

end Fresh

theorem foldl_addEdge_frame (es : List (Nat × Nat)) (c : Coloring) :
    let d := es.foldl (fun c e => c.addEdge e.1 e.2) c
    d.k = c.k ∧ d.temps = c.temps ∧ d.state = c.state ∧ d.mergedInto = c.mergedInto
      ∧ d.color = c.color ∧ d.avoid = c.avoid ∧ d.selectStack = c.selectStack
      ∧ d.checkInvariants = c.checkInvariants ∧ d.moves = c.moves := by
  induction es generalizing c with
  | nil => exact ⟨rfl, rfl, rfl, rfl, rfl, rfl, rfl, rfl, rfl⟩
  | cons e es ih =>
      have h := ih (c.addEdge e.1 e.2)
      simpa using h

/-- Adding an edge commutes with changes that keep the graph. -/
theorem SameGraph.addEdge (h : SameGraph c d) (a b : Nat) :
    SameGraph (c.addEdge a b) (d.addEdge a b) := by
  by_cases hold : a = b ∨ c.hasEdge a b = true
  · rw [addEdge_of_old hold, addEdge_of_old (by simpa [h.hasEdge] using hold)]
    exact h
  · have hab : a ≠ b := fun e => hold (.inl e)
    have hedge : c.hasEdge a b = false := by simpa [hab] using hold
    have hedge' : d.hasEdge a b = false := by rw [h.hasEdge, hedge]
    rw [addEdge_of_fresh hab hedge, addEdge_of_fresh hab hedge']
    have hneighbors : ∀ {c d : Coloring} (a b : Nat), SameGraph c d →
        SameGraph (c.addNeighbor a b) (d.addNeighbor a b) := by
      intro c d a b h
      unfold addNeighbor
      rw [h.isPrecolored]
      split
      · exact h
      · exact { h with neighbors := by simp [h.neighbors] }
    refine hneighbors b a (hneighbors a b ?_)
    exact { h with edges := by simp [h.edges] }

/-! ## The invariant -/

theorem Edges.addEdge (h : Edges c) (ha : a < c.size) (hb : b < c.size) :
    Edges (c.addEdge a b) := by
  rcases addEdge_cases c a b with heq | ⟨hab, hedge⟩
  · rwa [heq]
  have hba : c.hasEdge b a = false :=
    Bool.eq_false_iff.2 fun e => Bool.eq_false_iff.1 hedge
      (hasEdge_iff.2 (h.symm (hasEdge_iff.1 e)))
  have hmem := fun {i j : Nat} => mem_edges_addEdge (c := c) (a := a) (b := b) (i := i)
    (j := j) h.symm
  refine ⟨?symm, ?irrefl, ?lt_size, ?mem_neighbors, ?nodup⟩
  case symm =>
    intro i j hj
    rw [hmem] at hj ⊢
    rcases hj with hj | ⟨hab, hj | hj⟩
    · exact .inl (h.symm hj)
    · exact .inr ⟨hab, .inr ⟨hj.2, hj.1⟩⟩
    · exact .inr ⟨hab, .inl ⟨hj.2, hj.1⟩⟩
  case irrefl =>
    intro i hi
    rw [hmem] at hi
    rcases hi with hi | ⟨_, hi | hi⟩
    · exact h.irrefl i hi
    · exact hab (hi.1.symm.trans hi.2)
    · exact hab (hi.2.symm.trans hi.1)
  case lt_size =>
    intro i j hj
    rw [size_addEdge]
    rcases hmem.1 hj with hj | ⟨_, ⟨_, rfl⟩ | ⟨_, rfl⟩⟩
    · exact h.lt_size hj
    · exact hb
    · exact ha
  case mem_neighbors =>
    intro i j hi
    rw [isPrecolored_addEdge] at hi
    rw [hmem, neighbors_addEdge hab hedge]
    have hij := h.mem_neighbors (b := j) hi
    by_cases hia : i = a
    · subst hia
      simp [hi, hab, hij, or_comm]
    · by_cases hib : i = b
      · subst hib
        simp [hi, hab, hab.symm, hij, or_comm]
      · simp [hia, hib, hij]
  case nodup =>
    -- the new neighbor of an end was none before
    intro i
    have hnodup := h.nodup i
    rw [neighbors_addEdge hab hedge]
    split
    · rename_i hi
      refine List.nodup_cons.2 ⟨?_, hnodup⟩
      rw [h.mem_neighbors hi.1, hi.2]
      exact fun e => Bool.eq_false_iff.1 hedge (hasEdge_iff.2 e)
    · split
      · rename_i hi
        refine List.nodup_cons.2 ⟨?_, hnodup⟩
        rw [h.mem_neighbors hi.1, hi.2]
        exact fun e => Bool.eq_false_iff.1 hba (hasEdge_iff.2 e)
      · exact hnodup

/-- What each new edge keeps, many edges keep. -/
theorem foldl_addEdge {P : Coloring → Prop}
    (hstep : ∀ {c a b}, P c → a < c.size → b < c.size → P (c.addEdge a b)) (h : P c)
    {es : List (Nat × Nat)} (hes : ∀ e ∈ es, e.1 < c.size ∧ e.2 < c.size) :
    P (es.foldl (fun c e => c.addEdge e.1 e.2) c) := by
  induction es generalizing c with
  | nil => exact h
  | cons e es ih =>
      obtain ⟨ha, hb⟩ := hes e List.mem_cons_self
      refine ih (hstep h ha hb) ?_
      intro e' he'
      rw [size_addEdge]
      exact hes e' (List.mem_cons_of_mem _ he')

theorem Edges.foldl_addEdge (h : Edges c) {es : List (Nat × Nat)}
    (hes : ∀ e ∈ es, e.1 < c.size ∧ e.2 < c.size) :
    Edges (es.foldl (fun c e => c.addEdge e.1 e.2) c) :=
  Coloring.foldl_addEdge Edges.addEdge h hes

theorem Edges.mem_foldl_addEdge (h : Edges c) {es : List (Nat × Nat)}
    (hes : ∀ e ∈ es, e.1 < c.size ∧ e.2 < c.size) (i j : Nat) :
    j ∈ (es.foldl (fun c e => c.addEdge e.1 e.2) c).edges.get i ↔
      j ∈ c.edges.get i ∨ ∃ e ∈ es, e.1 ≠ e.2 ∧ (i = e.1 ∧ j = e.2 ∨ i = e.2 ∧ j = e.1) := by
  induction es generalizing c with
  | nil => simp
  | cons e es ih =>
      obtain ⟨ha, hb⟩ := hes e List.mem_cons_self
      have hrest : ∀ e' ∈ es, e'.1 < (c.addEdge e.1 e.2).size ∧
          e'.2 < (c.addEdge e.1 e.2).size := by
        intro e' he'
        rw [size_addEdge]
        exact hes e' (List.mem_cons_of_mem _ he')
      rw [List.foldl_cons, ih (h.addEdge ha hb) hrest, mem_edges_addEdge h.symm]
      simp only [List.mem_cons, exists_eq_or_imp, or_assoc]

/-- Both ends gain a neighbor that is in the graph. -/
theorem Degrees.addEdge (h : Degrees c pending) (ha : c.isRemoved a = false)
    (hb : c.isRemoved b = false) : Degrees (c.addEdge a b) pending := by
  rcases addEdge_cases c a b with heq | ⟨hab, hedge⟩
  · rwa [heq]
  intro i hi
  have hi' : (c.state.get i).isOpen = true := by simpa using hi
  have hpre := isPrecolored_of_isOpen hi'
  have hdeg := h i hi'
  have hcons : ∀ w l, c.isRemoved w = false →
      ((w :: l).filter fun w => !c.isRemoved w) = w :: l.filter fun w => !c.isRemoved w := by
    intro w l hw
    exact List.filter_cons_of_pos (by simp [hw])
  rw [degree_addEdge hab hedge, hdeg]
  simp only [adjacent, isRemoved_addEdge, neighbors_addEdge hab hedge, hpre, true_and]
  by_cases hia : i = a
  · rw [if_pos (.inl hia), if_pos hia, hcons b _ hb, List.length_cons]
    omega
  · by_cases hib : i = b
    · rw [if_pos (.inr hib), if_neg hia, if_pos hib, hcons a _ ha, List.length_cons]
      omega
    · rw [if_neg (by simp [hia, hib]), if_neg hia, if_neg hib]

theorem le_degree_addEdge (c : Coloring) (a b i : Nat) :
    c.degree.get i ≤ (c.addEdge a b).degree.get i := by
  rcases addEdge_cases c a b with heq | ⟨hab, hedge⟩
  · exact Nat.le_of_eq (by rw [heq])
  · rw [degree_addEdge hab hedge]
    split
    · exact Nat.le_succ _
    · exact Nat.le_refl _

theorem degree_addEdge_of_ne {i : Nat} (ha : i ≠ a) (hb : i ≠ b) :
    (c.addEdge a b).degree.get i = c.degree.get i := by
  rcases addEdge_cases c a b with heq | ⟨hab, hedge⟩
  · rw [heq]
  · rw [degree_addEdge hab hedge, if_neg]
    rintro ⟨_, e | e⟩
    · exact ha e
    · exact hb e

theorem degree_addEdge_le (c : Coloring) (a b i : Nat) :
    (c.addEdge a b).degree.get i ≤ c.degree.get i + 1 := by
  rcases addEdge_cases c a b with heq | ⟨hab, hedge⟩
  · rw [heq]
    exact Nat.le_succ _
  · rw [degree_addEdge hab hedge]
    split
    · exact Nat.le_refl _
    · exact Nat.le_succ _

theorem isMoveRelated_addEdge (c : Coloring) (a b i : Nat) :
    (c.addEdge a b).isMoveRelated i = c.isMoveRelated i := by
  refine isMoveRelated_congr (by simp) fun m _ => ?_
  simp [isLive]

/-- The degrees of the ends may not fit their worklists any more. -/
theorem Sorted.addEdge (h : Sorted c high loose) :
    Sorted (c.addEdge a b) (fun i => high i ∨ i = a ∨ i = b) loose where
  spill := by
    intro i hi
    rw [(addEdge_frame c a b).1]
    exact Nat.le_trans (h.spill i (by simpa using hi)) (le_degree_addEdge c a b i)
  freeze_degree := by
    intro i hi hhigh
    rw [degree_addEdge_of_ne (fun e => hhigh (.inr (.inl e))) (fun e => hhigh (.inr (.inr e))),
      (addEdge_frame c a b).1]
    exact h.freeze_degree i (by simpa using hi) fun e => hhigh (.inl e)
  freeze_moves := by
    intro i hi hl
    rw [isMoveRelated_addEdge]
    exact h.freeze_moves i (by simpa using hi) hl
  no_moves := by
    intro i hi hl
    rw [isMoveRelated_addEdge]
    exact h.no_moves i (by simpa using hi) hl

theorem representative_addEdge (c : Coloring) (a b i : Nat) :
    (c.addEdge a b).representative i = c.representative i := by
  simp only [representative, size_addEdge]
  exact representativeWithin_congr (by simp) (by simp) _ _

theorem Lists.addEdge (h : Lists c) (a b : Nat) : Lists (c.addEdge a b) where
  simplify := by simpa using h.simplify
  freeze := by simpa using h.freeze
  spill := by simpa using h.spill
  select := by simpa using h.select
  nodup := by simpa using h.nodup
  lt_size := by simpa using h.lt_size
  worklistMoves := by simpa using h.worklistMoves
  activeMoves := by simpa using h.activeMoves

theorem MoveLists.addEdge (h : MoveLists c) (a b : Nat) : MoveLists (c.addEdge a b) where
  lt_size := by simpa using @h.lt_size
  owner := by
    intro n m x y
    simpa only [representative_addEdge, addEdge_frame] using h.owner
  listed := by
    intro m x y
    simpa only [representative_addEdge, addEdge_frame] using h.listed

theorem Invariant.addEdge (h : Invariant c pending high loose) (ha : a < c.size) (hb : b < c.size)
    (hra : c.isRemoved a = false) (hrb : c.isRemoved b = false) :
    Invariant (c.addEdge a b) pending (fun i => high i ∨ i = a ∨ i = b) loose where
  lists := h.lists.addEdge a b
  edges := h.edges.addEdge ha hb
  degrees := h.degrees.addEdge hra hrb
  sorted := h.sorted.addEdge
  moves := h.moves.addEdge a b
  aliases := by
    intro i
    have hcount : (c.addEdge a b).mergedCount = c.mergedCount := by
      simp [mergedCount, nodes]
    rw [hcount, representativeWithin_congr (c := c) (by simp) (by simp)]
    simpa using h.aliases i
  working := ⟨by simpa using h.working.sorted, by simpa using h.working.uncolored⟩

end Coloring

end TreeCompiler
