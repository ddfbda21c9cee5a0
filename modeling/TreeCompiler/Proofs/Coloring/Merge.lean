import TreeCompiler.Proofs.Coloring.Edges
import TreeCompiler.Proofs.Coloring.Removal

/-!
# Coloring merges — one node takes the place of another one

A merge links a node to the one that stands for it, hands over its moves, and then tells each of its
neighbors, which loses the merged node and gains the other one.  On the graph alone a merge is
`Coloring.absorb`; the invariant goes through with the degrees of one node and the moves of one node
as exceptions, until the node itself is sorted anew.
-/

namespace TreeCompiler

namespace Coloring

variable {c d : Coloring} {pending : List Nat} {high loose : Nat → Prop} {u v : Nat}

/-! ## The graph of a merge -/

/-- Let `u` stand for `v` and have its moves. -/
def merge (c : Coloring) (u v : Nat) : Coloring := (c.link u v).joinMoves u v

/-- Merge `v` into `u`, as far as the graph goes. -/
def absorb (c : Coloring) (u v : Nat) : Coloring :=
  (c.adjacent v).foldl (fun c t => c.addEdge t u) (c.merge u v)

/-- A neighbor of a merged node gets the other node as a neighbor instead. -/
def exchange (u : Nat) (c : Coloring) (t : Nat) : Coloring := (c.addEdge t u).decrementDegree t

@[simp] theorem link_frame (c : Coloring) (u v : Nat) :
    (c.link u v).k = c.k ∧ (c.link u v).temps = c.temps
      ∧ (c.link u v).degree = c.degree ∧ (c.link u v).neighbors = c.neighbors
      ∧ (c.link u v).edges = c.edges ∧ (c.link u v).moveList = c.moveList
      ∧ (c.link u v).moves = c.moves ∧ (c.link u v).moveState = c.moveState
      ∧ (c.link u v).color = c.color ∧ (c.link u v).avoid = c.avoid
      ∧ (c.link u v).checkInvariants = c.checkInvariants := by
  simp [link]

@[simp] theorem joinMoves_frame (c : Coloring) (u v : Nat) :
    (c.joinMoves u v).k = c.k ∧ (c.joinMoves u v).temps = c.temps
      ∧ (c.joinMoves u v).state = c.state
      ∧ (c.joinMoves u v).degree = c.degree ∧ (c.joinMoves u v).neighbors = c.neighbors
      ∧ (c.joinMoves u v).edges = c.edges ∧ (c.joinMoves u v).moves = c.moves
      ∧ (c.joinMoves u v).moveState = c.moveState
      ∧ (c.joinMoves u v).mergedInto = c.mergedInto ∧ (c.joinMoves u v).color = c.color
      ∧ (c.joinMoves u v).selectStack = c.selectStack
      ∧ (c.joinMoves u v).avoid = c.avoid
      ∧ (c.joinMoves u v).checkInvariants = c.checkInvariants := by
  simp [joinMoves]

theorem mem_foldl_missing {m : Nat} (ms l : List Nat) :
    m ∈ ms.foldl (fun l m => if m ∈ l then l else l ++ [m]) l ↔ m ∈ l ∨ m ∈ ms := by
  induction ms generalizing l with
  | nil => simp
  | cons a ms ih =>
      rw [List.foldl_cons, ih]
      by_cases ha : a ∈ l
      · rw [if_pos ha, List.mem_cons]
        constructor
        · rintro (h | h)
          · exact .inl h
          · exact .inr (.inr h)
        · rintro (h | rfl | h)
          · exact .inl h
          · exact .inl ha
          · exact .inr h
      · rw [if_neg ha]
        simp [or_assoc]

theorem mem_moveList_joinMoves (c : Coloring) (u v n m : Nat) :
    m ∈ (c.joinMoves u v).moveList.get n ↔
      m ∈ c.moveList.get n ∨ (n = u ∧ m ∈ c.moveList.get v) := by
  simp only [joinMoves, Table.get_modify]
  split
  · rename_i hn
    rw [mem_foldl_missing, hn]
    simp
  · rename_i hn
    simp [hn]

/-- The functions of a merge, with the parts that are lemmas by themselves. -/
theorem combine_eq (c : Coloring) (u v : Nat) : c.combine u v =
    let d := (c.merge u v).enableMoves [v]
    let e := (d.adjacent v).foldl (exchange u) d
    if e.k ≤ e.degree.get u && e.state.get u = .freeze then e.setState u .spill else e := by
  have hlink : c.link u v = { c.setState v .coalesced with
      mergedInto := (c.setState v .coalesced).mergedInto.set v u } := by
    simp [link]
  unfold combine merge
  rw [hlink]
  rfl

theorem absorb_eq (c : Coloring) (u v : Nat) : c.absorb u v =
    ((c.adjacent v).map (·, u)).foldl (fun c e => c.addEdge e.1 e.2) (c.merge u v) := by
  rw [List.foldl_map]
  rfl

theorem absorb_frame (c : Coloring) (u v : Nat) :
    (c.absorb u v).k = c.k ∧ (c.absorb u v).temps = c.temps
      ∧ (c.absorb u v).state = (c.setState v .coalesced).state
      ∧ (c.absorb u v).mergedInto = (c.link u v).mergedInto ∧ (c.absorb u v).color = c.color
      ∧ (c.absorb u v).avoid = c.avoid
      ∧ (c.absorb u v).selectStack = (c.setState v .coalesced).selectStack
      ∧ (c.absorb u v).checkInvariants = c.checkInvariants ∧ (c.absorb u v).moves = c.moves := by
  have h := foldl_addEdge_frame ((c.adjacent v).map (·, u)) (c.merge u v)
  rw [absorb_eq]
  simpa [merge, link] using h

theorem size_absorb (c : Coloring) (u v : Nat) : (c.absorb u v).size = c.size := by
  simp [size, absorb_frame]

theorem state_absorb (c : Coloring) (u v i : Nat) :
    (c.absorb u v).state.get i = if i = v then .coalesced else c.state.get i := by
  rw [(absorb_frame c u v).2.2.1]
  exact state_setState c v i .coalesced

/-! ## Linking -/

theorem not_coalesced_of_isListed (hv : (c.state.get v).isListed = true) :
    c.state.get v ≠ .coalesced := by
  intro e
  rw [e] at hv
  cases hv

theorem Invariant.lt_size_of_isListed (h : Invariant c pending high loose)
    (hv : (c.state.get v).isListed = true) : v < c.size := by
  refine h.lists.lt_size v fun e => ?_
  rw [e] at hv
  cases hv

theorem state_merge (c : Coloring) (u v i : Nat) :
    (c.merge u v).state.get i = if i = v then .coalesced else c.state.get i := by
  simp [merge, state_link]

theorem size_merge (c : Coloring) (u v : Nat) : (c.merge u v).size = c.size := by
  simp [size, merge]

theorem Edges.merge (h : Edges c) (hv : (c.state.get v).isListed = true) : Edges (c.merge u v) := by
  have hedges := h.remove (NodeState.isOpen_of_isListed hv) (.inr rfl)
  exact ⟨hedges.1, hedges.2, hedges.3, hedges.4, hedges.5⟩

section Absorb

variable (h : Edges c) (hltu : u < c.size) (hv : (c.state.get v).isListed = true)

include h hltu hv

theorem Edges.absorb_lt_size :
    ∀ e ∈ (c.adjacent v).map (·, u), e.1 < (c.merge u v).size ∧ e.2 < (c.merge u v).size := by
  intro e he
  obtain ⟨t, ht, rfl⟩ := List.mem_map.1 he
  have hpre := isPrecolored_of_isOpen (NodeState.isOpen_of_isListed hv)
  rw [size_merge]
  exact ⟨h.lt_size ((h.mem_neighbors hpre).1 (mem_adjacent.1 ht).1), hltu⟩

theorem Edges.absorb : Edges (c.absorb u v) := by
  rw [absorb_eq]
  exact (h.merge hv).foldl_addEdge (h.absorb_lt_size hltu hv)

/-- The neighbors of the merged node are neighbors of the other one now. -/
theorem Edges.mem_absorb (hedge : c.hasEdge u v = false) (i j : Nat) :
    j ∈ (c.absorb u v).edges.get i ↔
      j ∈ c.edges.get i ∨ (i ∈ c.adjacent v ∧ j = u) ∨ (i = u ∧ j ∈ c.adjacent v) := by
  have hpre := isPrecolored_of_isOpen (NodeState.isOpen_of_isListed hv)
  have hedges : (c.merge u v).edges = c.edges := by simp [Coloring.merge]
  -- the other node is not among them, so each edge is between different nodes
  have hne : ∀ t ∈ c.adjacent v, t ≠ u := by
    rintro t ht rfl
    have hmem := h.symm ((h.mem_neighbors hpre).1 (mem_adjacent.1 ht).1)
    exact Bool.eq_false_iff.1 hedge (hasEdge_iff.2 hmem)
  rw [absorb_eq, (h.merge hv).mem_foldl_addEdge (h.absorb_lt_size hltu hv), hedges]
  constructor
  · rintro (hold | ⟨e, he, _, hij⟩)
    · exact .inl hold
    · obtain ⟨t, ht, rfl⟩ := List.mem_map.1 he
      rcases hij with ⟨rfl, rfl⟩ | ⟨rfl, rfl⟩
      · exact .inr (.inl ⟨ht, rfl⟩)
      · exact .inr (.inr ⟨rfl, ht⟩)
  · rintro (hold | ⟨ht, rfl⟩ | ⟨rfl, ht⟩)
    · exact .inl hold
    · exact .inr ⟨(i, j), List.mem_map.2 ⟨i, ht, rfl⟩, hne i ht, .inl ⟨rfl, rfl⟩⟩
    · exact .inr ⟨(j, i), List.mem_map.2 ⟨j, ht, rfl⟩, hne j ht, .inr ⟨rfl, rfl⟩⟩

end Absorb

theorem representative_absorb (ha : Aliases c) (hlt : v < c.size) (hu : c.state.get u ≠ .coalesced)
    (hv : c.state.get v ≠ .coalesced) (huv : u ≠ v) (n : Nat) : (c.absorb u v).representative n =
    if c.representative n = v then u else c.representative n := by
  rw [← representative_link ha hlt hu hv huv n]
  simp only [representative, size_absorb, size_link]
  exact representativeWithin_congr (fun i => by rw [state_absorb, state_link])
    (absorb_frame c u v).2.2.2.1 _ _

section Link

variable (h : Invariant c [] (fun _ => False) (fun n => n = u ∨ n = v))
  (hltu : u < c.size) (hu : c.state.get u ≠ .coalesced) (hv : (c.state.get v).isListed = true)
  (huv : u ≠ v)

include h hu hv huv

theorem Invariant.representative_merge (n : Nat) : (c.merge u v).representative n =
    if c.representative n = v then u else c.representative n := by
  rw [← representative_link h.aliases (h.lt_size_of_isListed hv) hu (not_coalesced_of_isListed hv)
    huv n]
  simp only [representative, size_merge, size_link]
  exact representativeWithin_congr (by simp [merge]) (by simp [merge]) _ _

include hltu

/-- A node that was not merged has the moves of the nodes it stands for. -/
theorem Invariant.moveLists_merge : MoveLists (c.merge u v) := by
  have hrep := h.representative_merge hu hv huv
  have hvc := not_coalesced_of_isListed hv
  have hmem := mem_moveList_joinMoves (c.link u v) u v
  simp only [link_frame] at hmem
  have hmoves : (c.merge u v).moves = c.moves := by simp [merge]
  refine { lt_size := ?lt_size, owner := ?owner, listed := ?listed }
  case lt_size =>
    intro n m hm
    rw [size_merge, hmoves]
    rcases (hmem n m).1 hm with hold | ⟨e, hnew⟩
    · exact h.moves.lt_size hold
    · exact ⟨e ▸ hltu, (h.moves.lt_size hnew).2⟩
  case owner =>
    -- a move of a node is one that it had, or one that the merged node brings along
    intro n m x y hm hn hxy
    rw [hmoves] at hxy
    rw [state_merge] at hn
    rw [hrep, hrep]
    have hnv : n ≠ v := fun e => hn (by rw [if_pos e])
    rw [if_neg hnv] at hn
    rcases (hmem n m).1 hm with hold | ⟨hnu, hnew⟩
    · rcases h.moves.owner hold hn hxy with e | e
      · exact .inl (by rw [← e, if_neg hnv])
      · exact .inr (by rw [← e, if_neg hnv])
    · rcases h.moves.owner hnew hvc hxy with e | e
      · exact .inl (by rw [← e, if_pos rfl, hnu])
      · exact .inr (by rw [← e, if_pos rfl, hnu])
  case listed =>
    -- an end that was the merged node has its moves in the list of the other one now
    intro m x y hxy
    rw [hmoves] at hxy
    have hlisted := h.moves.listed hxy
    rw [hrep, hrep]
    constructor
    · refine (hmem _ m).2 ?_
      split
      · rename_i e
        exact .inr ⟨rfl, e ▸ hlisted.1⟩
      · exact .inl hlisted.1
    · refine (hmem _ m).2 ?_
      split
      · rename_i e
        exact .inr ⟨rfl, e ▸ hlisted.2⟩
      · exact .inl hlisted.2

/-- The neighbors of the merged node are pending, and only the moves of the other node are new. -/
theorem Invariant.merge : Invariant (c.merge u v) (c.adjacent v) (fun _ => False) (· = u) := by
  have hopen := NodeState.isOpen_of_isListed hv
  have hlt := h.lt_size_of_isListed hv
  have hset := h.lists.setState_of_isOpen (s := .coalesced) hlt hopen
  have hdegrees := h.degrees.remove h.edges hopen (.inr rfl)
  have hsorted := h.sorted.remove (n := v) (.inr rfl) nofun
  have hworking := h.working.remove (n := v) (.inr rfl)
  -- no other node gets moves, and moves keep their states
  have hrelated : ∀ n, n ≠ u → (c.merge u v).isMoveRelated n = c.isMoveRelated n := by
    intro n hn
    refine isMoveRelated_congr ?_ fun m _ => ?_
    · simp [Coloring.merge, joinMoves, Table.get_modify, hn]
    · simp [isLive, Coloring.merge]
  refine {
    lists := ⟨hset.1, hset.2, hset.3, hset.4, hset.5, hset.6, hset.7, hset.8⟩
    edges := h.edges.merge hv
    degrees := hdegrees
    sorted := ⟨hsorted.1, hsorted.2, ?freeze_moves, ?no_moves⟩
    moves := h.moveLists_merge hltu hu hv huv
    aliases := ?aliases
    working := ⟨hworking.1, hworking.2⟩ }
  case freeze_moves =>
    intro n hn hnu
    rw [state_merge] at hn
    split at hn
    · cases hn
    · rename_i hnv
      rw [hrelated n hnu]
      exact h.sorted.freeze_moves n hn fun e => e.elim hnu hnv
  case no_moves =>
    intro n hn hnu
    rw [state_merge] at hn
    split at hn
    · rcases hn with hn | hn <;> cases hn
    · rename_i hnv
      rw [hrelated n hnu]
      exact h.sorted.no_moves n hn fun e => e.elim hnu hnv
  case aliases =>
    -- pointers are those after linking alone: what else a merge changes has nothing to do with them
    have hlink := aliases_link h.aliases hlt hu (not_coalesced_of_isListed hv) huv
    intro n
    have hcount : (c.merge u v).mergedCount = (c.link u v).mergedCount := by
      simp [mergedCount, nodes, size, Coloring.merge]
    rw [hcount, representativeWithin_congr (c := c.link u v) (by simp [Coloring.merge])
      (by simp [Coloring.merge])]
    simpa [Coloring.merge] using hlink n

end Link

/-! ## Telling the neighbors -/

theorem Enabled.isMoveRelated (hcd : Enabled c d) (n : Nat) :
    d.isMoveRelated n = c.isMoveRelated n :=
  isMoveRelated_congr (by rw [hcd.moveList]) fun m _ => hcd.isLive m

theorem Invariant.enableMoves (h : Invariant c pending high loose) (ns : List Nat) :
    Invariant (c.enableMoves ns) pending high loose := by
  have hcd := enabled_enableMoves c ns
  have hlists := h.lists.enableMoves (fun n m hm => (h.moves.lt_size hm).2) ns
  exact h.of_sameNodes hcd.toSameNodes hlists hcd.isMoveRelated

/-- A node that lost one neighbor and gained at most one fits its worklist. -/
theorem Invariant.exchange {t : Nat} (h : Invariant c (t :: pending) (· = u) loose)
    (htu : t ≠ u) (ht : t ∉ pending) (hltu : u < c.size) (hltt : t < c.size)
    (hru : c.isRemoved u = false) (hrt : c.isRemoved t = false) :
    Invariant (exchange u c t) pending (· = u) loose := by
  have h₁ := h.addEdge hltt hltu hrt hru
  have h₂ := h₁.decrementDegree ht
  refine { h₂ with sorted := { h₂.sorted with freeze_degree := ?_ } }
  intro n hn hnu
  unfold Coloring.exchange at hn ⊢
  by_cases hnt : n = t
  · -- if it moves from the spill worklist, it had exactly as many neighbors as there are colors
    subst hnt
    by_cases hpre : (c.addEdge n u).isPrecolored n = true
    · rw [decrementDegree_of_isPrecolored hpre] at hn
      rw [isPrecolored_iff, hn] at hpre
      cases hpre
    · -- one more by the new edge at most, and one less for the neighbor that was merged
      have hdec := decremented (c := c.addEdge n u) (t := n) (by simpa using hpre)
      rw [hdec.states] at hn
      rw [hdec.degree, if_pos rfl, hdec.k, (addEdge_frame c n u).1]
      have hle := degree_addEdge_le c n u n
      split at hn
      · rename_i hs
        have hpos := h₁.degrees n (by rw [hs.2.1]; rfl)
        rw [if_pos List.mem_cons_self, hs.2.2, (addEdge_frame c n u).1] at hpos
        rw [hs.2.2, (addEdge_frame c n u).1]
        omega
      · have hlt := h.sorted.freeze_degree n (by simpa using hn) hnu
        omega
  · refine h₂.sorted.freeze_degree n hn ?_
    rintro (e | e | e)
    · exact hnu e
    · exact hnt e
    · exact hnu e

/-- Exchanging a neighbor changes the state of no other node. -/
theorem state_exchange (c : Coloring) (t : Nat) {i : Nat} (hi : i ≠ t) :
    (exchange u c t).state.get i = c.state.get i := by
  unfold Coloring.exchange
  by_cases hpre : (c.addEdge t u).isPrecolored t = true
  · rw [decrementDegree_of_isPrecolored hpre]
    simp
  · rw [(decremented (c := c.addEdge t u) (t := t) (by simpa using hpre)).states,
      if_neg fun e => hi e.1]
    simp

theorem sameGraph_exchange (c : Coloring) (u t : Nat) :
    SameGraph (c.addEdge t u) (exchange u c t) :=
  .decrementDegree _ t

theorem isRemoved_exchange (c : Coloring) (u t i : Nat) :
    (exchange u c t).isRemoved i = c.isRemoved i := by
  rw [(sameGraph_exchange c u t).isRemoved]
  simp

theorem size_exchange (c : Coloring) (u t : Nat) : (exchange u c t).size = c.size := by
  rw [(sameGraph_exchange c u t).size]
  simp

/-- All neighbors are told in turn; `u` stays where it is. -/
theorem Invariant.foldl_exchange (h : Invariant c pending (· = u) loose) (hnodup : pending.Nodup)
    (hltu : u < c.size) (hru : c.isRemoved u = false) (hu : u ∉ pending)
    (hpending : ∀ t ∈ pending, t < c.size ∧ c.isRemoved t = false) :
    Invariant (pending.foldl (Coloring.exchange u) c) [] (· = u) loose
      ∧ (pending.foldl (Coloring.exchange u) c).state.get u = c.state.get u := by
  induction pending generalizing c with
  | nil => exact ⟨h, rfl⟩
  | cons t pending ih =>
      rw [List.nodup_cons] at hnodup
      rw [List.mem_cons, not_or] at hu
      obtain ⟨hltt, hrt⟩ := hpending t List.mem_cons_self
      have hstep := h.exchange (Ne.symm hu.1) hnodup.1 hltu hltt hru hrt
      have ⟨hinv, hstate⟩ := ih hstep hnodup.2 (by rwa [size_exchange])
        (by rwa [isRemoved_exchange]) hu.2 (by
          intro i hi
          rw [size_exchange, isRemoved_exchange]
          exact hpending i (List.mem_cons_of_mem _ hi))
      exact ⟨hinv, hstate.trans (state_exchange c t hu.1)⟩

/-- On the graph alone the exchanges only add edges. -/
theorem SameGraph.foldl_exchange (hcd : SameGraph c d) (ts : List Nat) :
    SameGraph (ts.foldl (fun c t => c.addEdge t u) c) (ts.foldl (Coloring.exchange u) d) := by
  induction ts generalizing c d with
  | nil => exact hcd
  | cons t ts ih => exact ih ((hcd.addEdge t u).trans (sameGraph_exchange d u t))

/-! ## Merging -/

section Combine

variable (h : Invariant c [] (fun _ => False) (fun n => n = u ∨ n = v))
  (hltu : u < c.size) (hu : c.state.get u = .precolored ∨ (c.state.get u).isListed = true)
  (hv : (c.state.get v).isListed = true) (huv : u ≠ v)

include h hv in
theorem Invariant.adjacent_merge : (c.merge u v).adjacent v = c.adjacent v := by
  have hself : v ∉ c.neighbors.get v := by
    rw [h.edges.mem_neighbors (isPrecolored_of_isOpen (NodeState.isOpen_of_isListed hv))]
    exact h.edges.irrefl v
  have hneighbors : (c.merge u v).neighbors = c.neighbors := by simp [Coloring.merge]
  simp only [adjacent, hneighbors]
  refine List.filter_congr fun w hw => ?_
  have hwv : w ≠ v := fun e => hself (e ▸ hw)
  simp [isRemoved, state_merge, hwv]

include h hv in
theorem Invariant.sameGraph_combine : SameGraph (c.absorb u v) (c.combine u v) := by
  have henabled := enabled_enableMoves (c.merge u v) [v]
  have hfold := henabled.toSameGraph.foldl_exchange (u := u) (c.adjacent v)
  rw [combine_eq]
  dsimp only
  rw [henabled.adjacent, h.adjacent_merge hv]
  split
  · rename_i hcond
    simp only [Bool.and_eq_true, decide_eq_true_eq] at hcond
    refine hfold.trans (.setState ?_ rfl ?_)
    · rw [hcond.2]
      rfl
    · intro e
      rw [hcond.2] at e
      cases e
  · exact hfold

include h hltu hu hv huv

/-- After linking, the neighbors of the merged node are pending, and each of them is in the graph
and is not the node itself. -/
theorem Invariant.linked (hedge : c.hasEdge u v = false) :
    Invariant ((c.merge u v).enableMoves [v]) (c.adjacent v) (· = u) (· = u)
      ∧ u < ((c.merge u v).enableMoves [v]).size
      ∧ ((c.merge u v).enableMoves [v]).isRemoved u = false ∧ u ∉ c.adjacent v
      ∧ ∀ t ∈ c.adjacent v, t < ((c.merge u v).enableMoves [v]).size
        ∧ ((c.merge u v).enableMoves [v]).isRemoved t = false := by
  have hucoal : c.state.get u ≠ .coalesced := by
    rcases hu with hu | hu
    · rw [hu]
      exact nofun
    · exact not_coalesced_of_isListed hu
  have huremoved : (c.merge u v).isRemoved u = false := by
    simp only [isRemoved, state_merge, if_neg huv]
    rcases hu with hu | hu
    · simp [hu]
    · exact isRemoved_of_isOpen (NodeState.isOpen_of_isListed hu)
  have hvpre := isPrecolored_of_isOpen (NodeState.isOpen_of_isListed hv)
  have henabled := enabled_enableMoves (c.merge u v) [v]
  have hmerged := (h.merge hltu hucoal hv huv).enableMoves [v]
  have hready : Invariant ((c.merge u v).enableMoves [v]) (c.adjacent v) (· = u) (· = u) :=
    { hmerged with sorted := { hmerged.sorted with
        freeze_degree := fun n hn _ => hmerged.sorted.freeze_degree n hn id } }
  refine ⟨hready, ?_, ?_, ?_, ?_⟩
  · rw [henabled.size, size_merge]
    exact hltu
  · rwa [henabled.isRemoved]
  · -- nodes with an edge between them are not merged
    intro hadj
    refine Bool.eq_false_iff.1 hedge (hasEdge_iff.2 (h.edges.symm ?_))
    exact (h.edges.mem_neighbors hvpre).1 (mem_adjacent.1 hadj).1
  · intro t ht
    rw [mem_adjacent] at ht
    have htv := (h.edges.mem_neighbors hvpre).1 ht.1
    have hne : t ≠ v := fun e => h.edges.irrefl v (e ▸ htv)
    rw [henabled.size, size_merge, henabled.isRemoved]
    refine ⟨h.edges.lt_size htv, ?_⟩
    simpa [isRemoved, state_merge, hne] using ht.2

/-- After a merge only the moves of the node itself may not fit. -/
theorem Invariant.combine (hedge : c.hasEdge u v = false) :
    Invariant (c.combine u v) [] (fun _ => False) (· = u)
      ∧ ((c.combine u v).state.get u = c.state.get u ∨ (c.combine u v).state.get u = .spill) := by
  obtain ⟨hready, hltu', hru, hnot, hpending⟩ := h.linked hltu hu hv huv hedge
  have hfold := hready.foldl_exchange (h.edges.nodup_adjacent v) hltu' hru hnot hpending
  have henabled := enabled_enableMoves (c.merge u v) [v]
  rw [combine_eq]
  dsimp only
  rw [henabled.adjacent, h.adjacent_merge hv]
  obtain ⟨hinv, hstate⟩ := hfold
  have hkeep : ((c.merge u v).enableMoves [v]).state.get u = c.state.get u := by
    rw [henabled.states, state_merge, if_neg huv]
  -- with the neighbors of the other one the node may have too many to be frozen
  split
  · rename_i hcond
    simp only [Bool.and_eq_true, decide_eq_true_eq] at hcond
    refine ⟨hinv.setState (by rw [hcond.2]; rfl) rfl ?_ (fun _ => hcond.1)
      (fun e => absurd e (by decide)) (fun e => absurd e (by decide)) ?_ ?_, ?_⟩
    · intro e
      rw [hcond.2] at e
      cases e
    · intro n hn e
      exact hn e
    · intro n _ e
      exact e
    · rw [state_setState, if_pos rfl]
      exact .inr rfl
  · rename_i hcond
    refine ⟨{ hinv with sorted := { hinv.sorted with freeze_degree := ?_ } }, ?_⟩
    · intro n hn _
      by_cases hnu : n = u
      · subst hnu
        simpa [hn] using hcond
      · exact hinv.sorted.freeze_degree n hn hnu
    · rw [hstate, hkeep]
      exact .inl rfl

end Combine

end Coloring

end TreeCompiler
