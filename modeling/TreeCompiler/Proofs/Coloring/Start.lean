import TreeCompiler.Proofs.Interference
import TreeCompiler.Proofs.Coloring.Edges

/-!
# Coloring start — from an interference graph to sorted worklists

At the start each node is a register or not sorted yet (`Start`).  Adding the edges and the moves of
a graph keeps it so, the edges become those of the graph (`mem_edges_ofGraph`), and sorting the
nodes makes the invariant hold (`Start.coherent`).
-/

namespace TreeCompiler

namespace Coloring

variable {c d : Coloring}

/-- A state in which nothing was sorted or merged. -/
structure Start (c : Coloring) : Prop where
  lists : Lists c
  edges : Edges c
  degrees : Degrees c []
  moves : MoveLists c
  fresh : ∀ n, c.state.get n = .initial ∨ c.state.get n = .precolored

namespace Start

theorem not_coalesced (h : Start c) (n : Nat) : c.state.get n ≠ .coalesced := by
  rcases h.fresh n with e | e <;> rw [e] <;> exact nofun

theorem isRemoved (h : Start c) (n : Nat) : c.isRemoved n = false := by
  rcases h.fresh n with e | e <;> simp [Coloring.isRemoved, e]

theorem representative (h : Start c) (n : Nat) : c.representative n = n :=
  representative_of_not_coalesced (h.not_coalesced n)

theorem aliases (h : Start c) : Aliases c :=
  fun _ => h.not_coalesced _

theorem sorted (h : Start c) : Sorted c (fun _ => False) (fun _ => False) := by
  have hother : ∀ {n s}, s ≠ .initial → s ≠ .precolored → c.state.get n ≠ s := by
    intro n s hi hp e
    rcases h.fresh n with e' | e'
    · exact hi (e.symm.trans e')
    · exact hp (e.symm.trans e')
  refine ⟨?_, ?_, ?_, ?_⟩
  · intro n hn
    exact absurd hn (hother nofun nofun)
  · intro n hn
    exact absurd hn (hother nofun nofun)
  · intro n hn
    exact absurd hn (hother nofun nofun)
  · rintro n (hn | hn)
    · exact absurd hn (hother nofun nofun)
    · exact absurd hn (hother nofun nofun)

/-! ## Adding edges and moves -/

theorem addEdge (h : Start c) {a b : Nat} (ha : a < c.size) (hb : b < c.size) :
    Start (c.addEdge a b) where
  lists := h.lists.addEdge a b
  edges := h.edges.addEdge ha hb
  degrees := h.degrees.addEdge (h.isRemoved a) (h.isRemoved b)
  moves := h.moves.addEdge a b
  fresh := by simpa using h.fresh

theorem foldl_addEdge (h : Start c) {es : List (Nat × Nat)}
    (hes : ∀ e ∈ es, e.1 < c.size ∧ e.2 < c.size) :
    Start (es.foldl (fun c e => c.addEdge e.1 e.2) c) :=
  Coloring.foldl_addEdge (fun h ha hb => h.addEdge ha hb) h hes

theorem mem_moveList_addMove (c : Coloring) (x y n i : Nat) :
    i ∈ (c.addMove x y).moveList.get n ↔
      i ∈ c.moveList.get n ∨ (i = c.moves.size ∧ (n = x ∨ n = y)) := by
  unfold addMove
  dsimp only
  by_cases hxy : y = x
  · subst hxy
    rw [if_pos rfl, Table.get_modify]
    by_cases hn : n = y
    · simp [hn]
    · simp [hn]
  · rw [if_neg hxy, Table.get_modify, Table.get_modify, Table.get_modify, if_neg hxy]
    by_cases hny : n = y
    · simp [hny]
    · by_cases hnx : n = x
      · simp [hnx, Ne.symm hxy]
      · simp [hnx, hny]

/-- The new move waits to be considered. -/
theorem lists_addMove (h : Lists c) (x y : Nat) : Lists (c.addMove x y) := by
  have hmoves : (c.addMove x y).moves = c.moves.push (x, y) := rfl
  have hstate : ∀ i, (c.addMove x y).moveState.get i
      = if i = c.moves.size then .worklist else c.moveState.get i :=
    fun i => Table.get_set c.moveState c.moves.size i .worklist
  refine ⟨h.simplify, h.freeze, h.spill, h.select, h.nodup, h.lt_size, fun m => ?_, fun m => ?_⟩
  · have hm := h.worklistMoves m
    rw [hmoves, hstate, Array.size_push]
    refine SortedSet.mem_insert.trans ?_
    grind
  · have hm := h.activeMoves m
    rw [hmoves, hstate, Array.size_push]
    refine hm.trans ?_
    grind

/-- The new move is listed at its ends, which stand for themselves. -/
theorem moves_addMove (h : Start c) {x y : Nat} (hx : x < c.size) (hy : y < c.size) :
    MoveLists (c.addMove x y) := by
  have hmem := mem_moveList_addMove c x y
  have hmoves : (c.addMove x y).moves = c.moves.push (x, y) := rfl
  have hrep : ∀ n, (c.addMove x y).representative n = n :=
    fun n => representative_of_not_coalesced (c := c.addMove x y) (h.not_coalesced n)
  have hget : ∀ {m e}, (c.moves.push (x, y))[m]? = some e →
      (m = c.moves.size ∧ e = (x, y)) ∨ c.moves[m]? = some e := by
    intro m e hm
    rw [Array.getElem?_push] at hm
    split at hm
    · exact .inl ⟨‹_›, (Option.some.inj hm).symm⟩
    · exact .inr hm
  refine { lt_size := ?lt_size, owner := ?owner, listed := ?listed }
  case lt_size =>
    intro n m hm
    rw [hmoves, Array.size_push]
    rcases (hmem n m).1 hm with hold | ⟨rfl, hn⟩
    · obtain ⟨h₁, h₂⟩ := h.moves.lt_size hold
      exact ⟨h₁, Nat.lt_succ_of_lt h₂⟩
    · refine ⟨?_, Nat.lt_succ_self _⟩
      rcases hn with rfl | rfl
      · exact hx
      · exact hy
  case owner =>
    -- a move that was listed before has a smaller number than the new one
    intro n m a b hm _ hab
    rw [hrep, hrep]
    rw [hmoves] at hab
    rcases (hmem n m).1 hm with hold | ⟨rfl, hn⟩
    · rcases hget hab with ⟨hlast, _⟩ | hab
      · exact absurd (h.moves.lt_size hold).2 (by omega)
      · have hends := h.moves.owner hold (h.not_coalesced n) hab
        rwa [h.representative, h.representative] at hends
    · rw [Array.getElem?_push_size] at hab
      cases hab
      exact hn
  case listed =>
    intro m a b hab
    rw [hmoves] at hab
    rw [hrep, hrep]
    rcases hget hab with ⟨rfl, e⟩ | hab
    · cases e
      exact ⟨(hmem _ _).2 (.inr ⟨rfl, .inl rfl⟩), (hmem _ _).2 (.inr ⟨rfl, .inr rfl⟩)⟩
    · have hlisted := h.moves.listed hab
      rw [h.representative, h.representative] at hlisted
      exact ⟨(hmem _ _).2 (.inl hlisted.1), (hmem _ _).2 (.inl hlisted.2)⟩

theorem addMove (h : Start c) {x y : Nat} (hx : x < c.size) (hy : y < c.size) :
    Start (c.addMove x y) where
  lists := lists_addMove h.lists x y
  edges := ⟨h.edges.1, h.edges.2, h.edges.3, h.edges.4, h.edges.5⟩
  degrees := h.degrees
  moves := h.moves_addMove hx hy
  fresh := h.fresh

theorem foldl_addMove (h : Start c) {es : List (Nat × Nat)}
    (hes : ∀ e ∈ es, e.1 < c.size ∧ e.2 < c.size) :
    Start (es.foldl (fun c e => c.addMove e.1 e.2) c) := by
  induction es generalizing c with
  | nil => exact h
  | cons e es ih =>
      obtain ⟨ha, hb⟩ := hes e List.mem_cons_self
      exact ih (h.addMove ha hb) fun e' he' => hes e' (List.mem_cons_of_mem _ he')

end Start

/-- Moves concern neither the nodes nor the edges. -/
theorem foldl_addMove_frame (es : List (Nat × Nat)) (c : Coloring) :
    let d := es.foldl (fun c e => c.addMove e.1 e.2) c
    d.k = c.k ∧ d.temps = c.temps ∧ d.state = c.state ∧ d.edges = c.edges ∧ d.color = c.color
      ∧ d.avoid = c.avoid ∧ d.neighbors = c.neighbors ∧ d.selectStack = c.selectStack
      ∧ d.checkInvariants = c.checkInvariants := by
  induction es generalizing c with
  | nil => exact ⟨rfl, rfl, rfl, rfl, rfl, rfl, rfl, rfl, rfl⟩
  | cons e es ih => exact ih (c.addMove e.1 e.2)

/-! ## The nodes of a graph -/

section OfGraph

open Interference (Built)

variable {g : Interference} {m : Machine} {options : AllocOptions} {avoid : TempSet}

/-- A node is a register or not sorted yet. -/
theorem state_ofNodes (n : Nat) : (ofNodes g m options avoid).state.get n =
    match g.graph.nodes[n]? with
    | some t => if m.isRegister t then .precolored else .initial
    | none => .initial := by
  unfold ofNodes
  simp only [Table.get_ofList, List.getD_eq_getElem?_getD, List.getElem?_map, Interference.temps,
    Array.getElem?_toList]
  cases g.graph.nodes[n]? <;> rfl

theorem fresh_ofNodes (n : Nat) : (ofNodes g m options avoid).state.get n = .initial ∨
    (ofNodes g m options avoid).state.get n = .precolored := by
  rw [state_ofNodes]
  split
  · split
    · exact .inr rfl
    · exact .inl rfl
  · exact .inl rfl

/-- All lists are empty, and no node is in a state that a list is for. -/
theorem lists_ofNodes : Lists (ofNodes g m options avoid) := by
  have hother : ∀ {n s}, s ≠ .initial → s ≠ .precolored →
      (ofNodes g m options avoid).state.get n ≠ s := by
    intro n s hi hp e
    subst e
    exact fresh_ofNodes n |>.elim hi hp
  exact {
    simplify n := iff_of_false (SortedSet.not_mem_empty n) (hother nofun nofun)
    freeze n := iff_of_false (SortedSet.not_mem_empty n) (hother nofun nofun)
    spill n := iff_of_false (SortedSet.not_mem_empty n) (hother nofun nofun)
    select n := iff_of_false List.not_mem_nil (hother nofun nofun)
    nodup := .nil
    lt_size n hn := by
      rw [state_ofNodes] at hn
      split at hn
      · exact Interference.WellFormed.lt_of_node ‹_›
      · exact absurd rfl hn
    worklistMoves i := iff_of_false (SortedSet.not_mem_empty i) fun h => Nat.not_lt_zero i h.1
    activeMoves i := iff_of_false (SortedSet.not_mem_empty i) fun h => Nat.not_lt_zero i h.1 }

theorem edges_ofNodes : Edges (ofNodes g m options avoid) where
  symm hb := absurd hb (SortedSet.not_mem_empty _)
  irrefl a := SortedSet.not_mem_empty a
  lt_size hb := absurd hb (SortedSet.not_mem_empty _)
  mem_neighbors _ := iff_of_false List.not_mem_nil (SortedSet.not_mem_empty _)
  nodup _ := .nil

theorem start_ofNodes : Start (ofNodes g m options avoid) where
  lists := lists_ofNodes
  edges := edges_ofNodes
  degrees _ _ := rfl
  moves := ⟨fun hi => absurd hi List.not_mem_nil, fun hi => absurd hi List.not_mem_nil, nofun⟩
  fresh := fresh_ofNodes

/-! ## The edges and moves of a graph -/

theorem mem_edges {a b : Nat} (hg : g.WellFormed) :
    (a, b) ∈ g.edges ↔ b ∈ g.graph.succsOf a ∧ a < b := by
  unfold Interference.edges Interference.adjacent Digraph.ids
  simp only [List.mem_flatMap, List.mem_range, List.mem_map, List.mem_filter, decide_eq_true_eq,
    Prod.mk.injEq]
  constructor
  · rintro ⟨x, _, y, ⟨hy, hxy⟩, rfl, rfl⟩
    exact ⟨hy, hxy⟩
  · rintro ⟨hb, hab⟩
    exact ⟨a, hg.lt_size (hg.symm hb), b, ⟨hb, hab⟩, rfl, rfl⟩

theorem edges_lt_size (hg : g.WellFormed) : ∀ e ∈ g.edges, e.1 < g.size ∧ e.2 < g.size := by
  rintro ⟨a, b⟩ he
  have hb := ((mem_edges hg).1 he).1
  exact ⟨hg.lt_size (hg.symm hb), hg.lt_size hb⟩

/-- The nodes and edges of a graph, without moves. -/
theorem start_edges (hg : g.WellFormed) :
    Start (g.edges.foldl (fun c e => c.addEdge e.1 e.2) (ofNodes g m options avoid)) :=
  start_ofNodes.foldl_addEdge (edges_lt_size hg)

theorem ofGraph_eq : ofGraph g m options avoid =
    (if options.coalescing then g.moves.toList else []).foldl (fun c e => c.addMove e.1 e.2)
      (g.edges.foldl (fun c e => c.addEdge e.1 e.2) (ofNodes g m options avoid)) := by
  unfold ofGraph
  split
  · exact (Array.foldl_toList _).symm
  · rfl

theorem start_ofGraph (hg : g.WellFormed) (m : Machine) (options : AllocOptions) (avoid : TempSet) :
    Start (ofGraph g m options avoid) := by
  have hframe := foldl_addEdge_frame g.edges (ofNodes g m options avoid)
  rw [ofGraph_eq]
  refine (start_edges hg).foldl_addMove ?_
  intro e he
  have hsize : (g.edges.foldl (fun c e => c.addEdge e.1 e.2) (ofNodes g m options avoid)).size
      = g.size := by
    simp only [size, hframe.2.1]
    rfl
  rw [hsize]
  split at he
  · exact hg.moves e (Array.mem_toList_iff.1 he)
  · cases he

/-- What the start has from the graph. -/
theorem ofGraph_frame : (ofGraph g m options avoid).k = m.colors
    ∧ (ofGraph g m options avoid).temps = g.graph.nodes
    ∧ (ofGraph g m options avoid).state = (ofNodes g m options avoid).state
    ∧ (ofGraph g m options avoid).color = (ofNodes g m options avoid).color
    ∧ (ofGraph g m options avoid).avoid = (ofNodes g m options avoid).avoid
    ∧ (ofGraph g m options avoid).selectStack = [] := by
  have hedges := foldl_addEdge_frame g.edges (ofNodes g m options avoid)
  have hmoves := foldl_addMove_frame (if options.coalescing then g.moves.toList else [])
    (g.edges.foldl (fun c e => c.addEdge e.1 e.2) (ofNodes g m options avoid))
  dsimp only at hedges hmoves
  rw [ofGraph_eq]
  simp only [hmoves, hedges, true_and]
  exact ⟨rfl, rfl, rfl⟩

theorem foldl_addMove_moves (es : List (Nat × Nat)) (c : Coloring) :
    (es.foldl (fun c e => c.addMove e.1 e.2) c).moves = c.moves ++ es.toArray := by
  induction es generalizing c with
  | nil => exact (Array.append_empty).symm
  | cons e es ih =>
      rw [List.foldl_cons, ih]
      show c.moves.push e ++ es.toArray = c.moves ++ (e :: es).toArray
      simp

/-- The moves of the start are those of the graph, unless none is to be merged. -/
theorem moves_ofGraph :
    (ofGraph g m options avoid).moves = if options.coalescing then g.moves else #[] := by
  have hedges := foldl_addEdge_frame g.edges (ofNodes g m options avoid)
  have hempty : (ofNodes g m options avoid).moves = #[] := rfl
  rw [ofGraph_eq, foldl_addMove_moves, hedges.2.2.2.2.2.2.2.2, hempty, Array.empty_append]
  split <;> rfl

/-- The edges of the start are those of the graph. -/
theorem mem_edges_ofGraph (hg : g.WellFormed) (a b : Nat) :
    b ∈ (ofGraph g m options avoid).edges.get a ↔ b ∈ g.graph.succsOf a := by
  have hframe := foldl_addMove_frame (if options.coalescing then g.moves.toList else [])
    (g.edges.foldl (fun c e => c.addEdge e.1 e.2) (ofNodes g m options avoid))
  rw [ofGraph_eq, hframe.2.2.2.1, start_ofNodes.edges.mem_foldl_addEdge (edges_lt_size hg)]
  constructor
  · rintro (h | ⟨⟨x, y⟩, he, _, ⟨rfl, rfl⟩ | ⟨rfl, rfl⟩⟩)
    · exact absurd h (SortedSet.not_mem_empty b)
    · exact ((mem_edges hg).1 he).1
    · exact hg.symm ((mem_edges hg).1 he).1
  · intro hb
    have hne : a ≠ b := fun e => hg.irrefl a (e ▸ hb)
    rcases Nat.lt_or_gt_of_ne hne with hlt | hgt
    · exact .inr ⟨(a, b), (mem_edges hg).2 ⟨hb, hlt⟩, hne, .inl ⟨rfl, rfl⟩⟩
    · exact .inr ⟨(b, a), (mem_edges hg).2 ⟨hg.symm hb, hgt⟩, hne.symm, .inr ⟨rfl, rfl⟩⟩

end OfGraph

/-! ## Sorting the nodes -/

/-- Sort one node into its worklist. -/
def sortNode (c : Coloring) (n : Nat) : Coloring :=
  if c.state.get n = .initial then
    if c.k ≤ c.degree.get n then c.setState n .spill
    else if c.isMoveRelated n then c.setState n .freeze
    else c.setState n .simplify
  else c

theorem makeWorklist_eq (c : Coloring) : c.makeWorklist = c.nodes.foldl sortNode c := rfl

/-- What holds while nodes are sorted. -/
structure Sorting (c : Coloring) : Prop where
  lists : Lists c
  edges : Edges c
  degrees : Degrees c []
  sorted : Sorted c (fun _ => False) (fun _ => False)
  moves : MoveLists c
  aliases : Aliases c
  uncolored : ∀ n, c.state.get n ≠ .colored ∧ c.state.get n ≠ .spilled

theorem Start.sorting (h : Start c) : Sorting c where
  lists := h.lists
  edges := h.edges
  degrees := h.degrees
  sorted := h.sorted
  moves := h.moves
  aliases := h.aliases
  uncolored := by
    intro n
    rcases h.fresh n with e | e <;> rw [e] <;> exact ⟨nofun, nofun⟩

/-- A node that was not sorted goes where its degree and its moves ask for. -/
theorem Sorting.setState {n : Nat} {s : NodeState} (h : Sorting c) (hlt : n < c.size)
    (hn : c.state.get n = .initial) (hs : s.isListed = true)
    (hspill : s = .spill → c.k ≤ c.degree.get n)
    (hfreeze : s = .freeze → c.degree.get n < c.k ∧ c.isMoveRelated n = true)
    (hsimplify : s = .simplify → c.isMoveRelated n = false) : Sorting (c.setState n s) := by
  have hopen : (c.state.get n).isOpen = true := by rw [hn]; rfl
  have hsame : SameGraph c (c.setState n s) := by
    refine .setState hopen hs fun e => ?_
    rw [hn] at e
    cases e
  refine ⟨h.lists.setState_of_isOpen hlt hopen, hsame.edges_part h.edges,
    hsame.degrees_part (by simp) h.degrees, ?_, hsame.moves_part h.moves,
    hsame.aliases h.aliases, ?_⟩
  · exact h.sorted.setState hs hspill hfreeze (fun e _ => hsimplify e) (fun _ _ => id) fun _ _ => id
  · intro i
    rw [ne_eq, ne_eq, hsame.state_iff (s := .colored) rfl, hsame.state_iff (s := .spilled) rfl]
    exact h.uncolored i

theorem Sorting.sortNode {n : Nat} (h : Sorting c) (hlt : n < c.size) : Sorting (c.sortNode n) := by
  unfold Coloring.sortNode
  split
  · rename_i hn
    split
    · rename_i hk
      exact h.setState hlt hn rfl (fun _ => hk) nofun nofun
    · rename_i hk
      split
      · rename_i hrel
        exact h.setState hlt hn rfl nofun (fun _ => ⟨Nat.lt_of_not_le hk, hrel⟩) nofun
      · rename_i hrel
        exact h.setState hlt hn rfl nofun nofun fun _ => by simpa using hrel
  · exact h

theorem SameGraph.sortNode (c : Coloring) (n : Nat) : SameGraph c (c.sortNode n) := by
  unfold Coloring.sortNode
  split
  · rename_i hn
    have hopen : (c.state.get n).isOpen = true := by rw [hn]; rfl
    have hkeep : ∀ {s : NodeState}, c.state.get n = .simplify → s = .simplify := by
      intro s e
      rw [hn] at e
      cases e
    split
    · exact .setState hopen rfl hkeep
    · split
      · exact .setState hopen rfl hkeep
      · exact .setState hopen rfl hkeep
  · exact .refl c

theorem sortNode_ne_initial (c : Coloring) (n : Nat) : (c.sortNode n).state.get n ≠ .initial := by
  unfold sortNode
  split
  · split
    · simp [state_setState]
    · split <;> simp [state_setState]
  · assumption

/-- Sorting keeps what was sorted. -/
theorem Sorting.foldl_sortNode (h : Sorting c) (ns : List Nat) (hlt : ∀ n ∈ ns, n < c.size) :
    Sorting (ns.foldl Coloring.sortNode c) ∧ SameGraph c (ns.foldl Coloring.sortNode c)
      ∧ ∀ n ∈ ns, (ns.foldl Coloring.sortNode c).state.get n ≠ .initial := by
  induction ns generalizing c with
  | nil => exact ⟨h, .refl c, fun _ => nofun⟩
  | cons n ns ih =>
      have hstep := SameGraph.sortNode c n
      have ⟨hsorting, hsame, hne⟩ := ih (h.sortNode (hlt n List.mem_cons_self)) (by
        intro i hi
        rw [hstep.size]
        exact hlt i (List.mem_cons_of_mem _ hi))
      refine ⟨hsorting, hstep.trans hsame, ?_⟩
      intro i hi
      rcases List.mem_cons.1 hi with rfl | hi
      · intro e
        rcases hsame.state i with e' | ⟨_, e'⟩
        · exact sortNode_ne_initial c i (e'.symm.trans e)
        · rw [List.foldl_cons] at e
          rw [e] at e'
          cases e'
      · exact hne i hi

theorem Start.coherent (h : Start c) : Coherent c.makeWorklist ∧ SameGraph c c.makeWorklist := by
  have ⟨hsorting, hsame, hne⟩ := h.sorting.foldl_sortNode c.nodes fun n hn => List.mem_range.1 hn
  rw [makeWorklist_eq]
  refine ⟨⟨hsorting.lists, hsorting.edges, hsorting.degrees, hsorting.sorted, hsorting.moves,
    hsorting.aliases, ⟨?_, hsorting.uncolored⟩⟩, hsame⟩
  intro n hn
  rw [hsame.size] at hn
  exact hne n (List.mem_range.2 hn)

end Coloring

end TreeCompiler
