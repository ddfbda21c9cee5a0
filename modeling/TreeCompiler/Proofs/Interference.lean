import TreeCompiler.Interference

/-!
# Interference graphs — what holds of every graph that can be built

A graph starts with the registers of a machine and grows by temps, edges and moves (`Built`).  Each
way to grow keeps the index in step with the nodes, the edges symmetric and the moves in range
(`WellFormed`), and adds exactly the edge it is asked for (`interferes_addEdge`).
-/

namespace TreeCompiler

namespace Interference

variable {m : Machine} {g h : Interference} {a b t u : Temp} {n : Nat}

/-- The graphs that can be built over a machine. -/
inductive Built (m : Machine) : Interference → Prop
  | registers : Built m (registers m)
  | addTemp {g : Interference} (t : Temp) (h : Built m g) : Built m (g.addTemp t).2
  | addEdge {g : Interference} (a b : Temp) (h : Built m g) : Built m (g.addEdge a b)
  | addMove {g : Interference} (src dst : Temp) (h : Built m g) : Built m (g.addMove src dst)

/-- The index finds the nodes, the edges go both ways, and the moves are between nodes. -/
structure WellFormed (g : Interference) : Prop where
  index : ∀ {t : Temp} {n : Nat}, g.nodeOf? t = some n ↔ g.graph.nodes[n]? = some t
  succs : g.graph.succs.size = g.size
  symm : ∀ {x y : Nat}, y ∈ g.graph.succsOf x → x ∈ g.graph.succsOf y
  irrefl : ∀ x : Nat, x ∉ g.graph.succsOf x
  lt_size : ∀ {x y : Nat}, y ∈ g.graph.succsOf x → y < g.size
  moves : ∀ e ∈ g.moves, e.1 < g.size ∧ e.2 < g.size

/-- The first nodes are the registers. -/
def HasRegisters (m : Machine) (g : Interference) : Prop :=
  ∀ i, i < m.colors + 2 → g.graph.nodes[i]? = some ⟨i⟩

/-- `h` has the nodes of `g` under the same numbers. -/
def Extends (g h : Interference) : Prop :=
  ∀ (n : Nat) (t : Temp), g.graph.nodes[n]? = some t → h.graph.nodes[n]? = some t

theorem Extends.hasRegisters (hgh : Extends g h) (hg : HasRegisters m g) : HasRegisters m h :=
  fun i hi => hgh i _ (hg i hi)

namespace WellFormed

theorem lt_of_node (hn : g.graph.nodes[n]? = some t) : n < g.size :=
  (Array.getElem?_eq_some_iff.1 hn).1

theorem exists_node (hn : n < g.size) : ∃ t, g.graph.nodes[n]? = some t :=
  ⟨_, Array.getElem?_eq_getElem hn⟩

/-- Nodes of different numbers are different temps. -/
theorem node_inj (hg : WellFormed g) {i j : Nat} (hi : g.graph.nodes[i]? = some t)
    (hj : g.graph.nodes[j]? = some t) : i = j := by
  have h₁ := hg.index.2 hi
  have h₂ := hg.index.2 hj
  exact Option.some.inj (h₁.symm.trans h₂)

theorem nodup (hg : WellFormed g) : g.temps.Nodup := by
  refine List.pairwise_iff_getElem.2 fun i j hi hj hij heq => ?_
  have hnode : ∀ n (hn : n < g.temps.length), g.graph.nodes[n]? = some g.temps[n] := by
    intro n hn
    rw [← Array.getElem?_toList]
    exact List.getElem?_eq_getElem hn
  exact Nat.ne_of_lt hij (hg.node_inj (hnode i hi) (heq ▸ hnode j hj))

theorem interferes_iff (hg : WellFormed g) : g.interferes a b = true ↔
    ∃ i j, g.graph.nodes[i]? = some a ∧ g.graph.nodes[j]? = some b ∧ j ∈ g.graph.succsOf i := by
  unfold interferes
  constructor
  · intro h
    split at h
    · rename_i i j hi hj
      exact ⟨i, j, hg.index.1 hi, hg.index.1 hj, Digraph.hasEdge_iff.1 h⟩
    · cases h
  · rintro ⟨i, j, hi, hj, hij⟩
    rw [hg.index.2 hi, hg.index.2 hj]
    exact Digraph.hasEdge_iff.2 hij

theorem interferes_comm (hg : WellFormed g) (h : g.interferes a b = true) :
    g.interferes b a = true := by
  obtain ⟨i, j, hi, hj, hij⟩ := hg.interferes_iff.1 h
  exact hg.interferes_iff.2 ⟨j, i, hj, hi, hg.symm hij⟩

end WellFormed

theorem wellFormed_empty : WellFormed empty where
  index := by
    intro t n
    simp [empty, nodeOf?, Digraph.empty, TempMap.get?_empty]
  succs := rfl
  symm := by
    intro x y h
    exact absurd h (by simp [empty, Digraph.empty, Digraph.succsOf, SortedSet.not_mem_empty])
  irrefl := by
    intro x h
    exact absurd h (by simp [empty, Digraph.empty, Digraph.succsOf, SortedSet.not_mem_empty])
  lt_size := by
    intro x y h
    exact absurd h (by simp [empty, Digraph.empty, Digraph.succsOf, SortedSet.not_mem_empty])
  moves := by
    intro e he
    simp [empty] at he

/-! ## Adding a temp -/

/-- What adding a temp does. -/
structure TempAdded (g : Interference) (t : Temp) (r : Nat × Interference) : Prop where
  wellFormed : WellFormed r.2
  grows : Extends g r.2
  node : r.2.graph.nodes[r.1]? = some t
  /-- No node but that of the temp is new. -/
  old : ∀ {i : Nat} {u : Temp}, r.2.graph.nodes[i]? = some u → u = t ∨ g.graph.nodes[i]? = some u
  succs : ∀ i : Nat, r.2.graph.succsOf i = g.graph.succsOf i
  moves : r.2.moves = g.moves

theorem getElem?_push_iff (g : Interference) (t : Temp) (i : Nat) (u : Temp) :
    (g.graph.nodes.push t)[i]? = some u ↔ (i = g.size ∧ u = t) ∨ g.graph.nodes[i]? = some u := by
  rw [Array.getElem?_push]
  split
  · rename_i hi
    simp [hi, size, Digraph.size, eq_comm]
  · rename_i hi
    simp [size, Digraph.size, hi]

/-- A temp without a node can have the next one. -/
theorem wellFormed_pushNode (hg : WellFormed g) (hnone : g.nodeOf? t = none) :
    WellFormed { g with graph := (g.graph.addNode t).2, index := g.index.insert t g.size } where
  index := by
    intro u n
    refine Iff.trans ?_ (getElem?_push_iff g t n u).symm
    unfold nodeOf?
    rw [TempMap.get?_insert]
    by_cases htu : t = u
    · subst htu
      have hold : g.graph.nodes[n]? ≠ some t := by
        intro e
        rw [hg.index.2 e] at hnone
        cases hnone
      simp [hold, eq_comm]
    · rw [if_neg htu]
      exact hg.index.trans (by simp [Ne.symm htu])
  succs := by simp [Digraph.addNode, hg.succs, size, Digraph.size]
  symm := by
    intro x y hy
    rw [Digraph.succsOf_addNode] at hy ⊢
    exact hg.symm hy
  irrefl := by
    intro x hx
    rw [Digraph.succsOf_addNode] at hx
    exact hg.irrefl x hx
  lt_size := by
    intro x y hy
    rw [Digraph.succsOf_addNode] at hy
    exact Nat.lt_of_lt_of_le (hg.lt_size hy) (by simp [size, Digraph.size_addNode])
  moves := by
    intro e he
    obtain ⟨h₁, h₂⟩ := hg.moves e he
    simp only [size, Digraph.size_addNode] at h₁ h₂ ⊢
    exact ⟨Nat.lt_succ_of_lt h₁, Nat.lt_succ_of_lt h₂⟩

theorem tempAdded (hg : WellFormed g) (t : Temp) : TempAdded g t (g.addTemp t) := by
  unfold addTemp
  split
  · rename_i n hn
    exact ⟨hg, fun _ _ => id, hg.index.1 hn, .inr, fun _ => rfl, rfl⟩
  · rename_i hnone
    have hnodes := getElem?_push_iff g t
    refine ⟨wellFormed_pushNode hg hnone, ?_, (hnodes _ t).2 (.inl ⟨rfl, rfl⟩), ?_,
      Digraph.succsOf_addNode g.graph t, rfl⟩
    · intro n u hu
      exact (hnodes n u).2 (.inr hu)
    · intro i u hu
      exact ((hnodes i u).1 hu).imp_left And.right

namespace TempAdded

variable {r : Nat × Interference}

theorem interferes (hr : TempAdded g t r) (hg : WellFormed g) :
    r.2.interferes a b = true ↔ g.interferes a b = true := by
  rw [hr.wellFormed.interferes_iff, hg.interferes_iff]
  constructor
  · rintro ⟨i, j, hi, hj, hij⟩
    rw [hr.succs] at hij
    -- the ends of an edge are nodes of the old graph
    obtain ⟨a', ha'⟩ := WellFormed.exists_node (hg.lt_size (hg.symm hij))
    obtain ⟨b', hb'⟩ := WellFormed.exists_node (hg.lt_size hij)
    have ha : a' = a := Option.some.inj ((hr.grows i _ ha').symm.trans hi)
    have hb : b' = b := Option.some.inj ((hr.grows j _ hb').symm.trans hj)
    exact ⟨i, j, ha ▸ ha', hb ▸ hb', hij⟩
  · rintro ⟨i, j, hi, hj, hij⟩
    exact ⟨i, j, hr.grows _ _ hi, hr.grows _ _ hj, (hr.succs i).symm ▸ hij⟩

end TempAdded

/-! ## Adding an edge -/

/-- What growing a graph by edges between temps does. -/
structure Grown (g h : Interference) : Prop where
  wellFormed : WellFormed h
  grows : Extends g h

theorem Grown.trans {e : Interference} (h₁ : Grown g h) (h₂ : Grown h e) : Grown g e :=
  ⟨h₂.wellFormed, fun n t hn => h₂.grows n t (h₁.grows n t hn)⟩

theorem TempAdded.grown {r : Nat × Interference} (hr : TempAdded g t r) : Grown g r.2 :=
  ⟨hr.wellFormed, hr.grows⟩

/-- The graph with one more edge between nodes that are there. -/
def linkNodes (g : Interference) (x y : Nat) : Interference :=
  { g with graph := g.graph.addUndirected x y }

theorem mem_succsOf_linkNodes (hg : WellFormed g) {x y i j : Nat} (hx : x < g.size)
    (hy : y < g.size) : j ∈ (g.linkNodes x y).graph.succsOf i ↔
      (i = x ∧ j = y) ∨ (i = y ∧ j = x) ∨ j ∈ g.graph.succsOf i := by
  have hsize : (g.graph.addEdge x y).succs.size = g.size := by
    simp [Digraph.addEdge, hg.succs]
  unfold linkNodes Digraph.addUndirected
  rw [Digraph.mem_succsOf_addEdge (by rw [hsize]; exact hy),
    Digraph.mem_succsOf_addEdge (by rw [hg.succs]; exact hx)]
  constructor
  · rintro (h | h | h)
    · exact .inr (.inl h)
    · exact .inl h
    · exact .inr (.inr h)
  · rintro (h | h | h)
    · exact .inr (.inl h)
    · exact .inl h
    · exact .inr (.inr h)

theorem wellFormed_linkNodes (hg : WellFormed g) {x y : Nat} (hx : x < g.size) (hy : y < g.size)
    (hxy : x ≠ y) : WellFormed (g.linkNodes x y) where
  index := hg.index
  succs := by
    simp [linkNodes, Digraph.addUndirected, Digraph.addEdge, hg.succs, size, Digraph.size]
  symm := by
    intro i j hij
    rw [mem_succsOf_linkNodes hg hx hy] at hij ⊢
    rcases hij with h | h | h
    · exact .inr (.inl ⟨h.2, h.1⟩)
    · exact .inl ⟨h.2, h.1⟩
    · exact .inr (.inr (hg.symm h))
  irrefl := by
    intro i hi
    rw [mem_succsOf_linkNodes hg hx hy] at hi
    rcases hi with h | h | h
    · exact hxy (h.1.symm.trans h.2)
    · exact hxy (h.2.symm.trans h.1)
    · exact hg.irrefl i h
  lt_size := by
    intro i j hij
    rw [mem_succsOf_linkNodes hg hx hy] at hij
    rcases hij with h | h | h
    · exact h.2 ▸ hy
    · exact h.2 ▸ hx
    · exact hg.lt_size h
  moves := hg.moves

theorem interferes_linkNodes (hg : WellFormed g) {i j : Nat} (hi : g.graph.nodes[i]? = some a)
    (hj : g.graph.nodes[j]? = some b) (hij : i ≠ j) (x y : Temp) :
    (g.linkNodes i j).interferes x y = true ↔
      (x = a ∧ y = b ∨ x = b ∧ y = a) ∨ g.interferes x y = true := by
  have hlti := WellFormed.lt_of_node hi
  have hltj := WellFormed.lt_of_node hj
  rw [(wellFormed_linkNodes hg hlti hltj hij).interferes_iff, hg.interferes_iff]
  constructor
  · rintro ⟨i', j', hi', hj', hmem⟩
    rcases (mem_succsOf_linkNodes hg hlti hltj).1 hmem with ⟨rfl, rfl⟩ | ⟨rfl, rfl⟩ | hmem
    · exact .inl (.inl ⟨Option.some.inj (hi'.symm.trans hi), Option.some.inj (hj'.symm.trans hj)⟩)
    · exact .inl (.inr ⟨Option.some.inj (hi'.symm.trans hj), Option.some.inj (hj'.symm.trans hi)⟩)
    · exact .inr ⟨i', j', hi', hj', hmem⟩
  · rintro ((⟨rfl, rfl⟩ | ⟨rfl, rfl⟩) | ⟨i', j', hi', hj', hmem⟩)
    · exact ⟨i, j, hi, hj, (mem_succsOf_linkNodes hg hlti hltj).2 (.inl ⟨rfl, rfl⟩)⟩
    · exact ⟨j, i, hj, hi, (mem_succsOf_linkNodes hg hlti hltj).2 (.inr (.inl ⟨rfl, rfl⟩))⟩
    · exact ⟨i', j', hi', hj', (mem_succsOf_linkNodes hg hlti hltj).2 (.inr (.inr hmem))⟩

/-- An edge between different temps is added between their nodes. -/
theorem addEdge_of_ne (hg : WellFormed g) (hab : a ≠ b) : ∃ g' i j, g.addEdge a b = g'.linkNodes i j
    ∧ Grown g g' ∧ g'.graph.nodes[i]? = some a ∧ g'.graph.nodes[j]? = some b ∧ i ≠ j
    ∧ ∀ x y, g'.interferes x y = true ↔ g.interferes x y = true := by
  have h₁ := tempAdded hg a
  have h₂ := tempAdded h₁.wellFormed b
  have hnode := h₂.grows _ _ h₁.node
  refine ⟨((g.addTemp a).2.addTemp b).2, (g.addTemp a).1, ((g.addTemp a).2.addTemp b).1, if_neg hab,
    h₁.grown.trans h₂.grown, hnode, h₂.node, ?_, ?_⟩
  · intro e
    rw [e, h₂.node] at hnode
    exact hab (Option.some.inj hnode).symm
  · intro x y
    exact (h₂.interferes h₁.wellFormed).trans (h₁.interferes hg)

theorem grown_addEdge (hg : WellFormed g) (a b : Temp) : Grown g (g.addEdge a b) := by
  by_cases hab : a = b
  · rw [show g.addEdge a b = g from if_pos hab]
    exact ⟨hg, fun _ _ => id⟩
  · obtain ⟨g', i, j, heq, hgrown, hi, hj, hij, _⟩ := addEdge_of_ne hg hab
    rw [heq]
    exact ⟨wellFormed_linkNodes hgrown.wellFormed (WellFormed.lt_of_node hi)
      (WellFormed.lt_of_node hj) hij, hgrown.grows⟩

/-- An edge is added between the two temps, and no other one. -/
theorem interferes_addEdge (hg : WellFormed g) (a b x y : Temp) :
    (g.addEdge a b).interferes x y = true ↔
      (a ≠ b ∧ (x = a ∧ y = b ∨ x = b ∧ y = a)) ∨ g.interferes x y = true := by
  by_cases hab : a = b
  · rw [show g.addEdge a b = g from if_pos hab]
    simp [hab]
  · obtain ⟨g', i, j, heq, hgrown, hi, hj, hij, hold⟩ := addEdge_of_ne hg hab
    rw [heq, interferes_linkNodes hgrown.wellFormed hi hj hij, hold]
    simp [hab]

/-! ## Adding a move -/

theorem grown_addMove (hg : WellFormed g) (src dst : Temp) : Grown g (g.addMove src dst) := by
  have h₁ := tempAdded hg src
  have h₂ := tempAdded h₁.wellFormed dst
  have hx := h₂.grows _ _ h₁.node
  have hgrown := h₁.grown.trans h₂.grown
  unfold addMove
  dsimp only
  split
  · exact hgrown
  · refine ⟨⟨hgrown.1.index, hgrown.1.succs, hgrown.1.symm, hgrown.1.irrefl, hgrown.1.lt_size, ?_⟩,
      hgrown.2⟩
    intro e he
    rcases Array.mem_push.1 he with he | rfl
    · exact hgrown.1.moves e he
    · exact ⟨WellFormed.lt_of_node hx, WellFormed.lt_of_node h₂.node⟩

theorem interferes_addMove (hg : WellFormed g) (src dst x y : Temp) :
    (g.addMove src dst).interferes x y = true ↔ g.interferes x y = true := by
  have h₁ := tempAdded hg src
  have h₂ := tempAdded h₁.wellFormed dst
  refine Iff.trans ?_ ((h₂.interferes h₁.wellFormed).trans (h₁.interferes hg))
  unfold addMove
  dsimp only
  split <;> exact Iff.rfl

/-! ## The registers -/

theorem grown_foldl {α : Type} {f : Interference → α → Interference}
    (hf : ∀ {g} a, WellFormed g → Grown g (f g a)) (l : List α) (hg : WellFormed g) :
    Grown g (l.foldl f g) := by
  induction l generalizing g with
  | nil => exact ⟨hg, fun _ _ => id⟩
  | cons a l ih => exact (hf a hg).trans (ih (hf a hg).wellFormed)

theorem grown_addTemps (hg : WellFormed g) (ts : List Temp) : Grown g (g.addTemps ts) :=
  grown_foldl (fun t hg => (tempAdded hg t).grown) ts hg

theorem grown_addClique (hg : WellFormed g) (ts : List Temp) : Grown g (g.addClique ts) := by
  induction ts generalizing g with
  | nil => exact ⟨hg, fun _ _ => id⟩
  | cons t ts ih =>
      have hrow := grown_foldl (f := fun g u => g.addEdge t u)
        (fun u hg => grown_addEdge hg t u) ts hg
      exact hrow.trans (ih hrow.wellFormed)

/-- Registers are numbered in order. -/
theorem nodes_addTemps_range (N : Nat) :
    (empty.addTemps ((List.range N).map Temp.mk)).graph.nodes
      = ((List.range N).map Temp.mk).toArray := by
  induction N with
  | zero => rfl
  | succ N ih =>
      have hg := (grown_addTemps wellFormed_empty ((List.range N).map Temp.mk)).wellFormed
      have hnone : (empty.addTemps ((List.range N).map Temp.mk)).nodeOf? ⟨N⟩ = none := by
        refine Option.eq_none_iff_forall_ne_some.2 fun n hn => ?_
        rw [hg.index, ih] at hn
        simp only [List.getElem?_toArray, List.getElem?_map, Option.map_eq_some_iff,
          Temp.mk.injEq] at hn
        obtain ⟨i, hi, rfl⟩ := hn
        exact Nat.lt_irrefl _ (List.mem_range.1 (List.mem_of_getElem? hi))
      have hlast : empty.addTemps ((List.range (N + 1)).map Temp.mk)
          = ((empty.addTemps ((List.range N).map Temp.mk)).addTemp ⟨N⟩).2 := by
        rw [List.range_succ, List.map_append]
        exact List.foldl_append
      rw [hlast, List.range_succ, List.map_append]
      unfold addTemp
      rw [hnone]
      simp [Digraph.addNode, ih]

theorem grown_registers (m : Machine) :
    WellFormed (registers m) ∧ HasRegisters m (registers m) := by
  have h₁ := grown_addTemps wellFormed_empty m.registers
  have h₂ := grown_addClique h₁.wellFormed m.allocatable
  refine ⟨h₂.wellFormed, h₂.grows.hasRegisters ?_⟩
  intro i hi
  unfold Machine.registers
  rw [nodes_addTemps_range, m.length_names]
  simp [hi]

namespace Built

theorem grown (hg : Built m g) : WellFormed g ∧ HasRegisters m g := by
  induction hg with
  | registers => exact grown_registers m
  | addTemp t _ ih =>
      have h := tempAdded ih.1 t
      exact ⟨h.wellFormed, h.grows.hasRegisters ih.2⟩
  | addEdge a b _ ih =>
      have h := grown_addEdge ih.1 a b
      exact ⟨h.wellFormed, h.grows.hasRegisters ih.2⟩
  | addMove src dst _ ih =>
      have h := grown_addMove ih.1 src dst
      exact ⟨h.wellFormed, h.grows.hasRegisters ih.2⟩

theorem wellFormed (hg : Built m g) : WellFormed g := hg.grown.1

theorem hasRegisters (hg : Built m g) : HasRegisters m g := hg.grown.2

/-- The nodes of registers are the first ones. -/
theorem isRegister_iff (hg : Built m g) {n : Nat} {t : Temp} (hn : g.graph.nodes[n]? = some t) :
    m.isRegister t = true ↔ n < m.colors + 2 := by
  rw [Machine.isRegister_iff]
  constructor
  · intro ht
    have hnode := hg.hasRegisters t.id ht
    exact hg.wellFormed.node_inj hn hnode ▸ ht
  · intro hlt
    have hnode := hg.hasRegisters n hlt
    exact Option.some.inj (hnode.symm.trans hn) ▸ hlt

end Built

end Interference

end TreeCompiler
