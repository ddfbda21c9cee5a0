import TreeCompiler.Proofs.Coloring.Result
import TreeCompiler.Proofs.Coloring.Runs
import TreeCompiler.Proofs.Coloring.Separated
import TreeCompiler.Proofs.RegisterFile

/-!
# Coloring is proper — neighbors get different colors

When a node of the select stack gets its color, it sees each neighbor that has one already
(`Separated`), so it gets another one.  Merged nodes have the color of the node that stands for
them, and the two ends of an edge are never merged into one node.
-/

namespace TreeCompiler

namespace Coloring

open Interference (Built)

variable {c d : Coloring} {a b : Nat}

/-! ## What steps never change -/

/-- What a step leaves alone: registers, temps, fixed colors and old edges. -/
structure Keeps (c d : Coloring) : Prop where
  k : d.k = c.k
  temps : d.temps = c.temps
  color : d.color = c.color
  avoid : d.avoid = c.avoid
  isPrecolored : ∀ n, d.isPrecolored n = c.isPrecolored n
  edges : ∀ {i j}, j ∈ c.edges.get i → j ∈ d.edges.get i

namespace Keeps

theorem refl (c : Coloring) : Keeps c c := ⟨rfl, rfl, rfl, rfl, fun _ => rfl, id⟩

theorem trans {e : Coloring} (h : Keeps c d) (h' : Keeps d e) : Keeps c e :=
  ⟨h'.k.trans h.k, h'.temps.trans h.temps, h'.color.trans h.color, h'.avoid.trans h.avoid,
    fun n => (h'.isPrecolored n).trans (h.isPrecolored n), fun hj => h'.edges (h.edges hj)⟩

end Keeps

theorem SameGraph.keeps (hcd : SameGraph c d) : Keeps c d :=
  ⟨hcd.k, hcd.temps, hcd.color, hcd.avoid, hcd.isPrecolored, fun hj => hcd.edges.symm ▸ hj⟩

theorem isPrecolored_setState {n : Nat} {s : NodeState} (hn : (c.state.get n).isOpen = true)
    (hs : s ≠ .precolored) (i : Nat) : (c.setState n s).isPrecolored i = c.isPrecolored i := by
  have hpre := isPrecolored_of_isOpen hn
  simp only [isPrecolored, state_setState] at hpre ⊢
  split
  · rename_i hi
    rw [hi, hpre]
    exact decide_eq_false hs
  · rfl

/-- A merge changes no register. -/
theorem isPrecolored_absorb {u v : Nat} (hv : (c.state.get v).isListed = true) (n : Nat) :
    (c.absorb u v).isPrecolored n = c.isPrecolored n := by
  rw [← isPrecolored_setState (NodeState.isOpen_of_isListed hv)
    (show NodeState.coalesced ≠ .precolored by decide) n]
  simp only [isPrecolored, (absorb_frame c u v).2.2.1]

theorem Coherent.keeps (h : Coherent c) (hstep : c.step? = some d) : Keeps c d := by
  cases h.transition hstep with
  | stay hcd => exact hcd.keeps
  | remove n hn hcd =>
      refine Keeps.trans ?_ hcd.keeps
      refine ⟨by simp, by simp, by simp, by simp, ?_, by simp⟩
      exact isPrecolored_setState (by rw [hn]; rfl) nofun
  | merge u v hm hcd =>
      refine Keeps.trans ?_ hcd.keeps
      have hframe := absorb_frame c u v
      refine ⟨hframe.1, hframe.2.1, hframe.2.2.2.2.1, hframe.2.2.2.2.2.1,
        isPrecolored_absorb hm.leaves, fun {i j} hj => ?_⟩
      exact (hm.mem_edges_absorb h i j).2 (.inl hj)

theorem Coherent.keeps_reaches (h : Coherent c) (hcd : Reaches c d) : Keeps c d := by
  induction hcd with
  | refl => exact .refl c
  | step hreach hstep ih => exact ih.trans ((h.reaches hreach).keeps hstep)

/-! ## Colors of the ends of an edge -/

/-- What is known when the stack is about to be colored. -/
structure Ready (c : Coloring) : Prop where
  coherent : Coherent c
  separated : Separated c
  done : c.step? = none
  /-- Only registers have a color yet, each one of its own. -/
  uncolored : ∀ n, c.isPrecolored n = false → c.color.get n = none
  fixed_lt : ∀ {n x}, c.isPrecolored n = true → c.color.get n = some x → x < c.k
  fixed_inj : ∀ {i j x}, c.isPrecolored i = true → c.isPrecolored j = true →
    c.color.get i = some x → c.color.get j = some x → i = j

namespace Ready

theorem color_precolored (h : Ready c) (ha : c.isPrecolored a = true) :
    c.stackColors.color.get a = c.color.get a ∧ c.stackColors.state.get a = .precolored := by
  have hs := isPrecolored_iff.1 ha
  have hnot : a ∉ c.selectStack := by
    intro e
    rw [h.coherent.lists.select, hs] at e
    cases e
  have hkeep := foldl_assignColor_of_not_mem hnot c
  exact ⟨hkeep.2, hkeep.1.trans hs⟩

/-- A node of the stack with a color is colored, with one of the colors. -/
theorem colored (h : Ready c) {x : Nat} (ha : a ∈ c.selectStack)
    (hx : c.stackColors.color.get a = some x) :
    c.stackColors.state.get a = .colored ∧ x < c.k := by
  obtain ⟨above, below, hstack⟩ := List.append_of_mem ha
  obtain ⟨cur, _, _, _, hstate, hcolor⟩ := h.coherent.lists.stackColors_at hstack
  rw [hcolor, h.uncolored a (h.coherent.lists.of_mem_selectStack ha).1] at hx
  rw [hstate]
  split at hx
  · rename_i hk
    cases hx
    exact ⟨if_pos hk, hk⟩
  · cases hx

/-- Only nodes of the stack can be spilled. -/
theorem mem_selectStack_of_spilled (h : Ready c) (ha : c.assignColors.state.get a = .spilled) :
    a ∈ c.selectStack := by
  refine Classical.byContradiction fun hnot => ?_
  rw [state_assignColors, stackColors, (foldl_assignColor_of_not_mem hnot c).1] at ha
  exact (h.coherent.working.uncolored a).2 ha

/-- A node of the stack gets another color than the nodes that it sees and that have one. -/
theorem color_ne (h : Ready c) {above below : List Nat} {x y : Nat}
    (hstack : c.selectStack = above ++ a :: below) (hsees : Sees c a b)
    (hb : c.isPrecolored b = true ∨ b ∈ above) (hx : c.stackColors.color.get a = some x)
    (hy : c.stackColors.color.get b = some y) : x ≠ y := by
  obtain ⟨cur, hassigned, _, hkeep, _, hcolor⟩ := h.coherent.lists.stackColors_at hstack
  have hnodup := hstack ▸ h.coherent.lists.nodup
  have ha : a ∈ c.selectStack := hstack ▸ List.mem_append_right _ List.mem_cons_self
  -- the other node was colored before
  have hearlier : b ∉ a :: below := by
    rcases hb with hb | hb
    · intro e
      have hmem : b ∈ c.selectStack := hstack ▸ List.mem_append_right _ e
      rw [h.coherent.lists.select, isPrecolored_iff.1 hb] at hmem
      cases hmem
    · exact fun e => (List.nodup_append.1 hnodup).2.2 b hb b e rfl
  have hstate : cur.state.get b = .colored ∨ cur.state.get b = .precolored := by
    rw [← (hkeep b hearlier).1]
    rcases hb with hb | hb
    · exact .inr (h.color_precolored hb).2
    · exact .inl (h.colored (hstack ▸ List.mem_append_left _ hb) hy).1
  rw [hcolor, h.uncolored a (h.coherent.lists.of_mem_selectStack ha).1] at hx
  split at hx
  · cases hx
    rw [(hkeep b hearlier).2] at hy
    obtain ⟨w, hw, hwb⟩ := hsees
    rintro rfl
    refine (cur.usedColors a).smallestAbsent_spec.1 ((mem_usedColors cur a _).2 ⟨w, ?_, ?_, ?_⟩)
    · rw [hassigned.neighbors]
      exact hw
    · rw [hassigned.representative, hwb]
      exact hstate
    · rw [hassigned.representative, hwb]
      exact hy
  · cases hx

/-- A node with a color is a register or was on the stack. -/
theorem of_color (h : Ready c) {x : Nat} (hx : c.stackColors.color.get a = some x) :
    c.isPrecolored a = true ∨ a ∈ c.selectStack := by
  by_cases ha : a ∈ c.selectStack
  · exact .inr ha
  · refine .inl (Classical.byContradiction fun hpre => ?_)
    have hcolor := (foldl_assignColor_of_not_mem ha c).2
    rw [stackColors, hcolor, h.uncolored a (by simpa using hpre)] at hx
    cases hx

theorem isRemoved_of_isPrecolored (ha : c.isPrecolored a = true) : c.isRemoved a = false := by
  simp [isRemoved, isPrecolored_iff.1 ha]

/-- Above means earlier. -/
theorem before_of_above {above below : List Nat} (hstack : c.selectStack = above ++ a :: below)
    (hb : b ∈ above) : Before c b a := by
  refine .inr ?_
  rw [hstack]
  exact (List.singleton_sublist.2 hb).append (List.singleton_sublist.2 List.mem_cons_self)

/-- Of two nodes of the stack one is above the other. -/
theorem above_or_above (ha : a ∈ c.selectStack) (hb : b ∈ c.selectStack) (hab : a ≠ b) :
    (∃ above below, c.selectStack = above ++ a :: below ∧ b ∈ above) ∨
      ∃ above below, c.selectStack = above ++ b :: below ∧ a ∈ above := by
  obtain ⟨above, below, hstack⟩ := List.append_of_mem ha
  rw [hstack, List.mem_append, List.mem_cons] at hb
  rcases hb with hb | hb | hb
  · exact .inl ⟨above, below, hstack, hb⟩
  · exact absurd hb.symm hab
  · obtain ⟨between, below', rfl⟩ := List.append_of_mem hb
    refine .inr ⟨above ++ a :: between, below', ?_, ?_⟩
    · rw [hstack, List.append_assoc, List.cons_append]
    · exact List.mem_append_right _ List.mem_cons_self

/-- The nodes that stand for the ends of an edge get different colors. -/
theorem color_ne_of_edge (h : Ready c) {x y : Nat} (hab : b ∈ c.edges.get a)
    (hx : c.stackColors.color.get (c.representative a) = some x)
    (hy : c.stackColors.color.get (c.representative b) = some y) : x ≠ y := by
  have hba := h.coherent.edges.symm hab
  rcases h.of_color hx with hA | hA
  · rcases h.of_color hy with hB | hB
    · -- two registers
      rw [(h.color_precolored hA).1] at hx
      rw [(h.color_precolored hB).1] at hy
      rintro rfl
      exact h.separated.apart hab (h.fixed_inj hA hB hx hy)
    · -- a register and a node of the stack
      obtain ⟨above, below, hstack⟩ := List.append_of_mem hB
      have hsees := h.separated.sees hba hB (.inl (isRemoved_of_isPrecolored hA))
      exact (h.color_ne hstack hsees (.inl hA) hy hx).symm
  · rcases h.of_color hy with hB | hB
    · obtain ⟨above, below, hstack⟩ := List.append_of_mem hA
      have hsees := h.separated.sees hab hA (.inl (isRemoved_of_isPrecolored hB))
      exact h.color_ne hstack hsees (.inl hB) hx hy
    · -- two nodes of the stack: the one that is colored later sees the other
      rcases above_or_above hA hB (h.separated.apart hab) with
        ⟨above, below, hstack, habove⟩ | ⟨above, below, hstack, habove⟩
      · have hsees := h.separated.sees hab hA (before_of_above hstack habove)
        exact h.color_ne hstack hsees (.inr habove) hx hy
      · have hsees := h.separated.sees hba hB (before_of_above hstack habove)
        exact (h.color_ne hstack hsees (.inr habove) hy hx).symm

theorem color_lt (h : Ready c) {x : Nat} (hx : c.stackColors.color.get a = some x) : x < c.k := by
  rcases h.of_color hx with ha | ha
  · rw [(h.color_precolored ha).1] at hx
    exact h.fixed_lt ha hx
  · exact (h.colored ha hx).2

end Ready

/-! ## Runs over a graph -/

section Graph

variable {m : Machine} {g : Interference} {options : AllocOptions} {avoid : TempSet}

theorem isPrecolored_ofGraph {n : Nat} {t : Temp} (hn : g.graph.nodes[n]? = some t) :
    (ofGraph g m options avoid).isPrecolored n = m.isRegister t := by
  unfold isPrecolored
  rw [ofGraph_frame.2.2.1, state_ofNodes, hn]
  cases hreg : m.isRegister t <;> simp [hreg]

theorem color_ofGraph (n : Nat) : (ofGraph g m options avoid).color.get n =
    match g.graph.nodes[n]? with
    | some t => if m.isRegister t then m.colorOf? t else none
    | none => none := by
  rw [ofGraph_frame.2.2.2.1]
  unfold ofNodes
  simp only [Table.get_ofList, List.getD_eq_getElem?_getD, List.getElem?_map, Interference.temps,
    Array.getElem?_toList]
  cases g.graph.nodes[n]? <;> rfl

/-- A state in which a run over a graph settles is ready for the assignment of colors. -/
theorem ready_of_reaches (hg : Built m g)
    (hreach : Reaches (ofGraph g m options avoid).makeWorklist c) (hdone : c.step? = none) :
    Ready c ∧ Keeps (ofGraph g m options avoid) c := by
  have hstart := start_ofGraph hg.wellFormed m options avoid
  obtain ⟨hcoherent, hsame⟩ := hstart.coherent
  have hseparated : Separated (ofGraph g m options avoid) :=
    separated_of_all_in_graph hstart.isRemoved ofGraph_frame.2.2.2.2.2 hstart.edges
  have hkeeps := hsame.keeps.trans (hcoherent.keeps_reaches hreach)
  have hk : c.k = m.colors := hkeeps.k.trans ofGraph_frame.1
  -- a register has the color of its number, if it has one
  have hfixed : ∀ {n x}, c.isPrecolored n = true → c.color.get n = some x →
      x = n ∧ x < m.colors := by
    intro n x hn hx
    rw [hkeeps.color, color_ofGraph] at hx
    cases hnode : g.graph.nodes[n]? with
    | none =>
        rw [hnode] at hx
        cases hx
    | some t =>
        rw [hkeeps.isPrecolored, isPrecolored_ofGraph hnode] at hn
        rw [hnode] at hx
        simp only [hn, if_true, Machine.colorOf?] at hx
        have hlt := (hg.isRegister_iff hnode).1 hn
        have ht : t = ⟨n⟩ := Option.some.inj (hnode.symm.trans (hg.hasRegisters n hlt))
        split at hx
        · rename_i hlow
          cases hx
          exact ⟨by rw [ht], hlow⟩
        · cases hx
  refine ⟨⟨hcoherent.reaches hreach, (hsame.separated hseparated).reaches hcoherent hreach, hdone,
    ?_, ?_, ?_⟩, hkeeps⟩
  · intro n hn
    rw [hkeeps.color, color_ofGraph]
    cases hnode : g.graph.nodes[n]? with
    | none => rfl
    | some t =>
        rw [hkeeps.isPrecolored, isPrecolored_ofGraph hnode] at hn
        simp [hn]
  · intro n x hn hx
    rw [hk]
    exact (hfixed hn hx).2
  · intro i j x hi hj hxi hxj
    exact (hfixed hi hxi).1.symm.trans (hfixed hj hxj).1

theorem node_of_temp (htemps : c.temps = g.graph.nodes) {n : Nat} (hn : n < c.size) :
    g.graph.nodes[n]? = some (c.temp n) := by
  have hlt : n < g.graph.nodes.size := htemps ▸ hn
  unfold temp
  rw [htemps, Array.getD_eq_getD_getElem?, Array.getElem?_eq_getElem hlt]
  rfl

theorem lt_size_of_node (htemps : c.temps = g.graph.nodes) {n : Nat} {t : Temp}
    (hn : g.graph.nodes[n]? = some t) : n < c.size := by
  rw [size, htemps]
  exact Interference.WellFormed.lt_of_node hn

theorem temp_eq_of_node (htemps : c.temps = g.graph.nodes) {n : Nat} {t : Temp}
    (hn : g.graph.nodes[n]? = some t) : c.temp n = t :=
  Option.some.inj ((node_of_temp htemps (lt_size_of_node htemps hn)).symm.trans hn)

theorem distinctTemps_of_temps (hg : g.WellFormed) (htemps : c.temps = g.graph.nodes) :
    DistinctTemps c := by
  intro i j hi hj hij
  exact hg.node_inj (node_of_temp htemps hi) (hij ▸ node_of_temp htemps hj)

/-- What a run tells of the nodes of its graph. -/
theorem get?_colors_of_node (hg : g.WellFormed) (hcoherent : Coherent c)
    (htemps : c.temps = g.graph.nodes) {n : Nat} {t : Temp} (hn : g.graph.nodes[n]? = some t) :
    c.assignColors.result.colors.get? t =
      if c.stackColors.state.get n = .spilled then none
      else c.stackColors.color.get (c.representative n) := by
  obtain ⟨_, hassigned⟩ := hcoherent.assigned
  have htemps' : c.assignColors.temps = g.graph.nodes := hassigned.temps.trans htemps
  have hlt := lt_size_of_node htemps' hn
  rw [← temp_eq_of_node htemps' hn, get?_colors_result (distinctTemps_of_temps hg htemps') hlt,
    outcome, state_assignColors, hcoherent.color_assignColors (hassigned.size ▸ hlt)]

/-- What a coloring of a graph must satisfy. -/
structure Proper (m : Machine) (g : Interference) (r : ColorResult) : Prop where
  /-- Every color is one of the colors. -/
  lt : ∀ {t x}, r.colors.get? t = some x → x < m.colors
  /-- Registers keep theirs. -/
  fixed : ∀ {i}, i < m.colors → r.colors.get? ⟨i⟩ = some i
  /-- The reserved registers have none. -/
  reserved : ∀ {t}, m.isReserved t = true → r.colors.get? t = none
  /-- Neighbors have different colors, however they were merged. -/
  apart : ∀ {s t x y}, g.interferes s t = true → r.colors.get? s = some x →
    r.colors.get? t = some y → x ≠ y
  /-- Only temps of the graph that are no registers are spilled. -/
  spilled : ∀ {t}, t ∈ r.spilled → t ∈ g.temps ∧ m.isRegister t = false

/-- The result of a run in a state in which it settled. -/
theorem proper_result (hg : Built m g)
    (hreach : Reaches (ofGraph g m options avoid).makeWorklist c) (hdone : c.step? = none) :
    Proper m g c.assignColors.result := by
  obtain ⟨hready, hkeeps⟩ := ready_of_reaches hg hreach hdone
  have htemps : c.temps = g.graph.nodes := hkeeps.temps.trans ofGraph_frame.2.1
  have hassigned := hready.coherent.assigned.2
  have hget := fun {n t} hn =>
    get?_colors_of_node (n := n) (t := t) hg.wellFormed hready.coherent htemps hn
  have hcolor : ∀ {n t x}, g.graph.nodes[n]? = some t →
      c.assignColors.result.colors.get? t = some x →
      c.stackColors.color.get (c.representative n) = some x := by
    intro n t x hn hx
    rw [hget hn] at hx
    split at hx
    · cases hx
    · exact hx
  -- a register has the color that it starts with
  have hregister : ∀ {i}, i < m.colors + 2 → c.assignColors.result.colors.get? ⟨i⟩ =
      m.colorOf? ⟨i⟩ := by
    intro i hi
    have hnode := hg.hasRegisters i hi
    have hpre : c.isPrecolored i = true := by
      rw [hkeeps.isPrecolored, isPrecolored_ofGraph hnode, hg.isRegister_iff hnode]
      exact hi
    have hfixed := hready.color_precolored hpre
    have hrep : c.representative i = i :=
      representative_of_not_removed (Ready.isRemoved_of_isPrecolored hpre)
    have hreg : m.isRegister ⟨i⟩ = true := Machine.isRegister_iff.2 hi
    rw [hget hnode, hfixed.2, if_neg nofun, hrep, hfixed.1, hkeeps.color, color_ofGraph, hnode]
    exact if_pos hreg
  refine { lt := ?lt, fixed := ?fixed, reserved := ?reserved, apart := ?apart, spilled := ?spilled }
  case lt =>
    intro t x hx
    obtain ⟨n, hn, ht⟩ := exists_node_of_get? hx
    have hnode := node_of_temp (hassigned.temps.trans htemps) hn
    rw [ht] at hnode
    have hlt := hready.color_lt (hcolor hnode hx)
    rwa [hkeeps.k, ofGraph_frame.1] at hlt
  case fixed =>
    intro i hi
    exact (hregister (Nat.lt_add_right 2 hi)).trans (if_pos hi)
  case reserved =>
    intro t ht
    have hlt := Machine.isRegister_iff.1 (Machine.isRegister_of_isReserved ht)
    have hge := Machine.colors_le_of_isReserved ht
    exact (hregister hlt).trans (if_neg (Nat.not_lt_of_le hge))
  case apart =>
    intro s t x y hst hx hy
    obtain ⟨i, j, hi, hj, hij⟩ := hg.wellFormed.interferes_iff.1 hst
    have hedge : j ∈ c.edges.get i := hkeeps.edges ((mem_edges_ofGraph hg.wellFormed i j).2 hij)
    exact hready.color_ne_of_edge hedge (hcolor hi hx) (hcolor hj hy)
  case spilled =>
    intro t ht
    obtain ⟨n, hn, hstate, htemp⟩ := mem_spilled_result.1 ht
    have hnode := node_of_temp (hassigned.temps.trans htemps) hn
    rw [htemp] at hnode
    refine ⟨Array.mem_toList_iff.2 (Array.mem_of_getElem? hnode), ?_⟩
    have hstack := hready.mem_selectStack_of_spilled hstate
    have hstart : (ofGraph g m options avoid).isPrecolored n = m.isRegister t :=
      isPrecolored_ofGraph hnode
    rw [← hstart, ← hkeeps.isPrecolored]
    exact (hready.coherent.lists.of_mem_selectStack hstack).1

theorem Proper.of_run (hg : Built m g) {r : ColorResult}
    (h : (ofGraph g m options avoid).run = .ok r) : Proper m g r := by
  obtain ⟨c, hreach, hdone, hrun⟩ := (start_ofGraph hg.wellFormed m options avoid).run
  cases h.symm.trans (hrun _)
  exact proper_result hg hreach hdone

/-- Every color is one of the colors, registers keep theirs, and neighbors of the graph get
different ones, however they were merged. -/
theorem run_proper (hg : Built m g) (options : AllocOptions) (avoid : TempSet) :
    ∃ r, (ofGraph g m options avoid).run = .ok r
      ∧ (∀ t x, r.colors.get? t = some x → x < m.colors)
      ∧ (∀ i, i < m.colors → r.colors.get? ⟨i⟩ = some i)
      ∧ ∀ s t x y, g.interferes s t = true → r.colors.get? s = some x → r.colors.get? t = some y →
          x ≠ y := by
  obtain ⟨c, hreach, hdone, hrun⟩ := (start_ofGraph hg.wellFormed m options avoid).run
  have hproper := proper_result hg hreach hdone
  exact ⟨c.assignColors.result, hrun _, fun t x => hproper.lt, fun i => hproper.fixed,
    fun s t x y => hproper.apart⟩

/-- A triangle of temps, two of which are the ends of a chain of copies. -/
theorem run_proper_triangle :
    let g := (((((Interference.registers .x86_64).addEdge ⟨100⟩ ⟨101⟩).addEdge ⟨101⟩ ⟨102⟩).addEdge
      ⟨102⟩ ⟨100⟩).addMove ⟨100⟩ ⟨103⟩).addMove ⟨103⟩ ⟨102⟩
    Built .x86_64 g ∧ ∃ r, (ofGraph g .x86_64 {} .empty).run = .ok r
      ∧ ∀ s t x y, g.interferes s t = true → r.colors.get? s = some x → r.colors.get? t = some y →
          x ≠ y := by
  intro g
  have hbuilt : Built .x86_64 g :=
    .addMove _ _ (.addMove _ _ (.addEdge _ _ (.addEdge _ _ (.addEdge _ _ .registers))))
  obtain ⟨r, hrun, _, _, hproper⟩ := run_proper hbuilt {} .empty
  exact ⟨hbuilt, r, hrun, hproper⟩

end Graph

end Coloring

end TreeCompiler
