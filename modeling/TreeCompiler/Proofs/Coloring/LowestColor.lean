import Mathlib.Data.Finset.Card
import TreeCompiler.Machine.TwoRegisters
import TreeCompiler.Proofs.Coloring.Proper

/-!
# Coloring takes the lowest color — what a node of the select stack gets

When it is the turn of a node, it gets the lowest color that no neighbor shows
(`freeColor_isLeast`), where a merged neighbor shows the color of the node that stands for it.  So
it gets one of the colors if fewer than all are shown around it, and is spilled only if all of them
are (`run_takes_lowest`).
-/

namespace TreeCompiler

namespace Coloring

open Interference (Built)

variable {m : Machine} {g : Interference} {options : AllocOptions} {avoid : TempSet} {c : Coloring}
  {n x : Nat}

/-! ## Colors around a node -/

/-- The color of the node that stands for a node, if that is a register or was colored. -/
def shownColor? (c : Coloring) (w : Nat) : Option Nat :=
  if c.state.get (c.representative w) = .colored ∨
      c.state.get (c.representative w) = .precolored then
    c.color.get (c.representative w)
  else none

/-- The colors that the neighbors of a node show, each one once. -/
def takenColors (c : Coloring) (n : Nat) : Finset Nat :=
  ((c.edges.get n).toList.filterMap c.shownColor?).toFinset

theorem mem_takenColors : x ∈ c.takenColors n ↔ ∃ w ∈ c.edges.get n, c.shownColor? w = some x := by
  unfold takenColors
  rw [List.mem_toFinset, List.mem_filterMap]
  rfl

theorem shownColor?_eq_some_iff {w : Nat} : c.shownColor? w = some x ↔
    (c.state.get (c.representative w) = .colored ∨ c.state.get (c.representative w) = .precolored)
      ∧ c.color.get (c.representative w) = some x := by
  unfold shownColor?
  split
  · rename_i hstate
    exact (and_iff_right hstate).symm
  · rename_i hstate
    exact iff_of_false nofun fun h => hstate h.1

/-- A node that is no register looks at all its neighbors. -/
theorem mem_usedColors_iff (h : Edges c) (hn : c.isPrecolored n = false) :
    x ∈ (c.usedColors n).items ↔ x ∈ c.takenColors n := by
  rw [mem_usedColors, mem_takenColors]
  simp only [h.mem_neighbors hn, shownColor?_eq_some_iff]

theorem freeColor_isLeast (h : Edges c) (hn : c.isPrecolored n = false) :
    IsLeast {x | x ∉ c.takenColors n} (c.freeColor n) := by
  have hleast : IsLeast {x | x ∉ (c.usedColors n).items} (c.freeColor n) :=
    (c.usedColors n).smallestAbsent_isLeast
  simpa only [mem_usedColors_iff h hn] using hleast

theorem freeColor_le_card (h : Edges c) (hn : c.isPrecolored n = false) :
    c.freeColor n ≤ (c.takenColors n).card := by
  have hcovers : ∀ x ∈ (c.usedColors n).items, x ∈ (c.takenColors n).toList := by
    intro x hx
    exact Finset.mem_toList.2 ((mem_usedColors_iff h hn).1 hx)
  calc
    c.freeColor n ≤ (c.takenColors n).toList.length :=
          (c.usedColors n).smallestAbsent_le_length hcovers
    _ = (c.takenColors n).card := Finset.length_toList _

/-! ## Runs -/

/-- How nodes get their colors from the state in which a run over a graph settled. -/
structure TakesLowest (m : Machine) (g : Interference) (c : Coloring) : Prop where
  /-- It is the turn of the nodes in the order of the stack. -/
  top : ∀ above n below, c.selectStack = above ++ n :: below →
    (c.coloredDownTo above).selectStack = n :: below
  /-- With fewer colors around it than there are, a node gets the lowest of the others. -/
  lowest : ∀ above n below t, c.selectStack = above ++ n :: below → g.graph.nodes[n]? = some t →
    ((c.coloredDownTo above).takenColors n).card < m.colors →
    ∃ x, IsLeast {x | x < m.colors ∧ x ∉ (c.coloredDownTo above).takenColors n} x ∧
      c.assignColors.state.get n = .colored ∧ c.assignColors.color.get n = some x ∧
      c.assignColors.result.colors.get? t = some x
  /-- A node is spilled only at its turn, and only with all colors around it. -/
  spilled : ∀ n, c.assignColors.state.get n = .spilled →
    ∃ above below, c.selectStack = above ++ n :: below ∧
      ∀ x, x < m.colors → x ∈ (c.coloredDownTo above).takenColors n
  spilledTemps : ∀ t, t ∈ c.assignColors.result.spilled →
    ∃ n, g.graph.nodes[n]? = some t ∧ c.assignColors.state.get n = .spilled

namespace Ready

variable {above below : List Nat}

/-- At its turn a node has all its neighbors, and is no register. -/
theorem turn (h : Ready c) (hstack : c.selectStack = above ++ n :: below) :
    (c.coloredDownTo above).k = c.k ∧ Edges (c.coloredDownTo above) ∧
      (c.coloredDownTo above).isPrecolored n = false := by
  have hassigned : Assigned c (c.coloredDownTo above) :=
    (h.coherent.lists.foldl_assignColor_above hstack).2.1
  have hn : n ∈ c.selectStack := hstack ▸ List.mem_append_right _ List.mem_cons_self
  refine ⟨hassigned.k, hassigned.edges_part h.coherent.edges, ?_⟩
  rw [hassigned.isPrecolored]
  exact (h.coherent.lists.of_mem_selectStack hn).1

/-- A node of the stack stands for itself, so that what it gets at its turn is final. -/
theorem color_of_turn (h : Ready c) (hstack : c.selectStack = above ++ n :: below) :
    c.assignColors.state.get n = ((c.coloredDownTo above).assignColor n).state.get n ∧
      c.assignColors.color.get n = ((c.coloredDownTo above).assignColor n).color.get n := by
  have hn : n ∈ c.selectStack := hstack ▸ List.mem_append_right _ List.mem_cons_self
  obtain ⟨-, hself, hlt⟩ := h.coherent.lists.of_mem_selectStack hn
  obtain ⟨hstate, hcolor⟩ := h.coherent.lists.stackColors_of_turn hstack
  rw [state_assignColors, h.coherent.color_assignColors hlt, hself]
  exact ⟨hstate, hcolor⟩

/-- Fewer colors than there are leave a color below `k` free. -/
theorem colored_lowest (h : Ready c) (hstack : c.selectStack = above ++ n :: below)
    (hcard : ((c.coloredDownTo above).takenColors n).card < c.k) :
    ∃ x, IsLeast {x | x < c.k ∧ x ∉ (c.coloredDownTo above).takenColors n} x ∧
      c.assignColors.state.get n = .colored ∧ c.assignColors.color.get n = some x := by
  obtain ⟨hk, hedges, hpre⟩ := h.turn hstack
  obtain ⟨hstate, hcolor⟩ := h.color_of_turn hstack
  obtain ⟨hfree, hleast⟩ := freeColor_isLeast hedges hpre
  have hlt : (c.coloredDownTo above).freeColor n < c.k :=
    Nat.lt_of_le_of_lt (freeColor_le_card hedges hpre) hcard
  refine ⟨(c.coloredDownTo above).freeColor n, ⟨⟨hlt, hfree⟩, fun x hx => hleast hx.2⟩, ?_, ?_⟩
  · rw [hstate, state_assignColor, if_pos rfl, hk, if_pos hlt]
  · rw [hcolor, color_assignColor, hk, if_pos ⟨rfl, hlt⟩]

/-- A node that gets no color has all of them around it. -/
theorem all_taken (h : Ready c) (hstack : c.selectStack = above ++ n :: below)
    (hspilled : c.assignColors.state.get n = .spilled) (hx : x < c.k) :
    x ∈ (c.coloredDownTo above).takenColors n := by
  obtain ⟨hk, hedges, hpre⟩ := h.turn hstack
  rw [(h.color_of_turn hstack).1, state_assignColor, if_pos rfl, hk] at hspilled
  have hle : c.k ≤ (c.coloredDownTo above).freeColor n := by
    refine Nat.le_of_not_lt fun hlt => ?_
    rw [if_pos hlt] at hspilled
    cases hspilled
  -- a color that nobody shows would not be below the lowest of those
  refine Classical.byContradiction fun hnot => ?_
  have hleast := (freeColor_isLeast hedges hpre).2 hnot
  exact absurd hx (Nat.not_lt_of_le (Nat.le_trans hle hleast))

end Ready

theorem takesLowest_of_reaches (hg : Built m g)
    (hreach : Reaches (ofGraph g m options avoid).makeWorklist c) (hdone : c.step? = none) :
    TakesLowest m g c := by
  obtain ⟨hready, hkeeps⟩ := ready_of_reaches hg hreach hdone
  have hk : c.k = m.colors := hkeeps.k.trans ofGraph_frame.1
  have htemps' : c.assignColors.temps = g.graph.nodes :=
    hready.coherent.assigned.2.temps.trans (hkeeps.temps.trans ofGraph_frame.2.1)
  refine { top := ?top, lowest := ?lowest, spilled := ?spilled, spilledTemps := ?spilledTemps }
  case top =>
    intro above n below hstack
    exact (hready.coherent.lists.foldl_assignColor_above hstack).2.2
  case lowest =>
    intro above n below t hstack ht hcard
    rw [← hk] at hcard ⊢
    obtain ⟨x, hx, hstate, hcolor⟩ := hready.colored_lowest hstack hcard
    have hlt := lt_size_of_node htemps' ht
    refine ⟨x, hx, hstate, hcolor, ?_⟩
    rw [← temp_eq_of_node htemps' ht,
      get?_colors_result (distinctTemps_of_temps hg.wellFormed htemps') hlt, outcome, hstate,
      if_neg (by decide), hcolor]
  case spilled =>
    intro n hspilled
    obtain ⟨above, below, hstack⟩ := List.append_of_mem (hready.mem_selectStack_of_spilled hspilled)
    refine ⟨above, below, hstack, ?_⟩
    intro x hx
    exact hready.all_taken hstack hspilled (hk.symm ▸ hx)
  case spilledTemps =>
    intro t ht
    obtain ⟨n, hlt, hspilled, rfl⟩ := mem_spilled_result.1 ht
    exact ⟨n, node_of_temp htemps' hlt, hspilled⟩

/-- After any pushes and pops the search of a bag answers with the least number that is not there.
So each node of the stack gets the lowest of the colors that no neighbor shows if fewer are shown
than there are, and nodes are spilled only if all are. -/
theorem run_takes_lowest (hg : Built m g) (options : AllocOptions) (avoid : TempSet) :
    (∀ ops, IsLeast {x | x ∉ MinHeap.contents ops} (MinHeap.after ops).smallestAbsent.1) ∧
    (∃ c, Reaches (ofGraph g m options avoid).makeWorklist c ∧ c.step? = none ∧
      (ofGraph g m options avoid).run = .ok c.assignColors.result) ∧
    ∀ c, Reaches (ofGraph g m options avoid).makeWorklist c → c.step? = none →
      TakesLowest m g c := by
  refine ⟨MinHeap.smallestAbsent_after, ?_, fun c => takesLowest_of_reaches hg⟩
  obtain ⟨c, hreach, hdone, hrun⟩ := (start_ofGraph hg.wellFormed m options avoid).run
  exact ⟨c, hreach, hdone, hrun _⟩

/-- A triangle of temps and two colors: one temp has both of them around it. -/
theorem run_takes_lowest_triangle :
    let g := (((Interference.registers .twoRegisters).addEdge ⟨100⟩ ⟨101⟩).addEdge
      ⟨101⟩ ⟨102⟩).addEdge ⟨102⟩ ⟨100⟩
    Built .twoRegisters g ∧ ∃ c,
      (ofGraph g .twoRegisters {} .empty).run = .ok c.assignColors.result ∧
      TakesLowest .twoRegisters g c := by
  intro g
  have hbuilt : Built .twoRegisters g := .addEdge _ _ (.addEdge _ _ (.addEdge _ _ .registers))
  obtain ⟨_, ⟨c, hreach, hdone, hrun⟩, hlowest⟩ := run_takes_lowest hbuilt {} .empty
  exact ⟨hbuilt, c, hrun, hlowest c hreach hdone⟩

end Coloring

end TreeCompiler
