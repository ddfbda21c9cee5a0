import TreeCompiler.Proofs.Conflicts
import TreeCompiler.Proofs.Coloring.Room

/-!
# Coloring outcomes — each temp is colored or spilled

A node on the select stack ends up colored or spilled, and a merged node has the color of its host.
Hosts are never spilled, so that a run gives each temp that is no register a color or spills it, and
never both (`losesNothing`).  This needs that no move names a reserved register: those have no
color to share.
-/

namespace TreeCompiler

namespace Coloring

open Interference (Built HasMove)

variable {m : Machine} {g : Interference} {options : AllocOptions} {avoid : TempSet} {c : Coloring}
  {n : Nat} {t : Temp}

/-! ## The start of a run -/

theorem not_hosts_start (hg : g.WellFormed) (m : Machine) (options : AllocOptions)
    (avoid : TempSet) (n : Nat) : ¬ Hosts (ofGraph g m options avoid).makeWorklist n := by
  have hstart := start_ofGraph hg m options avoid
  rintro ⟨w, hw, _⟩
  exact hstart.not_coalesced w ((hstart.coherent.2.state_iff rfl).1 hw)

/-- Machines have something to allocate, so that there is a color. -/
theorem colors_pos (m : Machine) : 0 < m.colors :=
  List.length_pos_iff.2 m.allocatable_ne_nil

/-- Nodes that are spilled in the end are chosen on the way. -/
theorem chosen_of_spilled (hg : Built m g)
    (hreach : Reaches (ofGraph g m options avoid).makeWorklist c) (hdone : c.step? = none)
    (hspilled : c.stackColors.state.get n = .spilled) :
    Chosen (ofGraph g m options avoid).makeWorklist n := by
  have hstart := start_ofGraph hg.wellFormed m options avoid
  rcases hstart.coherent with ⟨hcoherent, hsame⟩
  have hnone : (ofGraph g m options avoid).selectStack = [] := ofGraph_frame.2.2.2.2.2
  have hseparated : Separated (ofGraph g m options avoid).makeWorklist :=
    hsame.separated (separated_of_all_in_graph hstart.isRemoved hnone hstart.edges)
  have hk : 0 < (ofGraph g m options avoid).makeWorklist.k := by
    rw [hsame.k, ofGraph_frame.1]
    exact colors_pos m
  have haccounted : Accounted (Chosen (ofGraph g m options avoid).makeWorklist)
      (ofGraph g m options avoid).makeWorklist := by
    refine ⟨low_makeWorklist fun i hi => ?_, fun i hi => ?_⟩
    · rcases hstart.fresh i with e | e
      · cases hi.symm.trans e
      · cases hi.symm.trans e
    · rw [hsame.selectStack, hnone] at hi
      cases hi
  exact (ready_of_reaches hg hreach hdone).1.chosen_of_spilled
    (haccounted.reaches hcoherent hseparated hk hreach) hspilled

theorem Coherent.moves_reaches {d : Coloring} (h : Coherent c) (hcd : Reaches c d) :
    d.moves = c.moves := by
  induction hcd with
  | refl => rfl
  | step hreach hstep ih => exact (((h.reaches hreach).transition hstep).moves_eq).trans ih

/-- Moves of a run are moves of its graph. -/
theorem mem_moves_of_mem_ofGraph {e : Nat × Nat} (he : e ∈ (ofGraph g m options avoid).moves) :
    e ∈ g.moves := by
  rw [moves_ofGraph] at he
  split at he
  · exact he
  · simp at he

/-! ## Nodes -/

/-- A node of the stack is colored or spilled. -/
theorem Ready.stack_outcome (h : Ready c) (hn : n ∈ c.selectStack) :
    (c.stackColors.state.get n ≠ .spilled ∧ ∃ x, c.stackColors.color.get n = some x) ∨
      (c.stackColors.state.get n = .spilled ∧ c.stackColors.color.get n = none) := by
  have hpre := (h.coherent.lists.of_mem_selectStack hn).1
  rcases List.append_of_mem hn with ⟨above, below, hstack⟩
  rcases h.coherent.lists.stackColors_at hstack with ⟨cur, _, _, _, hstate, hcolor⟩
  rw [hstate, hcolor, h.uncolored n hpre]
  split
  · exact .inl ⟨by decide, _, rfl⟩
  · exact .inr ⟨rfl, rfl⟩

/-- A merged node gets no color of its own, and is not spilled either. -/
theorem Ready.not_spilled_of_coalesced (h : Ready c) (hn : c.state.get n = .coalesced) :
    c.stackColors.state.get n ≠ .spilled := by
  have hnot : n ∉ c.selectStack := by
    rw [h.coherent.lists.select, hn]
    decide
  rw [stackColors, (foldl_assignColor_of_not_mem hnot c).1, hn]
  decide

/-- When a run has settled, a node is a register, on the stack, or merged. -/
theorem Ready.state_cases (h : Ready c) (hlt : n < c.size) :
    c.isPrecolored n = true ∨ n ∈ c.selectStack ∨ c.state.get n = .coalesced := by
  have hlisted := h.coherent.not_listed h.done n
  have hsorted := h.coherent.working.sorted n hlt
  have huncolored := h.coherent.working.uncolored n
  rw [h.coherent.lists.select, isPrecolored_iff]
  cases hs : c.state.get n <;> simp_all [NodeState.isListed]

/-- No move of a graph names a reserved register. -/
def MovesAvoidReserved (m : Machine) (g : Interference) : Prop :=
  ∀ s d, g.HasMove s d → m.isReserved s = false ∧ m.isReserved d = false

/-- A host has a color. -/
theorem color_of_hosts (hg : Built m g) (hmoves : MovesAvoidReserved m g)
    (hreach : Reaches (ofGraph g m options avoid).makeWorklist c) (hdone : c.step? = none)
    (hn : Hosts c n) : n < c.size ∧ c.stackColors.state.get n ≠ .spilled ∧
      ∃ x, c.stackColors.color.get n = some x := by
  rcases ready_of_reaches hg hreach hdone with ⟨hready, hkeeps⟩
  rcases (start_ofGraph hg.wellFormed m options avoid).coherent with ⟨hcoherent, hsame⟩
  have hfresh := not_hosts_start hg.wellFormed m options avoid
  -- a host is an end of a move of the graph
  rcases hcoherent.end_of_hosts hfresh hreach hn with ⟨e, he, hend⟩
  rw [hcoherent.moves_reaches hreach, hsame.moves] at he
  have hlt := hg.wellFormed.moves e (mem_moves_of_mem_ofGraph he)
  rcases Interference.WellFormed.exists_node hlt.1 with ⟨s, hs⟩
  rcases Interference.WellFormed.exists_node hlt.2 with ⟨d, hd⟩
  have hfree := hmoves s d ⟨e, mem_moves_of_mem_ofGraph he, hs, hd⟩
  have hnode : ∃ t, g.graph.nodes[n]? = some t ∧ m.isReserved t = false := by
    rcases hend with rfl | rfl
    · exact ⟨s, hs, hfree.1⟩
    · exact ⟨d, hd, hfree.2⟩
  rcases hnode with ⟨t, ht, hreserved⟩
  have hsize : n < c.size := lt_size_of_node (hkeeps.temps.trans ofGraph_frame.2.1) ht
  refine ⟨hsize, ?_⟩
  rcases hready.state_cases hsize with hpre | hstack | hcoal
  · have hfixed := hready.color_precolored hpre
    have hreg : m.isRegister t = true :=
      (isPrecolored_ofGraph ht).symm.trans ((hkeeps.isPrecolored n).symm.trans hpre)
    have hlow : t.id < m.colors := Machine.lt_colors hreg hreserved
    refine ⟨by rw [hfixed.2]; decide, t.id, ?_⟩
    rw [hfixed.1, hkeeps.color, color_ofGraph, ht]
    simp only [hreg, if_true]
    exact if_pos hlow
  · rcases hready.stack_outcome hstack with hcolored | ⟨hspilled, _⟩
    · exact hcolored
    · have hchosen := chosen_of_spilled hg hreach hdone hspilled
      exact absurd hn (hcoherent.not_hosts_of_chosen hfresh hchosen hreach hdone)
  · rcases hn with ⟨w, _, rfl⟩
    exact absurd hcoal (hready.coherent.aliases.not_coalesced w)

/-! ## Temps -/

/-- A temp has a color or is spilled, and not both. -/
def Decided (r : ColorResult) (t : Temp) : Prop :=
  ((∃ x, r.colors.get? t = some x) ∧ t ∉ r.spilled) ∨ (r.colors.get? t = none ∧ t ∈ r.spilled)

section Settled

variable (hg : Built m g) (hreach : Reaches (ofGraph g m options avoid).makeWorklist c)
  (hdone : c.step? = none)

include hg hreach hdone

/-- The result spills the temps of the nodes that are spilled. -/
theorem mem_spilled_of_node (hn : g.graph.nodes[n]? = some t) :
    t ∈ c.assignColors.result.spilled ↔ c.stackColors.state.get n = .spilled := by
  rcases ready_of_reaches hg hreach hdone with ⟨hready, hkeeps⟩
  have htemps : c.assignColors.temps = g.graph.nodes :=
    hready.coherent.assigned.2.temps.trans (hkeeps.temps.trans ofGraph_frame.2.1)
  rw [mem_spilled_result, state_assignColors]
  constructor
  · rintro ⟨i, hi, hspilled, htemp⟩
    have hnode := node_of_temp htemps hi
    rw [htemp] at hnode
    exact hg.wellFormed.node_inj hn hnode ▸ hspilled
  · intro hspilled
    exact ⟨n, lt_size_of_node htemps hn, hspilled, temp_eq_of_node htemps hn⟩

theorem decided_of_node (hmoves : MovesAvoidReserved m g) (hn : g.graph.nodes[n]? = some t)
    (ht : m.isRegister t = false) : Decided c.assignColors.result t := by
  rcases ready_of_reaches hg hreach hdone with ⟨hready, hkeeps⟩
  have htemps : c.temps = g.graph.nodes := hkeeps.temps.trans ofGraph_frame.2.1
  have hlt := lt_size_of_node htemps hn
  unfold Decided
  rw [mem_spilled_of_node hg hreach hdone hn,
    get?_colors_of_node hg.wellFormed hready.coherent htemps hn]
  rcases hready.state_cases hlt with hpre | hstack | hcoal
  · rw [hkeeps.isPrecolored, isPrecolored_ofGraph hn, ht] at hpre
    cases hpre
  · rw [(hready.coherent.lists.of_mem_selectStack hstack).2.1]
    rcases hready.stack_outcome hstack with ⟨hspilled, x, hx⟩ | ⟨hspilled, _⟩
    · exact .inl ⟨⟨x, by rw [if_neg hspilled, hx]⟩, hspilled⟩
    · exact .inr ⟨if_pos hspilled, hspilled⟩
  · have hspilled := hready.not_spilled_of_coalesced hcoal
    rcases (color_of_hosts hg hmoves hreach hdone ⟨n, hcoal, rfl⟩).2.2 with ⟨x, hx⟩
    exact .inl ⟨⟨x, by rw [if_neg hspilled, hx]⟩, hspilled⟩

end Settled

/-- What a run makes of a graph in which no move names a reserved register: it settles, each temp
that is no register is decided, and both a merged temp and its host have a color. -/
structure LosesNothing (m : Machine) (g : Interference) (options : AllocOptions) (avoid : TempSet)
    (c : Coloring) : Prop where
  reaches : Reaches (ofGraph g m options avoid).makeWorklist c
  done : c.step? = none
  run : (ofGraph g m options avoid).run = .ok c.assignColors.result
  decided : ∀ t ∈ g.temps, m.isRegister t = false → Decided c.assignColors.result t
  merged : ∀ n, c.state.get n = .coalesced →
    ∃ x, c.assignColors.result.colors.get? (c.temp n) = some x ∧
      c.assignColors.result.colors.get? (c.temp (c.representative n)) = some x ∧
      c.temp (c.representative n) ∉ c.assignColors.result.spilled

theorem losesNothing (hg : Built m g) (hmoves : MovesAvoidReserved m g) (options : AllocOptions)
    (avoid : TempSet) : ∃ c, LosesNothing m g options avoid c := by
  rcases (start_ofGraph hg.wellFormed m options avoid).run with ⟨c, hreach, hdone, hrun⟩
  rcases ready_of_reaches hg hreach hdone with ⟨hready, hkeeps⟩
  have htemps : c.temps = g.graph.nodes := hkeeps.temps.trans ofGraph_frame.2.1
  refine ⟨c, hreach, hdone, hrun _, fun t ht hreg => ?_, fun n hcoal => ?_⟩
  · rcases Interference.mem_temps_iff.1 ht with ⟨n, hn⟩
    exact decided_of_node hg hreach hdone hmoves hn hreg
  · have hlt : n < c.size := hready.coherent.lists.lt_size n (by rw [hcoal]; decide)
    have hhost : Hosts c (c.representative n) := ⟨n, hcoal, rfl⟩
    rcases color_of_hosts hg hmoves hreach hdone hhost with ⟨hltr, hspilledr, x, hx⟩
    have hspilled := hready.not_spilled_of_coalesced hcoal
    have hnode := node_of_temp htemps hlt
    have hnoder := node_of_temp htemps hltr
    have hget := fun {n t} hn =>
      get?_colors_of_node (n := n) (t := t) hg.wellFormed hready.coherent htemps hn
    refine ⟨x, ?_, ?_, ?_⟩
    · rw [hget hnode, if_neg hspilled, hx]
    · rw [hget hnoder, if_neg hspilledr, hready.coherent.aliases.representative_idem, hx]
    · rw [mem_spilled_of_node hg hreach hdone hnoder]
      exact hspilledr

end Coloring

end TreeCompiler
