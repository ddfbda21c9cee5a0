import TreeCompiler.Machine.TwoRegisters
import TreeCompiler.Proofs.Coloring.Outcome

/-!
# Coloring easy graphs — when nothing is spilled

If the temps of a graph can be deleted one after another, each when it has fewer neighbors left than
there are colors, then no set of nodes is dense.  So nothing is ever chosen to be spilled, with or
without merging, and whatever order the run takes (`run_spills_nothing`).
-/

namespace TreeCompiler

namespace Coloring

open Interference (Built)

variable {m : Machine} {g : Interference} {options : AllocOptions} {avoid : TempSet}
  {r : ColorResult} {A : Nat → Prop} {n : Nat} {t : Temp} {ts : List Temp}

/-- The temps that are no registers. -/
def virtualTemps (m : Machine) (g : Interference) : List Temp :=
  g.temps.filter fun t => !m.isRegister t

/-- The neighbors of a temp among the registers and the temps of a list. -/
def neighborsAmong (m : Machine) (g : Interference) (ts : List Temp) (t : Temp) : List Temp :=
  g.temps.filter fun u => g.interferes t u && (m.isRegister u || u ∈ ts)

/-- The temps of a list can be deleted in order: when its turn comes, each has fewer neighbors left
than there are colors.  Registers are never deleted. -/
inductive Deletes (m : Machine) (g : Interference) : List Temp → Prop
  | nil : Deletes m g []
  | cons {t : Temp} {rest : List Temp} (hfew : (neighborsAmong m g rest t).length < m.colors)
      (h : Deletes m g rest) : Deletes m g (t :: rest)

/-! ## Dense sets of a graph -/

/-- A node is a temp of the graph. -/
theorem node_of_dense (hg : g.WellFormed) (hA : Dense (ofGraph g m options avoid) A) (hn : A n) :
    ∃ t, g.graph.nodes[n]? = some t ∧ t ∈ virtualTemps m g := by
  have hstart := start_ofGraph hg m options avoid
  rcases hA.crowded hn with ⟨ws, _, hlength, hws⟩
  have hk : 0 < ws.length := by
    rw [ofGraph_frame.1] at hlength
    exact Nat.lt_of_lt_of_le (colors_pos m) hlength
  have hedge := (hws _ (List.getElem_mem hk)).1
  have hlt : n < (ofGraph g m options avoid).size := hstart.edges.lt_size (hstart.edges.symm hedge)
  rw [size, ofGraph_frame.2.1] at hlt
  have hnode : g.graph.nodes[n]? = some g.graph.nodes[n] := Array.getElem?_eq_getElem hlt
  have hpre := isPrecolored_of_isOpen (hA.isOpen hn)
  rw [isPrecolored_ofGraph hnode] at hpre
  refine ⟨_, hnode, List.mem_filter.2 ⟨?_, by rw [hpre]; rfl⟩⟩
  exact Interference.mem_temps_iff.2 ⟨n, hnode⟩

/-- A node of a dense set has as many neighbors among registers and temps of the set as there are
colors. -/
theorem colors_le_of_dense (hg : g.WellFormed) (hA : Dense (ofGraph g m options avoid) A) (hn : A n)
    (ht : g.graph.nodes[n]? = some t)
    (hts : ∀ {i u}, A i → g.graph.nodes[i]? = some u → u ≠ t → u ∈ ts) :
    m.colors ≤ (neighborsAmong m g ts t).length := by
  rcases hA.crowded hn with ⟨ws, hnodup, hlength, hws⟩
  rw [ofGraph_frame.1] at hlength
  have hedge : ∀ w ∈ ws, w ∈ g.graph.succsOf n := fun w hw =>
    (mem_edges_ofGraph hg n w).1 (hws w hw).1
  have hnode : ∀ w ∈ ws, g.graph.nodes[w]? = some (g.temp w) := by
    intro w hw
    rcases Interference.WellFormed.exists_node (hg.lt_size (hedge w hw)) with ⟨u, hu⟩
    unfold Interference.temp Digraph.node?
    rw [hu]
    rfl
  -- the neighbors are different nodes, and so different temps
  have hmap : (ws.map g.temp).Nodup := by
    refine List.pairwise_map.2 (hnodup.imp_of_mem fun {i j} hi hj hij heq => hij ?_)
    exact hg.node_inj (hnode i hi) (heq ▸ hnode j hj)
  have hsub : ws.map g.temp ⊆ neighborsAmong m g ts t := by
    intro u hu
    rcases List.mem_map.1 hu with ⟨w, hw, rfl⟩
    have hinterferes : g.interferes t (g.temp w) = true :=
      hg.interferes_iff.2 ⟨n, w, ht, hnode w hw, hedge w hw⟩
    refine List.mem_filter.2 ⟨Interference.mem_temps_iff.2 ⟨w, hnode w hw⟩, ?_⟩
    rw [hinterferes, Bool.true_and, Bool.or_eq_true, decide_eq_true_eq]
    rcases (hws w hw).2 with hpre | hmem
    · exact .inl ((isPrecolored_ofGraph (hnode w hw)).symm.trans hpre)
    · refine .inr (hts hmem (hnode w hw) fun heq => ?_)
      have hwn : w = n := hg.node_inj (hnode w hw) (heq ▸ ht)
      exact hg.irrefl n (hwn ▸ hedge w hw)
  have hle := hmap.length_le_of_subset hsub
  rw [List.length_map] at hle
  exact Nat.le_trans hlength hle

/-- Deleting temps never reaches a dense set: its first member would have too many neighbors. -/
theorem Deletes.not_dense (h : Deletes m g ts) (hg : g.WellFormed)
    (hA : Dense (ofGraph g m options avoid) A)
    (hts : ∀ {i u}, A i → g.graph.nodes[i]? = some u → u ∈ ts) : ¬ A n := by
  induction h with
  | nil =>
      intro hn
      rcases node_of_dense hg hA hn with ⟨t, ht, _⟩
      cases hts hn ht
  | @cons t rest hfew _ ih =>
      have hfirst : ∀ {i}, A i → g.graph.nodes[i]? ≠ some t := by
        intro i hi ht
        have hle := colors_le_of_dense hg hA hi ht fun {j u} hj hu hne =>
          (List.mem_cons.1 (hts hj hu)).resolve_left hne
        exact Nat.lt_irrefl _ (Nat.lt_of_lt_of_le hfew hle)
      refine ih fun {i u} hi hu => ?_
      rcases List.mem_cons.1 (hts hi hu) with rfl | hmem
      · exact absurd hu (hfirst hi)
      · exact hmem

/-! ## Runs -/

/-- A set that is dense at some point of a run is dense in the graph. -/
theorem dense_ofGraph (hg : g.WellFormed) {c : Coloring}
    (hreach : Reaches (ofGraph g m options avoid).makeWorklist c) (hA : Dense c A) :
    Dense (ofGraph g m options avoid) A := by
  rcases (start_ofGraph hg m options avoid).coherent with ⟨hcoherent, hsame⟩
  exact hsame.dense (hcoherent.dense_reaches hreach hA)

/-- Temps that are spilled were chosen on the way. -/
theorem chooses_of_spilled (hg : Built m g) (hrun : (ofGraph g m options avoid).run = .ok r)
    (ht : t ∈ r.spilled) : ∃ n e, g.graph.nodes[n]? = some t ∧
      Reaches (ofGraph g m options avoid).makeWorklist e ∧ Chooses e n := by
  rcases (start_ofGraph hg.wellFormed m options avoid).run with ⟨c, hreach, hdone, hsettled⟩
  cases hrun.symm.trans (hsettled _)
  rcases ready_of_reaches hg hreach hdone with ⟨hready, hkeeps⟩
  have htemps : c.assignColors.temps = g.graph.nodes :=
    hready.coherent.assigned.2.temps.trans (hkeeps.temps.trans ofGraph_frame.2.1)
  rcases mem_spilled_result.1 ht with ⟨n, hlt, hspilled, rfl⟩
  rw [state_assignColors] at hspilled
  rcases chosen_of_spilled hg hreach hdone hspilled with ⟨e, he, hchooses⟩
  exact ⟨n, e, node_of_temp htemps hlt, he, hchooses⟩

/-- A run over a graph whose temps can be deleted one after another spills nothing. -/
theorem run_spills_nothing (hg : Built m g) {order : List Temp}
    (horder : order.Perm (virtualTemps m g)) (hdeletes : Deletes m g order)
    (options : AllocOptions) (avoid : TempSet) :
    ∃ r, (ofGraph g m options avoid).run = .ok r ∧ r.spilled = .empty := by
  rcases (start_ofGraph hg.wellFormed m options avoid).run with ⟨c, _, _, hrun⟩
  refine ⟨c.assignColors.result, hrun _, SortedSet.ext fun t => iff_of_false ?_ ?_⟩
  · intro ht
    rcases chooses_of_spilled hg (hrun _) ht with ⟨n, e, _, he, hchooses⟩
    have hcoherent := (start_ofGraph hg.wellFormed m options avoid).coherent.1.reaches he
    have hA := dense_ofGraph hg.wellFormed he (hcoherent.dense_of_chooses hchooses)
    refine hdeletes.not_dense (n := n) hg.wellFormed hA (fun {i u} hi hu => ?_) ?_
    · rcases node_of_dense hg.wellFormed hA hi with ⟨u', hu', hmem⟩
      cases hu.symm.trans hu'
      exact horder.mem_iff.2 hmem
    · rw [hcoherent.state_of_chooses hchooses]
      rfl
  · exact SortedSet.not_mem_empty t

/-- A path of temps with copies between its ends and to a register: some temps have as many
neighbors as there are colors, but the ends can be deleted first. -/
theorem run_spills_nothing_path :
    let g := (((((Interference.registers .twoRegisters).addEdge ⟨100⟩ ⟨101⟩).addEdge ⟨101⟩
      ⟨102⟩).addEdge ⟨102⟩ ⟨103⟩).addMove ⟨100⟩ ⟨103⟩).addMove ⟨0⟩ ⟨102⟩
    (neighborsAmong .twoRegisters g g.temps ⟨101⟩).length = Machine.twoRegisters.colors ∧
      ∃ r, (ofGraph g .twoRegisters {} .empty).run = .ok r ∧ r.spilled = .empty := by
  intro g
  have hbuilt : Built .twoRegisters g :=
    .addMove _ _ (.addMove _ _ (.addEdge _ _ (.addEdge _ _ (.addEdge _ _ .registers))))
  have hdeletes : Deletes .twoRegisters g [⟨100⟩, ⟨101⟩, ⟨102⟩, ⟨103⟩] := by
    refine .cons ?_ (.cons ?_ (.cons ?_ (.cons ?_ .nil)))
    all_goals decide +kernel
  have hperm : List.Perm [⟨100⟩, ⟨101⟩, ⟨102⟩, ⟨103⟩] (virtualTemps .twoRegisters g) := by
    decide +kernel
  exact ⟨by decide +kernel, run_spills_nothing hbuilt hperm hdeletes {} .empty⟩

end Coloring

end TreeCompiler
