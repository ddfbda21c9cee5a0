import TreeCompiler.Proofs.Coloring.Easy

/-!
# Coloring avoided temps — temps to be spilled last

An avoided temp is chosen only when all that is left in the graph is to be avoided
(`avoid_of_bestSpill`).  What is left is then a dense set of avoided temps.  So if each avoided temp
has fewer neighbors among the registers and the avoided temps than there are colors, none of them is
ever spilled, whatever their neighbors among the other temps (`not_spilled_of_avoided`).
-/

namespace TreeCompiler

namespace Coloring

open Interference (Built)

variable {m : Machine} {g : Interference} {options : AllocOptions} {avoid : TempSet}
  {c : Coloring} {r : ColorResult} {n : Nat} {t : Temp}

/-! ## The choice of a node -/

/-- A node to be avoided is the best one only among nodes to be avoided. -/
theorem avoid_of_bestSpill {ns : List Nat} (h : c.avoid.get (c.bestSpill n ns) = true) :
    ∀ i ∈ n :: ns, c.avoid.get i = true := by
  induction ns generalizing n with
  | nil =>
      intro i hi
      rw [List.mem_singleton.1 hi]
      exact h
  | cons x ns ih =>
      have hrest := ih (n := if c.spillsBefore x n then x else n) h
      -- one of the first two nodes is better than the other one, and is to be avoided
      have hboth : c.avoid.get n = true ∧ c.avoid.get x = true := by
        have hbest := hrest _ List.mem_cons_self
        split at hbest
        · rename_i hbefore
          refine ⟨?_, hbest⟩
          cases hn : c.avoid.get n with
          | true => rfl
          | false => simp [spillsBefore, hn, hbest] at hbefore
        · rename_i hbefore
          refine ⟨hbest, ?_⟩
          cases hx : c.avoid.get x with
          | true => rfl
          | false => simp [spillsBefore, hx, hbest] at hbefore
      intro i hi
      rcases List.mem_cons.1 hi with rfl | hi
      · exact hboth.1
      · rcases List.mem_cons.1 hi with rfl | hi
        · exact hboth.2
        · exact hrest i (List.mem_cons_of_mem _ hi)

/-- When a node to be avoided is chosen, all nodes in the graph are to be avoided. -/
theorem Coherent.avoid_of_chooses (h : Coherent c) (hn : Chooses c n)
    (havoid : c.avoid.get n = true) {w : Nat} (hw : (c.state.get w).isListed = true) :
    c.avoid.get w = true := by
  rcases hn.best with ⟨first, rest, hlist, rfl⟩
  refine avoid_of_bestSpill havoid w ?_
  rw [← hlist]
  exact (h.lists.spill w).2 (h.spill_of_chooses hn hw)

theorem avoid_ofGraph (hn : g.graph.nodes[n]? = some t) :
    (ofGraph g m options avoid).avoid.get n = avoid.contains t := by
  rw [ofGraph_frame.2.2.2.2.1]
  unfold ofNodes
  simp only [Table.get_ofList, List.getD_eq_getElem?_getD, List.getElem?_map, Interference.temps,
    Array.getElem?_toList, hn]
  rfl

/-! ## Runs -/

/-- Avoided temps are not spilled if each has few neighbors among themselves and the registers. -/
theorem not_spilled_of_avoided (hg : Built m g)
    (hfew : ∀ t ∈ avoid, (neighborsAmong m g avoid.toList t).length < m.colors)
    (hrun : (ofGraph g m options avoid).run = .ok r) (ht : t ∈ avoid) : t ∉ r.spilled := by
  intro hspilled
  rcases chooses_of_spilled hg hrun hspilled with ⟨n, e, hn, he, hchooses⟩
  rcases (start_ofGraph hg.wellFormed m options avoid).coherent with ⟨hcoherent, hsame⟩
  have hlast := hcoherent.reaches he
  have havoid : e.avoid = (ofGraph g m options avoid).avoid :=
    (hcoherent.keeps_reaches he).avoid.trans hsame.avoid
  have hdense := dense_ofGraph hg.wellFormed he (hlast.dense_of_chooses hchooses)
  have hlisted : (e.state.get n).isListed = true := by
    rw [hlast.state_of_chooses hchooses]
    rfl
  have hchosen : e.avoid.get n = true := by
    rw [havoid, avoid_ofGraph hn]
    exact SortedSet.contains_iff.2 ht
  have hle : m.colors ≤ (neighborsAmong m g avoid.toList t).length := by
    refine colors_le_of_dense hg.wellFormed hdense hlisted hn fun {i u} hi hu _ => ?_
    have hall := hlast.avoid_of_chooses hchooses hchosen hi
    rw [havoid, avoid_ofGraph hu] at hall
    exact SortedSet.contains_iff.1 hall
  exact Nat.lt_irrefl _ (Nat.lt_of_lt_of_le (hfew t ht) hle)

end Coloring

end TreeCompiler
