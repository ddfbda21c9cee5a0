import Mathlib.Logic.Function.Iterate
import Mathlib.Logic.Relation
import Mathlib.Tactic.Ring
import TreeCompiler.Machine.TwoRegisters
import TreeCompiler.Proofs.Coloring.Proper

/-!
# Coloring termination — how long a run is, and what it cannot do

`Coloring.work` goes down with each step, and at the start it is bounded by the nodes that are no
registers and the moves, so that many steps are enough (`Coherent.steps_le`).  Pointers of merged
nodes lead to the node that stands for all of them and never back (`Aliases.exists_chainEnds`).  A
node is told that a neighbor left only while its degree counts that neighbor, so no degree goes
below zero (`Coherent.checkedStep?_eq`).
-/

namespace TreeCompiler

namespace Coloring

open Interference (Built)

variable {c d e start : Coloring} {n u v : Nat}

/-! ## The number of steps -/

/-- A number of steps leads from one state to another. -/
inductive Steps : Coloring → Nat → Coloring → Prop
  | refl (c : Coloring) : Steps c 0 c
  | cons {c d e : Coloring} {n : Nat} (hstep : c.step? = some d) (h : Steps d n e) :
      Steps c (n + 1) e

theorem Steps.snoc (h : Steps c n d) (hstep : d.step? = some e) : Steps c (n + 1) e := by
  induction h with
  | refl => exact .cons hstep (.refl e)
  | cons hfirst _ ih => exact .cons hfirst (ih hstep)

theorem Steps.reaches (h : Steps c n d) : Reaches c d := by
  induction h with
  | refl => exact .refl
  | cons hstep _ ih => exact ih.head hstep

theorem Reaches.exists_steps (h : Reaches c d) : ∃ n, Steps c n d := by
  induction h with
  | refl => exact ⟨0, .refl c⟩
  | step _ hstep ih =>
      obtain ⟨n, hn⟩ := ih
      exact ⟨n + 1, hn.snoc hstep⟩

/-- Each step does some of the work. -/
theorem Coherent.steps_le (h : Coherent c) (hsteps : Steps c n d) : n + d.work ≤ c.work := by
  induction hsteps with
  | refl => exact Nat.le_of_eq (Nat.zero_add _)
  | cons hstep _ ih =>
      have hlt := h.work_lt hstep
      have hle := ih (h.step hstep)
      omega

/-- The work is bounded by the nodes in the graph and the moves. -/
theorem work_lt_of_lists (h : Lists c) : c.work + 1 ≤ (c.openCount + 1) * (c.moves.size + 2) := by
  have hwaiting : c.waitingCount ≤ c.openCount := by
    refine List.countP_mono_left fun n _ hn => ?_
    exact (Bool.and_eq_true_iff.1 hn).1
  have hmoves := size_worklistMoves_le h
  have hproduct : (c.openCount + 1) * (c.moves.size + 2) =
      (c.moves.size + 1) * c.openCount + c.openCount + c.moves.size + 2 := by ring
  rw [hproduct, work]
  omega

section OfGraph

variable {m : Machine} {g : Interference} {options : AllocOptions} {avoid : TempSet}

/-- At the start all nodes but the registers are in the graph. -/
theorem openCount_ofGraph : (ofGraph g m options avoid).openCount =
    g.temps.countP fun t => !m.isRegister t := by
  have hnode : ∀ n, n < g.size →
      g.graph.nodes[n]? = some ((ofGraph g m options avoid).temp n) := fun n hn =>
    node_of_temp ofGraph_frame.2.1 (by rwa [size, ofGraph_frame.2.1])
  have htemps : g.temps = (List.range g.size).map (ofGraph g m options avoid).temp := by
    refine List.ext_getElem? fun n => ?_
    rw [Interference.temps, Array.getElem?_toList, List.getElem?_map]
    by_cases hn : n < g.size
    · rw [hnode n hn, List.getElem?_range hn]
      rfl
    · rw [Array.getElem?_eq_none (Nat.le_of_not_lt hn),
        List.getElem?_eq_none (by simpa using hn)]
      rfl
  have hsize : (ofGraph g m options avoid).size = g.size := by
    rw [size, ofGraph_frame.2.1]
    rfl
  rw [htemps, List.countP_map, openCount, nodes, hsize]
  refine List.countP_congr fun n hn => ?_
  rw [ofGraph_frame.2.2.1, state_ofNodes, hnode n (List.mem_range.1 hn), Function.comp_apply]
  cases hregister : m.isRegister ((ofGraph g m options avoid).temp n) <;>
    simp [hregister, NodeState.isOpen, NodeState.isListed]

theorem moves_size_le_ofGraph : (ofGraph g m options avoid).moves.size ≤ g.moves.size := by
  rw [moves_ofGraph]
  split
  · exact Nat.le_refl _
  · exact Nat.zero_le _

/-- A run over a graph is no longer than its nodes and moves allow. -/
theorem steps_lt_of_ofGraph (hg : Built m g)
    (hsteps : Steps (ofGraph g m options avoid).makeWorklist n c) :
    n + 1 ≤ ((g.temps.countP fun t => !m.isRegister t) + 1) * (g.moves.size + 2) := by
  obtain ⟨hcoherent, hsame⟩ := (start_ofGraph hg.wellFormed m options avoid).coherent
  have hsum := hcoherent.steps_le hsteps
  have hwork := work_lt_of_lists hcoherent.lists
  rw [hsame.openCount, hsame.moves, openCount_ofGraph] at hwork
  have hmoves : (ofGraph g m options avoid).moves.size ≤ g.moves.size := moves_size_le_ofGraph
  have hmono := Nat.mul_le_mul_left ((g.temps.countP fun t => !m.isRegister t) + 1)
    (Nat.add_le_add_right hmoves 2)
  omega

end OfGraph

/-! ## Chains of merges -/

/-- Where a number of pointers leads from a node. -/
def chain (c : Coloring) (n i : Nat) : Nat := c.mergedInto.get^[i] n

/-- The pointers from a node lead through different merged nodes to one that was not merged. -/
structure ChainEnds (c : Coloring) (n k : Nat) : Prop where
  merged : ∀ i, i < k → c.state.get (c.chain n i) = .coalesced
  ends : c.state.get (c.chain n k) ≠ .coalesced
  distinct : ∀ i j, i ≤ k → j ≤ k → c.chain n i = c.chain n j → i = j

theorem chain_add (c : Coloring) (n i j : Nat) : c.chain n (i + j) = c.chain (c.chain n i) j := by
  rw [chain, chain, chain, Nat.add_comm i j, Function.iterate_add_apply]

/-- A node of the chain that came up again would be followed by merged nodes only. -/
theorem chainEnds_of_merged {k : Nat}
    (hmerged : ∀ i, i < k → c.state.get (c.chain n i) = .coalesced)
    (hends : c.state.get (c.chain n k) ≠ .coalesced) : ChainEnds c n k := by
  have hne : ∀ i j, i < j → j ≤ k → c.chain n i ≠ c.chain n j := by
    intro i j hij hjk heq
    refine hends ?_
    have hagain : c.chain n (i + (k - j)) = c.chain n k := by
      rw [chain_add, heq, ← chain_add, Nat.add_sub_cancel' hjk]
    exact hagain ▸ hmerged _ (by omega)
  refine ⟨hmerged, hends, fun i j hi hj heq => ?_⟩
  rcases Nat.lt_trichotomy i j with hlt | hij | hlt
  · exact absurd heq (hne i j hlt hj)
  · exact hij
  · exact absurd heq.symm (hne j i hlt hi)

/-- Following merged nodes follows the chain as far as nodes are merged. -/
theorem exists_chain_of_representativeWithin (c : Coloring) (steps n : Nat) :
    ∃ k, k ≤ steps ∧ (∀ i, i < k → c.state.get (c.chain n i) = .coalesced) ∧
      c.chain n k = c.representativeWithin steps n := by
  induction steps generalizing n with
  | zero => exact ⟨0, Nat.le_refl _, nofun, rfl⟩
  | succ steps ih =>
      by_cases hn : c.state.get n = .coalesced
      · obtain ⟨k, hle, hmerged, hend⟩ := ih (c.mergedInto.get n)
        refine ⟨k + 1, Nat.succ_le_succ hle, fun i hi => ?_, ?_⟩
        · cases i with
          | zero => exact hn
          | succ i => exact hmerged i (Nat.lt_of_succ_lt_succ hi)
        · simp only [representativeWithin, if_pos hn]
          exact hend
      · exact ⟨0, Nat.zero_le _, nofun, (if_neg hn).symm⟩

/-- The chain from a node ends at the node that stands for it. -/
theorem Aliases.exists_chainEnds (h : Aliases c) (n : Nat) :
    ∃ k, ChainEnds c n k ∧ c.chain n k = c.representative n := by
  obtain ⟨k, -, hmerged, hend⟩ := exists_chain_of_representativeWithin c c.mergedCount n
  refine ⟨k, chainEnds_of_merged hmerged ?_, hend.trans (h.representative_eq n).symm⟩
  rw [hend]
  exact h n

/-- The pointer of a merged node. -/
def PointsTo (c : Coloring) (a b : Nat) : Prop :=
  c.state.get a = .coalesced ∧ c.mergedInto.get a = b

/-- Nodes that were merged with each other, by whatever pointers, have the same end. -/
theorem Aliases.representative_of_eqvGen {a b : Nat} (h : Aliases c)
    (hab : Relation.EqvGen c.PointsTo a b) : c.representative a = c.representative b := by
  induction hab with
  | rel a b hpoint => rw [h.representative_of_coalesced hpoint.1, hpoint.2]
  | refl a => rfl
  | symm a b _ ih => exact ih.symm
  | trans a b e _ _ ih ih' => exact ih.trans ih'

/-- In every state that a run visits the chains end. -/
theorem Start.aliases_of_visited (h : Start start) (hc : Visited start c) : Aliases c := by
  have hcoherent := h.coherent.1
  cases hc with
  | start => exact h.aliases
  | settling hreach => exact (hcoherent.reaches hreach).aliases
  | colored hreach _ =>
      have hdone := hcoherent.reaches hreach
      exact hdone.assigned.2.aliases hdone.aliases

/-- Registers stay registers in every state that a run visits. -/
theorem Start.isPrecolored_of_visited (h : Start start) (hc : Visited start c) (n : Nat) :
    c.isPrecolored n = start.isPrecolored n := by
  obtain ⟨hcoherent, hsame⟩ := h.coherent
  have hkeeps := fun {d} (hreach : Reaches start.makeWorklist d) =>
    (hsame.keeps.trans (hcoherent.keeps_reaches hreach)).isPrecolored n
  cases hc with
  | start => rfl
  | settling hreach => exact hkeeps hreach
  | colored hreach _ =>
      rw [(hcoherent.reaches hreach).assigned.2.isPrecolored]
      exact hkeeps hreach

/-! ## Degrees

The functions that tell a node that a neighbor left, as they are but without an answer where a
degree would go below zero. -/

def decrementDegree? (c : Coloring) (n : Nat) : Option Coloring :=
  if c.isPrecolored n = false ∧ c.degree.get n = 0 then none else some (c.decrementDegree n)

def simplify? (c : Coloring) (n : Nat) : Option Coloring :=
  let c := c.setState n .selectStack
  (c.adjacent n).foldlM decrementDegree? c

def exchange? (u : Nat) (c : Coloring) (t : Nat) : Option Coloring :=
  (c.addEdge t u).decrementDegree? t

def combine? (c : Coloring) (u v : Nat) : Option Coloring := do
  let c := (c.merge u v).enableMoves [v]
  let c ← (c.adjacent v).foldlM (exchange? u) c
  return if c.k ≤ c.degree.get u && c.state.get u = .freeze then c.setState u .spill else c

/-- Only a merge tells neighbors, which is the third of four cases. -/
def coalesce? (c : Coloring) (m : Nat) : Option Coloring :=
  match c.moves[m]? with
  | none => some c
  | some e => do
      let (u, v) := c.mergeEnds e
      if u = v then
        return (c.setMoveState m .coalesced).addWorkList u
      else if c.isPrecolored v || c.hasEdge u v then
        return ((c.setMoveState m .constrained).addWorkList u).addWorkList v
      else if c.canCoalesce u v then
        let c ← (c.setMoveState m .coalesced).combine? u v
        return c.addWorkList u
      else
        return c.setMoveState m .active

/-- The next step, unless a degree goes below zero in it. -/
def checkedStep? (c : Coloring) : Option (Option Coloring) :=
  match c.simplifyWorklist.min?, c.worklistMoves.min?, c.freezeWorklist.min?,
    c.spillWorklist.toList with
  | some n, _, _, _ => (c.simplify? n).map some
  | none, some m, _, _ => (c.coalesce? m).map some
  | none, none, some n, _ => some (c.freeze n)
  | none, none, none, n :: ns => some (c.selectSpill (c.bestSpill n ns))
  | none, none, none, [] => some none

section Degrees

variable {pending : List Nat} {high loose : Nat → Prop} {t m : Nat}

/-- A pending node has the neighbor that left in its degree. -/
theorem Invariant.decrementDegree?_eq (h : Invariant c (t :: pending) high loose)
    (hlt : t < c.size) (hrem : c.isRemoved t = false) :
    c.decrementDegree? t = some (c.decrementDegree t) := by
  refine if_neg fun ⟨hpre, hzero⟩ => ?_
  have hopen := NodeState.isOpen_of_isListed (h.working.isListed hlt hpre hrem)
  have hdegree := h.degrees t hopen
  rw [if_pos List.mem_cons_self, hzero] at hdegree
  omega

theorem Invariant.foldlM_decrementDegree? (h : Invariant c pending high loose)
    (hnodup : pending.Nodup) (hpending : ∀ t ∈ pending, t < c.size ∧ c.isRemoved t = false) :
    pending.foldlM Coloring.decrementDegree? c =
      some (pending.foldl Coloring.decrementDegree c) := by
  induction pending generalizing c with
  | nil => rfl
  | cons t pending ih =>
      obtain ⟨hnot, hnodup⟩ := List.nodup_cons.1 hnodup
      obtain ⟨⟨hlt, hrem⟩, hpending⟩ := List.forall_mem_cons.1 hpending
      have hsame := SameGraph.decrementDegree c t
      rw [List.foldlM_cons, h.decrementDegree?_eq hlt hrem, List.foldl_cons]
      refine ih (h.decrementDegree hnot) hnodup fun i hi => ?_
      rw [hsame.size, hsame.isRemoved]
      exact hpending i hi

theorem Invariant.foldlM_exchange? (h : Invariant c pending (· = u) loose) (hnodup : pending.Nodup)
    (hltu : u < c.size) (hru : c.isRemoved u = false) (hu : u ∉ pending)
    (hpending : ∀ t ∈ pending, t < c.size ∧ c.isRemoved t = false) :
    pending.foldlM (Coloring.exchange? u) c = some (pending.foldl (Coloring.exchange u) c) := by
  induction pending generalizing c with
  | nil => rfl
  | cons t pending ih =>
      obtain ⟨hnot, hnodup⟩ := List.nodup_cons.1 hnodup
      rw [List.mem_cons, not_or] at hu
      obtain ⟨⟨hlt, hrem⟩, hpending⟩ := List.forall_mem_cons.1 hpending
      have hfirst : exchange? u c t = some (Coloring.exchange u c t) :=
        (h.addEdge hlt hltu hrem hru).decrementDegree?_eq (by rwa [size_addEdge])
          (by rwa [isRemoved_addEdge])
      rw [List.foldlM_cons, hfirst, List.foldl_cons]
      refine ih (h.exchange (Ne.symm hu.1) hnot hltu hlt hru hrem) hnodup (by rwa [size_exchange])
        (by rwa [isRemoved_exchange]) hu.2 fun i hi => ?_
      rw [size_exchange, isRemoved_exchange]
      exact hpending i hi

theorem Coherent.simplify?_eq (h : Coherent c) (hn : c.state.get n = .simplify) :
    c.simplify? n = some (c.simplify n) := by
  have hpre := isPrecolored_of_isOpen (show (c.state.get n).isOpen = true by rw [hn]; rfl)
  have hinvariant := h.push hn
  rw [simplify?, h.adjacent_push hn, h.simplify_eq hn]
  refine hinvariant.foldlM_decrementDegree? (h.edges.nodup_adjacent n) fun t ht => ?_
  obtain ⟨hneighbor, hrem⟩ := mem_adjacent.1 ht
  have hedge := (h.edges.mem_neighbors hpre).1 hneighbor
  have hne : t ≠ n := fun heq => h.edges.irrefl n (heq ▸ hedge)
  rw [size_setState]
  refine ⟨h.edges.lt_size hedge, ?_⟩
  simpa [isRemoved, state_setState, hne] using hrem

theorem Invariant.combine?_eq (h : Invariant c [] (fun _ => False) (fun n => n = u ∨ n = v))
    (hltu : u < c.size) (hu : c.state.get u = .precolored ∨ (c.state.get u).isListed = true)
    (hv : (c.state.get v).isListed = true) (huv : u ≠ v) (hedge : c.hasEdge u v = false) :
    c.combine? u v = some (c.combine u v) := by
  obtain ⟨hready, hltu', hru, hnot, hpending⟩ := h.linked hltu hu hv huv hedge
  have hfold := hready.foldlM_exchange? (h.edges.nodup_adjacent v) hltu' hru hnot hpending
  have hadjacent : ((c.merge u v).enableMoves [v]).adjacent v = c.adjacent v := by
    rw [(enabled_enableMoves _ _).adjacent, h.adjacent_merge hv]
  rw [combine?, combine_eq]
  dsimp only
  rw [hadjacent, hfold]
  rfl

theorem Coherent.coalesce?_eq (h : Coherent c) (hm : m ∈ c.worklistMoves) :
    c.coalesce? m = some (c.coalesce m) := by
  obtain ⟨e, he⟩ := h.exists_move hm
  obtain ⟨u, v, huv⟩ : ∃ u v, c.mergeEnds e = (u, v) := ⟨_, _, rfl⟩
  have hends := h.ends he (h.isLive_of_worklist hm) huv
  rw [coalesce_eq he huv, coalesce?]
  simp only [he, huv]
  split
  · rfl
  · rename_i hne
    split
    · rfl
    · rename_i hfree
      split
      · simp only [Bool.or_eq_true, not_or, Bool.not_eq_true] at hfree
        have hcombine := (h.decide he huv .coalesced).combine?_eq (u := u) (v := v)
          (by simpa [size] using hends.lt_left)
          (by simpa using hends.stays) (by simpa using isListed_of_waits hfree.1 hends.right) hne
          (by simpa [hasEdge] using hfree.2)
        rw [hcombine]
        rfl
      · rfl

/-- No step makes a degree go below zero. -/
theorem Coherent.checkedStep?_eq (h : Coherent c) : c.checkedStep? = some c.step? := by
  unfold checkedStep? step?
  cases hs : c.simplifyWorklist.min? with
  | some n =>
      dsimp only
      rw [h.simplify?_eq ((h.lists.simplify n).1 (SortedSet.mem_of_min? hs))]
      rfl
  | none =>
      cases hm : c.worklistMoves.min? with
      | some m =>
          dsimp only
          rw [h.coalesce?_eq (SortedSet.mem_of_min? hm)]
          rfl
      | none =>
          -- nodes that give up their moves tell no neighbor
          cases c.freezeWorklist.min? <;> cases c.spillWorklist.toList <;> rfl

end Degrees

/-! ## Runs -/

/-- A run over any graph ends within a number of steps bounded by the nodes that are no registers
and the moves, the last look at empty worklists included.  In every state on the way the pointers
from any node lead to a node that was not merged without ever coming back, and to the register if
the node was merged with one; and no degree goes below zero. -/
theorem run_terminates {m : Machine} {g : Interference} (hg : Built m g) (options : AllocOptions)
    (avoid : TempSet) :
    (∀ n c, Steps (ofGraph g m options avoid).makeWorklist n c →
      n + 1 ≤ ((g.temps.countP fun t => !m.isRegister t) + 1) * (g.moves.size + 2)) ∧
    (∃ n c, Steps (ofGraph g m options avoid).makeWorklist n c ∧ c.step? = none ∧
      (ofGraph g m options avoid).run = .ok c.assignColors.result) ∧
    (∀ c, Visited (ofGraph g m options avoid) c → ∀ a, ∃ k, ChainEnds c a k ∧
      c.chain a k = c.representative a ∧
      ∀ r t, g.graph.nodes[r]? = some t → m.isRegister t = true →
        Relation.EqvGen c.PointsTo a r → c.chain a k = r) ∧
    ∀ c, Reaches (ofGraph g m options avoid).makeWorklist c → c.checkedStep? = some c.step? := by
  have hstart := start_ofGraph hg.wellFormed m options avoid
  refine ⟨fun n c => steps_lt_of_ofGraph hg, ?_, ?_, ?_⟩
  · obtain ⟨c, hreach, hdone, hrun⟩ := hstart.run
    obtain ⟨n, hn⟩ := hreach.exists_steps
    exact ⟨n, c, hn, hdone, hrun _⟩
  · intro c hc a
    have haliases := hstart.aliases_of_visited hc
    obtain ⟨k, hends, hlast⟩ := haliases.exists_chainEnds a
    refine ⟨k, hends, hlast, fun r t hr ht har => ?_⟩
    have hpre : c.isPrecolored r = true := by
      rw [hstart.isPrecolored_of_visited hc, isPrecolored_ofGraph hr, ht]
    have hself : c.representative r = r :=
      representative_of_not_removed (Ready.isRemoved_of_isPrecolored hpre)
    rw [hlast, haliases.representative_of_eqvGen har, hself]
  · exact fun c hreach => (hstart.coherent.1.reaches hreach).checkedStep?_eq

/-- Three temps, an edge, and two copies that lead to a register. -/
theorem run_terminates_copies_to_register :
    let g := (((Interference.registers .twoRegisters).addEdge ⟨100⟩ ⟨101⟩).addMove ⟨100⟩
      ⟨102⟩).addMove ⟨102⟩ ⟨0⟩
    Built .twoRegisters g ∧
      ∃ n c, Steps (ofGraph g .twoRegisters {} .empty).makeWorklist n c ∧ c.step? = none ∧
        n + 1 ≤ 16 ∧ ∀ a, ∃ k, ChainEnds c a k ∧ c.chain a k = c.representative a := by
  intro g
  have hbuilt : Built .twoRegisters g := .addMove _ _ (.addMove _ _ (.addEdge _ _ .registers))
  have hnodes : (g.temps.countP fun t => !Machine.twoRegisters.isRegister t) = 3 := by
    decide +kernel
  have hmoves : g.moves.size = 2 := by decide +kernel
  obtain ⟨hbound, ⟨n, c, hsteps, hdone, -⟩, hchains, -⟩ := run_terminates hbuilt {} .empty
  refine ⟨hbuilt, n, c, hsteps, hdone, ?_, fun a => ?_⟩
  · have hle := hbound n c hsteps
    rwa [hnodes, hmoves] at hle
  · obtain ⟨k, hends, hlast, -⟩ := hchains c (.settling hsteps.reaches) a
    exact ⟨k, hends, hlast⟩

end Coloring

end TreeCompiler
