import TreeCompiler.Machine.TwoRegisters
import TreeCompiler.Proofs.Conflicts
import TreeCompiler.Proofs.PathLiveness

/-!
# ConflictPaths — the interference graph of some code, read off its paths

Two temps need different registers where one is defined and a path leads on to a use of the other
one (`DefinedBefore`), unless the definition copies the other one.  The graph that is built has
these edges, the clique of the allocatable registers, and no others; its nodes and its copies are
those of the code, each once (`Interference.build_shows`).
-/

namespace TreeCompiler

open FlowGraph

variable {m : Machine} {code : List Instr} {flow : FlowGraph} {s d o t : Temp}

/-- An instruction defines `d` and does not copy `o`, which is used on a path from behind it before
it is defined anew. -/
def DefinedBefore (code : List Instr) (flow : FlowGraph) (d o : Temp) : Prop :=
  ∃ p i, code[p]? = some i ∧ d ∈ i.defs ∧ i.movePair?.map (·.1) ≠ some o ∧
    ∃ q ∈ flow.succsOf p, flow.PathToUse o q

theorem clash_iff (hflow : Of code flow) : Clash m code d o ↔
    o ≠ d ∧ (m.isReserved d = false ∧ m.isReserved o = false) ∧ DefinedBefore code flow d o := by
  -- what is live behind a place is what a path from there leads to a use of
  have hlive : ∀ p, (∃ q ∈ flow.succsOf p, flow.PathToUse o q) ↔ LiveOut code o (code.drop p) := by
    intro p
    rw [← hflow.liveBehind_iff]
    simp only [LiveBehind, liveAt_iff_pathToUse]
  constructor
  · rintro ⟨i, rest, hsuffix, hat⟩
    rcases suffix_cons_iff.1 hsuffix with ⟨p, hi, rfl⟩
    refine ⟨hat.ne, hat.notReserved, p, i, hi, hat.defined, hat.notSource, (hlive p).2 ?_⟩
    rw [drop_of_getElem? hi]
    exact hat.live
  · rintro ⟨hne, hreserved, p, i, hi, hdef, hsource, hpath⟩
    have hout := (hlive p).1 hpath
    rw [drop_of_getElem? hi] at hout
    exact ⟨i, code.drop (p + 1), suffix_cons_iff.2 ⟨p, hi, rfl⟩, hdef, hout, hne, hreserved,
      hsource⟩

namespace Interference

variable {g : Interference}

/-! ## Copies -/

/-- Source and destination of the copies. -/
def movePairs (g : Interference) : List (Temp × Temp) :=
  g.moves.toList.map fun e => (g.temp e.1, g.temp e.2)

theorem temp_of_node {n : Nat} (hn : g.graph.nodes[n]? = some t) : g.temp n = t := by
  unfold temp Digraph.node?
  rw [hn]
  rfl

theorem WellFormed.mem_movePairs_iff (hg : WellFormed g) :
    (s, d) ∈ g.movePairs ↔ g.HasMove s d := by
  unfold movePairs HasMove
  rw [List.mem_map]
  constructor
  · rintro ⟨e, he, heq⟩
    have he := Array.mem_toList_iff.1 he
    rcases WellFormed.exists_node (hg.moves e he).1 with ⟨s', hs⟩
    rcases WellFormed.exists_node (hg.moves e he).2 with ⟨d', hd⟩
    rw [temp_of_node hs, temp_of_node hd] at heq
    cases heq
    exact ⟨e, he, hs, hd⟩
  · rintro ⟨e, he, hs, hd⟩
    exact ⟨e, Array.mem_toList_iff.2 he, by rw [temp_of_node hs, temp_of_node hd]⟩

/-- Pairs of different nodes are pairs of different temps. -/
theorem WellFormed.nodup_movePairs (hg : WellFormed g) (h : g.moves.toList.Nodup) :
    g.movePairs.Nodup := by
  refine List.Nodup.map_on ?_ h
  intro e he e' he' heq
  rcases WellFormed.exists_node (hg.moves e (Array.mem_toList_iff.1 he)).1 with ⟨s, hs⟩
  rcases WellFormed.exists_node (hg.moves e (Array.mem_toList_iff.1 he)).2 with ⟨d, hd⟩
  rcases WellFormed.exists_node (hg.moves e' (Array.mem_toList_iff.1 he')).1 with ⟨s', hs'⟩
  rcases WellFormed.exists_node (hg.moves e' (Array.mem_toList_iff.1 he')).2 with ⟨d', hd'⟩
  rw [temp_of_node hs, temp_of_node hd, temp_of_node hs', temp_of_node hd'] at heq
  cases heq
  exact Prod.ext (hg.node_inj hs hs') (hg.node_inj hd hd')

theorem moves_registers : (registers m).moves = #[] := by
  refine Array.eq_empty_iff_forall_not_mem.2 fun e he => ?_
  have hlt := (grown_registers m).1.moves e he
  rcases WellFormed.exists_node hlt.1 with ⟨s, hs⟩
  rcases WellFormed.exists_node hlt.2 with ⟨d, hd⟩
  exact not_hasMove_registers s d ⟨e, he, hs, hd⟩

/-- A copy that is there already is not noted again. -/
theorem Built.nodup_moves (hg : Built m g) : g.moves.toList.Nodup := by
  induction hg with
  | registers =>
      rw [moves_registers]
      exact .nil
  | addTemp t hg ih =>
      rwa [(tempAdded hg.wellFormed t).moves]
  | addEdge a b hg ih =>
      rwa [moves_addEdge hg.wellFormed]
  | @addMove g src dst hg ih =>
      have h₁ := tempAdded hg.wellFormed src
      have h₂ := tempAdded h₁.wellFormed dst
      have hmoves : ((g.addTemp src).2.addTemp dst).2.moves = g.moves := h₂.moves.trans h₁.moves
      unfold Interference.addMove
      dsimp only
      rw [hmoves]
      split
      · rwa [hmoves]
      · rename_i hnew
        -- the copy is noted only where it is not among the others
        rw [Array.toList_push, List.nodup_append]
        refine ⟨ih, List.nodup_singleton _, ?_⟩
        rintro e he e' he' rfl
        cases List.mem_singleton.1 he'
        exact hnew (Array.contains_iff_mem.2 (Array.mem_toList_iff.1 he))

/-! ## The built graph -/

/-- What the interference graph of some code shows. -/
structure Shows (m : Machine) (code : List Instr) (flow : FlowGraph) (g : Interference) : Prop where
  nodup : g.temps.Nodup
  node : ∀ t, t ∈ g.temps ↔ t ∈ m.registers ∨ Mentions code t
  edge : ∀ a b, g.interferes a b = true ↔ a ≠ b ∧ ((a ∈ m.allocatable ∧ b ∈ m.allocatable) ∨
    (m.isReserved a = false ∧ m.isReserved b = false ∧
      (DefinedBefore code flow a b ∨ DefinedBefore code flow b a)))
  nodup_moves : g.movePairs.Nodup
  move : ∀ s d, (s, d) ∈ g.movePairs ↔
    ∃ i ∈ code, i.movePair? = some (s, d) ∧ m.isReserved s = false ∧ m.isReserved d = false

/-- Code that has a flow graph has live sets, and its interference graph shows the registers and the
temps of the code, a clique of the allocatable registers, where one temp is defined before another
one is used, and what is copied. -/
theorem build_shows (hflow : FlowGraph.build code = .ok flow) :
    ∃ live, Liveness.analyze flow = .ok live ∧ Shows m code flow (build m flow live) := by
  have hof := of_build hflow
  rcases Liveness.analyze_spec hof with ⟨live, hanalyze, _, hlive⟩
  have hportrays := portrays_build (m := m) hof hlive
  have hwell := hportrays.built.wellFormed
  refine ⟨live, hanalyze, hwell.nodup, hportrays.node, fun a b => ?edge,
    hwell.nodup_movePairs hportrays.built.nodup_moves,
    fun s d => hwell.mem_movePairs_iff.trans (hportrays.move s d)⟩
  case edge =>
    rw [hportrays.edge, clash_iff hof, clash_iff hof]
    constructor
    · rintro (⟨hne, ha, hb⟩ | ⟨hne, ⟨ha, hb⟩, hdef⟩ | ⟨hne, ⟨hb, ha⟩, hdef⟩)
      · exact ⟨hne, .inl ⟨ha, hb⟩⟩
      · exact ⟨Ne.symm hne, .inr ⟨ha, hb, .inl hdef⟩⟩
      · exact ⟨hne, .inr ⟨ha, hb, .inr hdef⟩⟩
    · rintro ⟨hne, ⟨ha, hb⟩ | ⟨ha, hb, hdef | hdef⟩⟩
      · exact .inl ⟨hne, ha, hb⟩
      · exact .inr (.inl ⟨Ne.symm hne, ⟨ha, hb⟩, hdef⟩)
      · exact .inr (.inr ⟨hne, ⟨hb, ha⟩, hdef⟩)

/-- A copy of a temp that is used later on, as its copy is. -/
theorem build_shows_copy :
    let code : List Instr := [.plain "movq $1, `d0" [⟨100⟩] [], .copy "movq `s0, `d0" ⟨101⟩ ⟨100⟩,
      .plain "" [] [⟨100⟩, ⟨101⟩]]
    ∃ flow, FlowGraph.build code = .ok flow ∧ ∃ live, Liveness.analyze flow = .ok live ∧
      Shows .twoRegisters code flow (build .twoRegisters flow live) := by
  intro code
  rcases build_isOk_iff.2 (show (labelsOf code).Nodup ∧ ∀ i ∈ code, ∀ l ∈ i.targets,
    l ∈ labelsOf code by decide) with ⟨flow, hflow⟩
  exact ⟨flow, hflow, build_shows hflow⟩

end Interference

end TreeCompiler
