import TreeCompiler.Proofs.Renumbering.Basic
import TreeCompiler.Proofs.SpillCode

/-!
# Renumbered analysis — flow, liveness and interference under other numbers

Renumbered code has the same flow graph with renumbered nodes (`FlowGraph.build_rename`), and the
renumbered live sets (`Liveness.analyze_rename`).  Live sets are read in increasing order, which a
renumbering keeps, so the interference graph gets its nodes, edges and copies in the same order
(`Interference.renumbered_build`).
-/

namespace TreeCompiler

/-! ## Flow graphs -/

/-- What the analyses know of a renamed instruction. -/
def FlowNode.rename (f : Temp → Temp) (node : FlowNode) : FlowNode :=
  ⟨node.index, node.defs.map f, node.uses.map f, node.movePair?.map fun e => (f e.1, f e.2)⟩

theorem FlowNode.movePair?_rename (f : Temp → Temp) (node : FlowNode) :
    (node.rename f).movePair? = node.movePair?.map fun e => (f e.1, f e.2) := rfl

namespace FlowGraph

variable (f : Temp → Temp)

/-- The flow graph of renamed code. -/
def rename (flow : FlowGraph) : FlowGraph := Digraph.map (FlowNode.rename f) flow

theorem collectLabels_rename (i : Nat) (known : LabelMap) (code : List Instr) :
    collectLabels i known (code.map (Instr.rename f)) = collectLabels i known code := by
  induction code generalizing i known with
  | nil => rfl
  | cons instr rest ih =>
      rw [List.map_cons, collectLabels, collectLabels, Instr.label?_rename]
      simp only [ih]

theorem allJumpEdges_rename (labels : LabelMap) (i : Nat) (code : List Instr) :
    allJumpEdges labels i (code.map (Instr.rename f)) = allJumpEdges labels i code := by
  induction code generalizing i with
  | nil => rfl
  | cons instr rest ih =>
      rw [List.map_cons, allJumpEdges, allJumpEdges, Instr.targets_rename, ih]

theorem fallEdges_rename (i : Nat) (code : List Instr) :
    fallEdges i (code.map (Instr.rename f)) = fallEdges i code := by
  fun_induction fallEdges i code with
  | case1 i instr next rest h ih =>
      rw [← ih, List.map_cons, List.map_cons, fallEdges, Instr.fallsThrough_rename, if_pos h]
  | case2 i instr next rest h ih =>
      rw [← ih, List.map_cons, List.map_cons, fallEdges, Instr.fallsThrough_rename, if_neg h]
  | case3 code i h =>
      rcases code with _ | ⟨instr, _ | ⟨next, rest⟩⟩
      · rfl
      · rfl
      · exact absurd rfl (h instr next rest)

theorem addNodes_rename (flow : FlowGraph) (i : Nat) (code : List Instr) :
    addNodes (flow.rename f) i (code.map (Instr.rename f)) = (addNodes flow i code).rename f := by
  induction code generalizing flow i with
  | nil => rfl
  | cons instr rest ih =>
      have hnode : (⟨i, (instr.rename f).defs, (instr.rename f).uses, (instr.rename f).movePair?⟩ :
          FlowNode) = FlowNode.rename f ⟨i, instr.defs, instr.uses, instr.movePair?⟩ := by
        rw [Instr.defs_rename, Instr.uses_rename, Instr.movePair?_rename]
        rfl
      rw [List.map_cons, addNodes, addNodes, hnode]
      unfold rename
      rw [Digraph.addNode_map]
      exact ih _ (i + 1)

theorem build_rename (code : List Instr) :
    build (code.map (Instr.rename f)) = (build code).map (rename f) := by
  have hedges : ∀ (es : List (Nat × Nat)) (flow : FlowGraph),
      es.foldl (fun g e => g.addEdge e.1 e.2) (flow.rename f)
        = rename f (es.foldl (fun g e => g.addEdge e.1 e.2) flow) :=
    fun es flow => List.foldl_hom (rename f) fun g e => Digraph.addEdge_map _ g e.1 e.2
  have hnodes : addNodes Digraph.empty 0 (code.map (Instr.rename f))
      = (addNodes Digraph.empty 0 code).rename f := by
    rw [← addNodes_rename, rename, Digraph.map_empty]
  unfold build
  rw [collectLabels_rename]
  cases collectLabels 0 [] code with
  | error e => rfl
  | ok labels =>
      simp only [bind, Except.bind, allJumpEdges_rename, fallEdges_rename, hnodes, hedges]
      cases allJumpEdges labels 0 code <;> rfl

end FlowGraph

/-! ## Live sets -/

namespace LiveSets

variable (f : Renumbering)

/-- The live sets under other numbers. -/
def renumber (live : LiveSets) : LiveSets :=
  ⟨live.liveIn.map (.renumber f), live.liveOut.map (.renumber f)⟩

theorem outOf_renumber (live : LiveSets) (flow : FlowGraph) (i : Nat) :
    (live.renumber f).outOf (flow.rename f) i = (live.outOf flow i).renumber f := by
  change List.foldl _ (SortedSet.renumber f .empty) _ = _
  refine List.foldl_hom (SortedSet.renumber f) fun s j => ?_
  rw [renumber, Table.get_map, SortedSet.union_renumber]

theorem inOf_renumber (node : FlowNode) (out : TempSet) :
    inOf (node.rename f) (out.renumber f) = (inOf node out).renumber f := by
  have hdefs : ∀ t, decide (f t ∉ (node.rename f).defs) = decide (t ∉ node.defs) := fun t => by
    simp [FlowNode.rename]
  unfold inOf
  rw [SortedSet.filter_renumber f hdefs, ← SortedSet.union_renumber, ← SortedSet.ofList_renumber]
  rfl

theorem visit_renumber (flow : FlowGraph) (i : Nat) (s : LiveSets × Bool) :
    visit (flow.rename f) i (s.1.renumber f, s.2)
      = (visit flow i s).map fun s => (s.1.renumber f, s.2) := by
  obtain ⟨live, changed⟩ := s
  unfold visit
  rw [FlowGraph.rename, Digraph.node?_map]
  cases flow.node? i with
  | none => rfl
  | some node =>
      have hout : (live.renumber f).outOf (Digraph.map (FlowNode.rename f) flow) i
          = (live.outOf flow i).renumber f := outOf_renumber f live flow i
      have hin : (live.renumber f).liveIn.get i = (live.liveIn.get i).renumber f := Table.get_map ..
      have hold : (live.renumber f).liveOut.get i = (live.liveOut.get i).renumber f :=
        Table.get_map ..
      simp only [Option.map_some, hout, hin, hold, inOf_renumber, SortedSet.isSubset_renumber,
        SortedSet.size_renumber]
      split
      · rfl
      · split
        · simp only [Except.map, renumber, Table.set_map]
        · rfl

theorem pass_renumber (flow : FlowGraph) (i : Nat) (s : LiveSets × Bool) :
    pass (flow.rename f) i (s.1.renumber f, s.2)
      = (pass flow i s).map fun s => (s.1.renumber f, s.2) := by
  induction i generalizing s with
  | zero => rfl
  | succ i ih =>
      rw [pass, pass, visit_renumber]
      cases visit flow i s with
      | error e => rfl
      | ok s => exact ih s

theorem settle_renumber (flow : FlowGraph) (limit done : Nat) (live : LiveSets) :
    settle (flow.rename f) limit done (live.renumber f)
      = (settle flow limit done live).map fun r => (r.1.renumber f, r.2) := by
  induction limit generalizing done live with
  | zero =>
      rw [settle, settle]
      have hsize : (flow.rename f).size = flow.size := Digraph.size_map ..
      rw [hsize, pass_renumber f flow flow.size (live, false)]
      rcases pass flow flow.size (live, false) with e | ⟨live', _ | _⟩ <;> rfl
  | succ limit ih =>
      rw [settle, settle]
      have hsize : (flow.rename f).size = flow.size := Digraph.size_map ..
      rw [hsize, pass_renumber f flow flow.size (live, false)]
      rcases pass flow flow.size (live, false) with e | ⟨live', _ | _⟩
      · rfl
      · rfl
      · exact ih (done + 1) live'

end LiveSets

namespace Liveness

variable (f : Renumbering)

def renumber (l : Liveness) : Liveness := { l with toLiveSets := l.toLiveSets.renumber f }

theorem mentions_rename (flow : FlowGraph) : mentions (flow.rename f) = mentions flow := by
  unfold mentions
  rw [← Array.foldl_toList, ← Array.foldl_toList]
  simp [FlowGraph.rename, Digraph.map, List.foldl_map, FlowNode.rename]

theorem analyze_rename (flow : FlowGraph) :
    analyze (flow.rename f) = (analyze flow).map (renumber f) := by
  have hsize : (flow.rename f).size = flow.size := Digraph.size_map ..
  have hsettle := LiveSets.settle_renumber f flow (2 * flow.size * mentions flow) 0 .empty
  have hempty : LiveSets.renumber f .empty = .empty := by
    simp [LiveSets.renumber, LiveSets.empty, Table.constant, Table.map, SortedSet.renumber_empty]
  rw [hempty] at hsettle
  unfold analyze
  rw [hsize, mentions_rename, hsettle]
  cases LiveSets.settle flow (2 * flow.size * mentions flow) 0 .empty <;> rfl

end Liveness

/-! ## Interference graphs -/

namespace Interference

/-- The same graph, with the nodes of renumbered temps. -/
structure Renumbered (f : Renumbering) (g g' : Interference) : Prop where
  graph : g'.graph = g.graph.map f
  index : TempMap.Renumbered f g.index g'.index
  moves : g'.moves = g.moves

variable {f : Renumbering} {g g' : Interference}

/-- What is done for each member of a list is done for each renumbered one. -/
theorem Renumbered.foldl {α : Type} {h : α → α} {step step' : Interference → α → Interference}
    (hstep : ∀ {g g'} a, Renumbered f g g' → Renumbered f (step g a) (step' g' (h a)))
    (hg : Renumbered f g g') (l : List α) :
    Renumbered f (l.foldl step g) ((l.map h).foldl step' g') := by
  induction l generalizing g g' with
  | nil => exact hg
  | cons a l ih => exact ih (hstep a hg)

theorem Renumbered.addTemp (hg : Renumbered f g g') (t : Temp) :
    (g'.addTemp (f t)).1 = (g.addTemp t).1 ∧ Renumbered f (g.addTemp t).2 (g'.addTemp (f t)).2 := by
  have hnode : g'.nodeOf? (f t) = g.nodeOf? t := hg.index t
  unfold Interference.addTemp
  rw [hnode]
  cases g.nodeOf? t with
  | some n => exact ⟨rfl, hg⟩
  | none =>
      dsimp only
      rw [hg.graph, Digraph.addNode_map]
      exact ⟨rfl, rfl, hg.index.insert t _, hg.moves⟩

theorem Renumbered.addEdge (hg : Renumbered f g g') (a b : Temp) :
    Renumbered f (g.addEdge a b) (g'.addEdge (f a) (f b)) := by
  unfold Interference.addEdge
  simp only [f.eq_iff]
  split
  · exact hg
  · obtain ⟨hx, hg₁⟩ := hg.addTemp a
    obtain ⟨hy, hg₂⟩ := hg₁.addTemp b
    refine ⟨?_, hg₂.index, hg₂.moves⟩
    dsimp only
    rw [hx, hy, hg₂.graph, Digraph.addUndirected_map]

theorem Renumbered.addMove (hg : Renumbered f g g') (src dst : Temp) :
    Renumbered f (g.addMove src dst) (g'.addMove (f src) (f dst)) := by
  obtain ⟨hx, hg₁⟩ := hg.addTemp src
  obtain ⟨hy, hg₂⟩ := hg₁.addTemp dst
  unfold Interference.addMove
  dsimp only
  rw [hx, hy, hg₂.moves]
  split
  · exact hg₂
  · exact ⟨hg₂.graph, hg₂.index, rfl⟩

theorem Renumbered.addTemps (hg : Renumbered f g g') (ts : List Temp) :
    Renumbered f (g.addTemps ts) (g'.addTemps (ts.map f)) :=
  hg.foldl (fun t h => (h.addTemp t).2) ts

theorem Renumbered.addClique (hg : Renumbered f g g') (ts : List Temp) :
    Renumbered f (g.addClique ts) (g'.addClique (ts.map f)) := by
  induction ts generalizing g g' with
  | nil => exact hg
  | cons t ts ih => exact ih (hg.foldl (fun u h => h.addEdge t u) ts)

theorem renumbered_empty (f : Renumbering) : Renumbered f empty empty where
  graph := (Digraph.map_empty f).symm
  index := TempMap.renumbered_empty
  moves := rfl

theorem renumbered_registers (f : Renumbering) (m : Machine) :
    Renumbered f (registers m) (registers m) := by
  have h := ((renumbered_empty f).addTemps m.registers).addClique m.allocatable
  rwa [f.map_registers, f.map_allocatable] at h

theorem conflicts_rename (f : Renumbering) (m : Machine) (node : FlowNode) (out : TempSet)
    (d : Temp) :
    conflicts m (node.rename f) (out.renumber f) (f d) = (conflicts m node out d).map f := by
  unfold conflicts
  rw [SortedSet.toList_renumber, List.filter_map]
  congr 1
  refine List.filter_congr fun o _ => ?_
  cases hpair : node.movePair? <;> simp [FlowNode.rename, hpair]

theorem Renumbered.addNode (hg : Renumbered f g g') (m : Machine) (node : FlowNode)
    (out : TempSet) :
    Renumbered f (g.addNode m node out) (g'.addNode m (node.rename f) (out.renumber f)) := by
  have hdefs : (node.rename f).defs.filter (fun d => !m.isReserved d)
      = (node.defs.filter fun d => !m.isReserved d).map f := by
    rw [FlowNode.rename, List.filter_map]
    congr 1
    exact List.filter_congr fun d _ => by simp
  have hstep : ∀ {g g' : Interference} (d : Temp), Renumbered f g g' →
      Renumbered f ((conflicts m node out d).foldl (·.addEdge d) g)
        ((conflicts m (node.rename f) (out.renumber f) (f d)).foldl (·.addEdge (f d)) g') := by
    intro g g' d h
    rw [conflicts_rename]
    exact h.foldl (fun o h => h.addEdge d o) _
  have hedges : Renumbered f
      ((node.defs.filter fun d => !m.isReserved d).foldl
        (fun g d => (conflicts m node out d).foldl (·.addEdge d) g) g)
      (((node.defs.filter fun d => !m.isReserved d).map f).foldl
        (fun g d => (conflicts m (node.rename f) (out.renumber f) d).foldl (·.addEdge d) g) g') :=
    hg.foldl (fun d h => hstep d h) _
  unfold Interference.addNode
  rw [hdefs, FlowNode.movePair?_rename]
  cases node.movePair? with
  | none => exact hedges
  | some e =>
      simp only [Option.map_some, f.isReserved]
      split
      · exact hedges
      · exact hedges.addMove e.1 e.2

/-- Renumbered code has the renumbered interference graph. -/
theorem renumbered_build (f : Renumbering) (m : Machine) (flow : FlowGraph) (live : Liveness) :
    Renumbered f (build m flow live) (build m (flow.rename f) (live.renumber f)) := by
  have htemps : (flow.rename f).nodes.toList.flatMap (fun node => node.defs ++ node.uses)
      = (flow.nodes.toList.flatMap fun node => node.defs ++ node.uses).map f := by
    simp [FlowGraph.rename, Digraph.map, List.flatMap_map, List.map_flatMap, FlowNode.rename]
  have hnodes : (flow.rename f).nodes.toList = flow.nodes.toList.map (FlowNode.rename f) := by
    simp [FlowGraph.rename, Digraph.map]
  unfold build
  dsimp only
  rw [htemps, hnodes]
  refine ((renumbered_registers f m).addTemps _).foldl (fun node h => ?_) _
  have hout : (live.renumber f).liveOut.get (node.rename f).index
      = (live.liveOut.get node.index).renumber f := Table.get_map ..
  rw [hout]
  exact h.addNode m node _

end Interference

end TreeCompiler
