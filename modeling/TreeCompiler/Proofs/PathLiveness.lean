import TreeCompiler.Proofs.Liveness

/-!
# PathLiveness — the live sets as paths to a use

A temp is live at a node when a path leads from the node to a use and no node before the use defines
the temp without using it.  The equations of the analysis may have many solutions in a flow graph
with cycles; the sets of the analysis are the least one, and the order of the visits does not matter
(`Liveness.analyze_path_liveness`).
-/

namespace TreeCompiler

variable {flow : FlowGraph} {t : Temp} {p : Nat}

namespace FlowGraph

/-- Control may go from node `p` through the nodes `before` to node `r`. -/
inductive Path (flow : FlowGraph) : Nat → List Nat → Nat → Prop
  | nil (p : Nat) : Path flow p [] p
  | cons {p q r : Nat} {before : List Nat} (hq : q ∈ flow.succsOf p) (h : Path flow q before r) :
      Path flow p (p :: before) r

/-- There is an instruction at `p`, and it uses the temp. -/
def UsesAt (flow : FlowGraph) (t : Temp) (p : Nat) : Prop :=
  ∃ node, flow.node? p = some node ∧ t ∈ node.uses

/-- There is an instruction at `p`, and it does not define the temp without using it. -/
def KeepsAt (flow : FlowGraph) (t : Temp) (p : Nat) : Prop :=
  ∃ node, flow.node? p = some node ∧ (t ∈ node.defs → t ∈ node.uses)

/-- A path leads from `p` to a use of the temp, and all nodes before the use keep the temp. -/
def PathToUse (flow : FlowGraph) (t : Temp) (p : Nat) : Prop :=
  ∃ before r, flow.Path p before r ∧ flow.UsesAt t r ∧ ∀ k ∈ before, flow.KeepsAt t k

theorem LiveAt.pathToUse (h : flow.LiveAt t p) : flow.PathToUse t p := by
  induction h with
  | @use p node hnode huse =>
      exact ⟨[], p, .nil p, ⟨node, hnode, huse⟩, fun k hk => absurd hk List.not_mem_nil⟩
  | @through p q node hnode hdef hq _ ih =>
      rcases ih with ⟨before, r, hpath, huse, hkeeps⟩
      have hkeep : flow.KeepsAt t p := ⟨node, hnode, fun hdef' => absurd hdef' hdef⟩
      exact ⟨p :: before, r, .cons hq hpath, huse, List.forall_mem_cons.2 ⟨hkeep, hkeeps⟩⟩

theorem PathToUse.liveAt (h : flow.PathToUse t p) : flow.LiveAt t p := by
  rcases h with ⟨before, r, hpath, huse, hkeeps⟩
  induction hpath with
  | nil p =>
      rcases huse with ⟨node, hnode, huse⟩
      exact .use hnode huse
  | @cons p q r before hq _ ih =>
      rcases List.forall_mem_cons.1 hkeeps with ⟨⟨node, hnode, hkeep⟩, hrest⟩
      -- a node that uses the temp ends the path, whether it defines the temp or not
      by_cases hused : t ∈ node.uses
      · exact .use hnode hused
      · exact .through hnode (fun hdef => hused (hkeep hdef)) hq (ih huse hrest)

theorem liveAt_iff_pathToUse : flow.LiveAt t p ↔ flow.PathToUse t p :=
  ⟨LiveAt.pathToUse, PathToUse.liveAt⟩

/-- Which temps are live into and out of each node, as the equations of the analysis have it. -/
structure Solution (flow : FlowGraph) (inn out : Nat → Temp → Prop) : Prop where
  liveIn : ∀ p node, flow.node? p = some node →
    ∀ t, inn p t ↔ t ∈ node.uses ∨ (out p t ∧ t ∉ node.defs)
  liveOut : ∀ p < flow.size, ∀ t, out p t ↔ ∃ q ∈ flow.succsOf p, inn q t

/-- What is live is in every solution. -/
theorem LiveAt.of_solution {inn out : Nat → Temp → Prop} (hsol : flow.Solution inn out)
    (h : flow.LiveAt t p) : inn p t := by
  induction h with
  | use hnode huse => exact (hsol.liveIn _ _ hnode t).2 (.inl huse)
  | through hnode hdef hq _ ih =>
      have hp := (Array.getElem?_eq_some_iff.1 hnode).1
      have hout := (hsol.liveOut _ hp t).2 ⟨_, hq, ih⟩
      exact (hsol.liveIn _ _ hnode t).2 (.inr ⟨hout, hdef⟩)

end FlowGraph

namespace LiveSets

/-- The sets of all nodes are the same. -/
def Agree (flow : FlowGraph) (live live' : LiveSets) : Prop :=
  ∀ p < flow.size, live.liveIn.get p = live'.liveIn.get p ∧
    live.liveOut.get p = live'.liveOut.get p

variable {live live' : LiveSets}

theorem Exact.mem_liveOut_iff (h : Exact flow live) (hp : p < flow.size) :
    t ∈ live.liveOut.get p ↔ ∃ q ∈ flow.succsOf p, flow.LiveAt t q :=
  ⟨h.liveOut p t, h.mem_liveOut p hp t⟩

theorem Exact.agree (h : Exact flow live) (h' : Exact flow live') : Agree flow live live' := by
  intro p hp
  refine ⟨SortedSet.ext fun t => ?_, SortedSet.ext fun t => ?_⟩
  · rw [h.liveIn, h'.liveIn]
  · rw [h.mem_liveOut_iff hp, h'.mem_liveOut_iff hp]

/-- The live temps solve the equations. -/
theorem Exact.solution (h : Exact flow live) :
    flow.Solution (fun p t => t ∈ live.liveIn.get p) (fun p t => t ∈ live.liveOut.get p) := by
  refine ⟨?_, ?_⟩
  · intro p node hnode t
    have hp := (Array.getElem?_eq_some_iff.1 hnode).1
    rw [h.liveIn, h.mem_liveOut_iff hp]
    constructor
    · intro hlive
      cases hlive with
      | use hnode' huse =>
          cases hnode.symm.trans hnode'
          exact .inl huse
      | through hnode' hdef hq hlive =>
          cases hnode.symm.trans hnode'
          exact .inr ⟨⟨_, hq, hlive⟩, hdef⟩
    · rintro (huse | ⟨⟨q, hq, hlive⟩, hdef⟩)
      · exact .use hnode huse
      · exact .through hnode hdef hq hlive
  · intro p hp t
    rw [h.mem_liveOut_iff hp]
    simp only [h.liveIn]

/-- The live temps are in every solution. -/
theorem Exact.le_solution (h : Exact flow live) {inn out : Nat → Temp → Prop}
    (hsol : flow.Solution inn out) (hp : p < flow.size) :
    (t ∈ live.liveIn.get p → inn p t) ∧ (t ∈ live.liveOut.get p → out p t) := by
  refine ⟨fun ht => ((h.liveIn p t).1 ht).of_solution hsol, fun ht => ?_⟩
  rcases h.liveOut p t ht with ⟨q, hq, hlive⟩
  exact (hsol.liveOut p hp t).2 ⟨q, hq, hlive.of_solution hsol⟩

end LiveSets

/-- The analysis of every flow graph succeeds, after at most two passes for each temp and node and
one more.  A temp is live out of a node when a path leads from a successor to a use and all nodes
before the use keep the temp; the sets solve the equations and are within every solution.  Visits
in any other order never fail: once they have nothing to change they leave the same sets, and passes
in any order that leaves no node out come to that end within the same bound. -/
theorem Liveness.analyze_path_liveness (flow : FlowGraph) : ∃ live, analyze flow = .ok live ∧
    live.passes ≤ 2 * flow.size * flow.temps.size + 1 ∧
    (∀ p < flow.size, ∀ t,
      t ∈ live.liveOut.get p ↔ ∃ q ∈ flow.succsOf p, flow.PathToUse t q) ∧
    flow.Solution (fun p t => t ∈ live.liveIn.get p) (fun p t => t ∈ live.liveOut.get p) ∧
    (∀ inn out, flow.Solution inn out → ∀ p < flow.size, ∀ t,
      (t ∈ live.liveIn.get p → inn p t) ∧ (t ∈ live.liveOut.get p → out p t)) ∧
    (∀ order, ∃ live' changed, LiveSets.visits flow order (.empty, false) = .ok (live', changed) ∧
      ((∀ p < flow.size, LiveSets.Stable flow live' p) →
        LiveSets.Agree flow live' live.toLiveSets)) ∧
    ∀ order, (∀ p < flow.size, p ∈ order) → ∃ live' passes,
      LiveSets.settleAlong flow order (2 * flow.size * flow.temps.size) 0 .empty =
        .ok (live', passes) ∧
      passes ≤ 2 * flow.size * flow.temps.size + 1 ∧
      LiveSets.Agree flow live' live.toLiveSets := by
  rcases analyze_exact flow with ⟨live, hanalyze, hpasses, hexact⟩
  refine ⟨live, hanalyze, hpasses, ?paths, hexact.solution, ?least, ?visits, ?settled⟩
  case paths =>
    intro p hp t
    simp only [hexact.mem_liveOut_iff hp, FlowGraph.liveAt_iff_pathToUse]
  case least =>
    intro inn out hsol p hp t
    exact hexact.le_solution hsol hp
  case visits =>
    intro order
    rcases LiveSets.visits_spec order LiveSets.sound_empty false with
      ⟨⟨live', changed⟩, hvisits, hsound, _⟩
    exact ⟨live', changed, hvisits, fun hstable => (hsound.exact hstable).agree hexact⟩
  case settled =>
    intro order horder
    rcases LiveSets.settleAlong_exact horder _ (Nat.le_refl _) with
      ⟨live', passes, hsettle, hbound, hexact'⟩
    exact ⟨live', passes, hsettle, hbound, hexact'.agree hexact⟩

end TreeCompiler
