import Mathlib.Data.List.Nodup
import TreeCompiler.Proofs.FlowGraph

/-!
# ControlFlow — a flow graph is the control flow of its code, or names the first fault

The graph has a node for each instruction and an edge for each step that control may take
(`ControlFlow`).  Successors and predecessors are two views of the same edges, which every operation
on graphs keeps in step (`Digraph.Mirrored`).  Code without a graph has a label that was defined
before, or else a jump to a label that nothing defines, and the first such place is reported
(`FlowGraph.build_control_flow`).
-/

namespace TreeCompiler

/-! ## Successors and predecessors -/

namespace Digraph

variable {α : Type} {g : Digraph α}

/-- There are as many sets of successors and predecessors as nodes, and they say the same. -/
structure Mirrored (g : Digraph α) : Prop where
  succs : g.succs.size = g.size
  preds : g.preds.size = g.size
  mem_predsOf : ∀ p q, p ∈ g.predsOf q ↔ q ∈ g.succsOf p

theorem mirrored_empty : Mirrored (empty : Digraph α) where
  succs := rfl
  preds := rfl
  mem_predsOf := fun p q => by simp [empty, predsOf, succsOf, SortedSet.not_mem_empty]

theorem Mirrored.addNode (h : Mirrored g) (a : α) : Mirrored (g.addNode a).2 where
  succs := by
    rw [size_addNode, ← h.succs]
    exact Array.size_push _
  preds := by
    rw [size_addNode, ← h.preds]
    exact Array.size_push _
  mem_predsOf := by
    intro p q
    rw [predsOf_addNode, succsOf_addNode]
    exact h.mem_predsOf p q

theorem Mirrored.addEdge (h : Mirrored g) {a b : Nat} (ha : a < g.size) (hb : b < g.size) :
    Mirrored (g.addEdge a b) where
  succs := Array.size_modify.trans h.succs
  preds := Array.size_modify.trans h.preds
  mem_predsOf := by
    intro p q
    rw [mem_predsOf_addEdge (h.preds ▸ hb), mem_succsOf_addEdge (h.succs ▸ ha), h.mem_predsOf]

theorem Mirrored.addEdges (h : Mirrored g) {es : List (Nat × Nat)}
    (hes : ∀ e ∈ es, e.1 < g.size ∧ e.2 < g.size) :
    Mirrored (es.foldl (fun g e => g.addEdge e.1 e.2) g) := by
  induction es generalizing g with
  | nil => exact h
  | cons e es ih =>
      rcases List.forall_mem_cons.1 hes with ⟨he, hrest⟩
      exact ih (h.addEdge he.1 he.2) hrest

end Digraph

namespace FlowGraph

variable {code : List Instr} {flow : FlowGraph} {labels : LabelMap} {l : Label} {n p : Nat}

theorem mirrored_addNodes {g : FlowGraph} (h : g.Mirrored) (n : Nat) :
    (addNodes g n code).Mirrored := by
  induction code generalizing g n with
  | nil => exact h
  | cons i rest ih => exact ih (h.addNode _) (n + 1)

/-- All edges of a flow graph are between its nodes. -/
theorem mirrored_of_build (h : build code = .ok flow) : flow.Mirrored := by
  rcases edges_of_build h with ⟨labels, jumps, hlabels, hjumps, rfl⟩
  have hnodes : (addNodes Digraph.empty 0 code).Mirrored :=
    mirrored_addNodes Digraph.mirrored_empty 0
  have hsize : (addNodes Digraph.empty 0 code).size = code.length := by
    rw [← hnodes.succs, (succs_addNodes _ _).1]
    exact Nat.zero_add _
  refine hnodes.addEdges fun e he => ?_
  rw [hsize]
  rcases List.mem_append.1 he with hfall | hjump
  · rcases (mem_fallEdges e).1 hfall with ⟨p, i, hi, _, hp, rfl⟩
    dsimp only
    omega
  · rcases (mem_allJumpEdges hjumps e).1 hjump with ⟨p, i, hi, hp, l, hl, hlookup⟩
    have hpos := (List.getElem?_eq_some_iff.1 hi).1
    rw [lookup_of_collectLabels hlabels] at hlookup
    have hdest := (List.findIdx?_eq_some_iff_getElem.1 hlookup).1
    omega

/-! ## Control flow -/

/-- Where labels are defined once, a label stands at one instruction. -/
theorem findIdx?_carries_iff (hnodup : (labelsOf code).Nodup) :
    code.findIdx? (carries l) = some p ↔ ∃ i, code[p]? = some i ∧ i.label? = some l := by
  induction code generalizing p with
  | nil => simp
  | cons i rest ih =>
      have hrest : (labelsOf rest).Nodup :=
        ((List.sublist_cons_self i rest).filterMap Instr.label?).nodup hnodup
      rw [List.findIdx?_cons]
      by_cases hi : carries l i = true
      · have hlabel : i.label? = some l := of_decide_eq_true hi
        have hlabels : labelsOf (i :: rest) = l :: labelsOf rest := by simp [labelsOf, hlabel]
        rw [hlabels, List.nodup_cons] at hnodup
        rw [if_pos hi]
        cases p with
        | zero => simp [hlabel]
        | succ p =>
            -- a second instruction with the label would define it twice
            refine iff_of_false (by simp) ?_
            rintro ⟨j, hj, hjlabel⟩
            exact hnodup.1 (mem_labelsOf.2
              ⟨j, List.mem_of_getElem? hj, decide_eq_true hjlabel⟩)
      · have hlabel : i.label? ≠ some l := fun h => hi (decide_eq_true h)
        rw [if_neg hi]
        cases p with
        | zero => simp [hlabel]
        | succ p => simp [ih hrest]

/-- What a flow graph says of the control flow of some code. -/
structure ControlFlow (code : List Instr) (flow : FlowGraph) : Prop where
  /-- The nodes are the instructions in order. -/
  nodes : flow.nodes.toList = code.zipIdx.map fun e => describe e.1 e.2
  succ : ∀ p q, q ∈ flow.succsOf p ↔ ∃ i, code[p]? = some i ∧
    ((i.fallsThrough = true ∧ q = p + 1 ∧ q < code.length) ∨
      ∃ l ∈ i.targets, ∃ j, code[q]? = some j ∧ j.label? = some l)
  pred : ∀ p q, p ∈ flow.predsOf q ↔ q ∈ flow.succsOf p
  increasing : ∀ p, (flow.succsOf p).toList.Pairwise (· < ·) ∧
    (flow.predsOf p).toList.Pairwise (· < ·)

theorem controlFlow_of_build (h : build code = .ok flow) : ControlFlow code flow where
  nodes := (of_build h).nodes
  succ := by
    intro p q
    have hnodup := (build_isOk_iff.1 ⟨flow, h⟩).1
    rw [(of_build h).succ]
    refine exists_congr fun i => and_congr_right fun _ => or_congr ?_ ?_
    · refine and_congr_right fun _ => ?_
      exact ⟨fun ⟨hlt, hq⟩ => ⟨hq, hq ▸ hlt⟩, fun ⟨hq, hlt⟩ => ⟨hq ▸ hlt, hq⟩⟩
    · simp only [findIdx?_carries_iff hnodup]
  pred := (mirrored_of_build h).mem_predsOf
  increasing := fun p => ⟨(flow.succsOf p).increasing, (flow.predsOf p).increasing⟩

/-! ## Faults -/

/-- The first label in a list that stands there already. -/
def FirstRepeated (labels : List Label) (l : Label) : Prop :=
  ∃ before after, labels = before ++ l :: after ∧ before.Nodup ∧ l ∈ before

/-- The targets of all jumps, each with the number of its instruction. -/
def jumpsOf (code : List Instr) (n : Nat) : List (Nat × Label) :=
  (code.zipIdx n).flatMap fun e => e.1.targets.map fun l => (e.2, l)

/-- The first jump to a label that is not defined. -/
def FirstUnknown (code : List Instr) (p : Nat) (l : Label) : Prop :=
  ∃ before after, jumpsOf code 0 = before ++ (p, l) :: after ∧ l ∉ labelsOf code ∧
    ∀ e ∈ before, e.2 ∈ labelsOf code

theorem lookup_isSome_iff {known : LabelMap} :
    (known.lookup l).isSome = true ↔ l ∈ known.map Prod.fst := by
  rw [List.lookup_isSome_iff, List.mem_map]
  simp

/-- Collecting labels fails at the first one that is known or stands before. -/
theorem collectLabels_eq_error_iff {known : LabelMap} (hknown : (known.map Prod.fst).Nodup)
    {e : FlowError} : collectLabels n known code = .error e ↔ ∃ l before after,
      e = .definedTwice l ∧ labelsOf code = before ++ l :: after ∧
      (before.reverse ++ known.map Prod.fst).Nodup ∧ l ∈ before.reverse ++ known.map Prod.fst := by
  -- the labels passed so far are those that are known, the last one first
  induction code generalizing n known with
  | nil => simp [collectLabels, labelsOf]
  | cons i rest ih =>
      unfold collectLabels
      cases hi : i.label? with
      | none =>
          have hlabels : labelsOf (i :: rest) = labelsOf rest := by simp [labelsOf, hi]
          rw [hlabels]
          exact ih hknown
      | some here =>
          have hlabels : labelsOf (i :: rest) = here :: labelsOf rest := by simp [labelsOf, hi]
          -- a label goes over from those that stand before to those that are known
          have hshift : ∀ before : List Label, (here :: before).reverse ++ known.map Prod.fst =
              before.reverse ++ ((here, n) :: known).map Prod.fst := by simp
          dsimp only
          rw [hlabels]
          simp only [lookup_isSome_iff]
          by_cases hhere : here ∈ known.map Prod.fst
          · rw [if_pos hhere]
            constructor
            · intro h
              cases h
              exact ⟨here, [], labelsOf rest, rfl, rfl, hknown, hhere⟩
            · rintro ⟨l, before, after, rfl, heq, hnodup, _⟩
              cases before with
              | nil =>
                  cases heq
                  rfl
              | cons b before =>
                  rw [List.cons_append, List.cons.injEq] at heq
                  rcases heq with ⟨rfl, _⟩
                  rw [hshift] at hnodup
                  exact absurd hhere (List.nodup_cons.1 (List.nodup_append.1 hnodup).2.1).1
          · have hmore : (((here, n) :: known).map Prod.fst).Nodup :=
              List.nodup_cons.2 ⟨hhere, hknown⟩
            rw [if_neg hhere, ih hmore]
            constructor
            · rintro ⟨l, before, after, rfl, heq, hnodup, hl⟩
              rw [← hshift] at hnodup hl
              exact ⟨l, here :: before, after, rfl, congrArg (here :: ·) heq, hnodup, hl⟩
            · rintro ⟨l, before, after, rfl, heq, hnodup, hl⟩
              cases before with
              | nil =>
                  cases heq
                  exact absurd hl hhere
              | cons b before =>
                  rw [List.cons_append, List.cons.injEq] at heq
                  rcases heq with ⟨rfl, heq⟩
                  rw [hshift] at hnodup hl
                  exact ⟨l, before, after, rfl, heq, hnodup, hl⟩

theorem collectLabels_empty_eq_error_iff {e : FlowError} : collectLabels n [] code = .error e ↔
    ∃ l, e = .definedTwice l ∧ FirstRepeated (labelsOf code) l := by
  have hnone : (([] : LabelMap).map Prod.fst).Nodup := List.nodup_nil
  rw [collectLabels_eq_error_iff hnone]
  simp [FirstRepeated, List.nodup_reverse]

/-- Whether a jump leads to no known label. -/
def unknown (labels : LabelMap) (j : Nat × Label) : Bool := (labels.lookup j.2).isNone

theorem jumpEdges_eq_error_iff {ls : List Label} {e : FlowError} :
    jumpEdges labels n ls = .error e ↔ ∃ j,
      (ls.map fun l => (n, l)).find? (unknown labels) = some j ∧ e = .unknownTarget j.1 j.2 := by
  induction ls with
  | nil => simp [jumpEdges]
  | cons l ls ih =>
      unfold jumpEdges
      rw [List.map_cons, List.find?_cons]
      cases hl : labels.lookup l with
      | none =>
          have hunknown : unknown labels (n, l) = true := by simp [unknown, hl]
          simp [hunknown, eq_comm]
      | some j =>
          have hknown : unknown labels (n, l) = false := by simp [unknown, hl]
          rw [hknown, ← ih]
          exact bind_pure_eq_error_iff

theorem allJumpEdges_eq_error_iff {e : FlowError} : allJumpEdges labels n code = .error e ↔
    ∃ j, (jumpsOf code n).find? (unknown labels) = some j ∧ e = .unknownTarget j.1 j.2 := by
  induction code generalizing n with
  | nil => simp [allJumpEdges, jumpsOf]
  | cons i rest ih =>
      have hjumps : jumpsOf (i :: rest) n =
          (i.targets.map fun l => (n, l)) ++ jumpsOf rest (n + 1) := by
        simp [jumpsOf, List.zipIdx_cons]
      have hfirst : ∀ e, jumpEdges labels n i.targets = .error e ↔ _ := fun e =>
        jumpEdges_eq_error_iff
      rw [allJumpEdges_cons, hjumps, List.find?_append]
      cases hedges : jumpEdges labels n i.targets with
      | error err =>
          rcases (hfirst err).1 hedges with ⟨j, hj, rfl⟩
          simp [hj, bind, Except.bind, eq_comm]
      | ok first =>
          -- no jump of the instruction is at fault
          have hnone : (i.targets.map fun l => (n, l)).find? (unknown labels) = none := by
            refine Option.eq_none_iff_forall_ne_some.2 fun j hj => ?_
            have herror := (hfirst _).2 ⟨j, hj, rfl⟩
            rw [hedges] at herror
            cases herror
          rw [hnone, Option.none_or, ← ih]
          exact bind_pure_eq_error_iff

theorem firstUnknown_iff (hlabels : collectLabels 0 [] code = .ok labels) :
    FirstUnknown code p l ↔ (jumpsOf code 0).find? (unknown labels) = some (p, l) := by
  have hunknown : ∀ j : Nat × Label, unknown labels j = true ↔ j.2 ∉ labelsOf code := by
    intro j
    rw [← findIdx?_isSome, ← lookup_of_collectLabels hlabels, unknown, Option.isNone_iff_eq_none,
      Option.not_isSome_iff_eq_none]
  rw [List.find?_eq_some_iff_append, hunknown]
  unfold FirstUnknown
  constructor
  · rintro ⟨before, after, heq, hl, hbefore⟩
    refine ⟨hl, before, after, heq, fun j hj => ?_⟩
    rw [Bool.not_eq_true', Bool.eq_false_iff, Ne, hunknown, not_not]
    exact hbefore j hj
  · rintro ⟨hl, before, after, heq, hbefore⟩
    refine ⟨before, after, heq, hl, fun j hj => ?_⟩
    have hj := hbefore j hj
    rwa [Bool.not_eq_true', Bool.eq_false_iff, Ne, hunknown, not_not] at hj

/-- The first label that is defined again is reported, whatever else is wrong. -/
theorem build_eq_definedTwice_iff :
    build code = .error (.definedTwice l) ↔ FirstRepeated (labelsOf code) l := by
  have hrepeated : collectLabels 0 [] code = .error (.definedTwice l) ↔
      FirstRepeated (labelsOf code) l := by
    simp [collectLabels_empty_eq_error_iff]
  rw [← hrepeated]
  refine bind_eq_error_iff.trans (or_iff_left ?_)
  -- behind the labels, only a target may be at fault
  rintro ⟨labels, -, h⟩
  obtain ⟨j, -, heq⟩ := allJumpEdges_eq_error_iff.1 (bind_pure_eq_error_iff.1 h)
  cases heq

/-- Where no label is defined twice, the first jump to a label that is not defined is reported. -/
theorem build_eq_unknownTarget_iff : build code = .error (.unknownTarget p l) ↔
    (labelsOf code).Nodup ∧ FirstUnknown code p l := by
  constructor
  · intro h
    rcases bind_eq_error_iff.1 h with h | ⟨labels, hlabels, h⟩
    · -- a fault of the labels is another one
      obtain ⟨_, heq, -⟩ := collectLabels_empty_eq_error_iff.1 h
      cases heq
    · obtain ⟨j, hj, heq⟩ := allJumpEdges_eq_error_iff.1 (bind_pure_eq_error_iff.1 h)
      cases heq
      exact ⟨(collectLabels_isOk_iff.1 ⟨labels, hlabels⟩).1, (firstUnknown_iff hlabels).2 hj⟩
  · rintro ⟨hnodup, hfirst⟩
    have hcollect : ∃ labels, collectLabels 0 [] code = .ok labels :=
      collectLabels_isOk_iff.2 ⟨hnodup, fun _ _ => rfl⟩
    obtain ⟨labels, hlabels⟩ := hcollect
    have hjump := (firstUnknown_iff hlabels).1 hfirst
    exact bind_eq_error_iff.2 (.inr ⟨labels, hlabels,
      bind_pure_eq_error_iff.2 (allJumpEdges_eq_error_iff.2 ⟨(p, l), hjump, rfl⟩)⟩)

/-- Code has no flow graph exactly if a label is defined twice or a jump leads to no label of the
code; the first label that is defined again is reported, and else the first such jump.  Otherwise
the graph is the control flow of the code. -/
theorem build_control_flow (code : List Instr) :
    ((∃ e, build code = .error e) ↔
      ¬ (labelsOf code).Nodup ∨ ∃ i ∈ code, ∃ l ∈ i.targets, l ∉ labelsOf code) ∧
    (∀ l, build code = .error (.definedTwice l) ↔ FirstRepeated (labelsOf code) l) ∧
    (∀ p l, build code = .error (.unknownTarget p l) ↔
      (labelsOf code).Nodup ∧ FirstUnknown code p l) ∧
    ∀ flow, build code = .ok flow → ControlFlow code flow := by
  refine ⟨?_, fun l => build_eq_definedTwice_iff, fun p l => build_eq_unknownTarget_iff,
    fun flow => controlFlow_of_build⟩
  have hfails : (∃ e, build code = .error e) ↔ ¬ ∃ flow, build code = .ok flow := by
    cases build code <;> simp
  rw [hfails, build_isOk_iff]
  simp only [not_and_or, not_forall, exists_prop]

end FlowGraph

end TreeCompiler
