import TreeCompiler.FlowGraph
import TreeCompiler.Proofs.Failing

/-!
# FlowGraph — the flow graph of a list is its control flow

Control is at a rest of the code: it goes on behind an instruction that falls through, or to the
rest that starts at a label (`seek`).  A flow graph can be built when no label is defined twice and
all targets are defined (`build_isOk_iff`), and its edges are then the pairs of such places
(`FlowGraph.Of`).
-/

namespace TreeCompiler

namespace FlowGraph

variable {code here dest : List Instr} {flow : FlowGraph} {l : Label}

/-! ## Labels -/

/-- Whether an instruction carries a label. -/
def carries (l : Label) (i : Instr) : Bool := i.label? = some l

/-- The labels of some code. -/
def labelsOf (code : List Instr) : List Label := code.filterMap Instr.label?

/-- The rest of the code from a label on. -/
def seek (l : Label) : List Instr → Option (List Instr)
  | [] => none
  | i :: rest => if carries l i then some (i :: rest) else seek l rest

/-- Control goes from one rest of the code to another in one step. -/
inductive Next (code : List Instr) : List Instr → List Instr → Prop
  | fall {i : Instr} {rest : List Instr} (h : i.fallsThrough = true) : Next code (i :: rest) rest
  | jump {i : Instr} {rest dest : List Instr} {l : Label} (hl : l ∈ i.targets)
      (hseek : seek l code = some dest) : Next code (i :: rest) dest

theorem mem_labelsOf : l ∈ labelsOf code ↔ ∃ i ∈ code, carries l i = true := by
  simp [labelsOf, carries]

theorem seek_eq (l : Label) (code : List Instr) :
    seek l code = (code.findIdx? (carries l)).map code.drop := by
  induction code with
  | nil => rfl
  | cons i rest ih =>
      unfold seek
      rw [List.findIdx?_cons]
      split
      · rfl
      · rw [ih, Option.map_map]
        rfl

theorem findIdx?_isSome : (code.findIdx? (carries l)).isSome = true ↔ l ∈ labelsOf code := by
  rw [mem_labelsOf, List.findIdx?_isSome, List.any_eq_true]

/-- What the labels of some code are mapped to. -/
theorem lookup_collectLabels {n : Nat} {known labels : LabelMap}
    (h : collectLabels n known code = .ok labels) (l : Label) :
    labels.lookup l = (known.lookup l).or ((code.findIdx? (carries l)).map (· + n)) := by
  induction code generalizing n known with
  | nil =>
      cases h
      simp
  | cons i rest ih =>
      unfold collectLabels at h
      rw [List.findIdx?_cons]
      -- a position in the rest counts from the instruction behind the first one
      have hshift : (Option.map (· + 1) (rest.findIdx? (carries l))).map (· + n)
          = (rest.findIdx? (carries l)).map (· + (n + 1)) := by
        rw [Option.map_map]
        refine congrArg (fun f => Option.map f _) (funext fun j => ?_)
        simp only [Function.comp]
        omega
      cases hl : i.label? with
      | none =>
          rw [hl] at h
          rw [if_neg (by simp [carries, hl]), hshift]
          exact ih h
      | some l' =>
          rw [hl] at h
          dsimp only at h
          split at h
          · cases h
          · rename_i hnew
            rw [ih h, List.lookup_cons]
            by_cases hll : l = l'
            · subst hll
              have hnone : known.lookup l = none := Option.not_isSome_iff_eq_none.1 hnew
              simp [carries, hl, hnone]
            · have hbeq : (l == l') = false := by simpa using hll
              rw [hbeq, if_neg (by simp [carries, hl, Ne.symm hll]), hshift]

/-- In the map of all labels, a label is at its first instruction. -/
theorem lookup_of_collectLabels {labels : LabelMap} (h : collectLabels 0 [] code = .ok labels)
    (l : Label) : labels.lookup l = code.findIdx? (carries l) := by
  rw [lookup_collectLabels h l]
  simp

theorem lookup_cons_eq_none_iff {known : LabelMap} {l l' : Label} {n : Nat} :
    ((l', n) :: known).lookup l = none ↔ l ≠ l' ∧ known.lookup l = none := by
  rw [List.lookup_cons]
  by_cases h : l = l'
  · simp [h]
  · simp [h, beq_eq_false_iff_ne.2 h]

/-- Labels can be collected when none is defined twice. -/
theorem collectLabels_isOk_iff {n : Nat} {known : LabelMap} :
    (∃ labels, collectLabels n known code = .ok labels) ↔
      (labelsOf code).Nodup ∧ ∀ l ∈ labelsOf code, known.lookup l = none := by
  induction code generalizing n known with
  | nil => simp [collectLabels, labelsOf]
  | cons i rest ih =>
      unfold collectLabels
      cases hl : i.label? with
      | none =>
          have hlabels : labelsOf (i :: rest) = labelsOf rest := by simp [labelsOf, hl]
          rw [hlabels]
          exact ih
      | some l' =>
          have hlabels : labelsOf (i :: rest) = l' :: labelsOf rest := by simp [labelsOf, hl]
          dsimp only
          rw [hlabels, List.nodup_cons]
          by_cases hknown : (known.lookup l').isSome = true
          · rw [if_pos hknown]
            refine iff_of_false (by simp) ?_
            rintro ⟨_, hnone⟩
            rw [hnone l' List.mem_cons_self] at hknown
            cases hknown
          · rw [if_neg hknown, ih]
            have hnone : known.lookup l' = none := Option.not_isSome_iff_eq_none.1 hknown
            simp only [lookup_cons_eq_none_iff, List.forall_mem_cons]
            constructor
            · rintro ⟨hnodup, hnew⟩
              exact ⟨⟨fun hmem => (hnew l' hmem).1 rfl, hnodup⟩, hnone, fun l hl => (hnew l hl).2⟩
            · rintro ⟨⟨hnot, hnodup⟩, -, hnew⟩
              exact ⟨hnodup, fun l hl => ⟨fun heq => hnot (heq ▸ hl), hnew l hl⟩⟩

/-! ## Edges -/

theorem mem_jumpEdges {labels : LabelMap} {n : Nat} {ls : List Label} {es : List (Nat × Nat)}
    (h : jumpEdges labels n ls = .ok es) (e : Nat × Nat) :
    e ∈ es ↔ e.1 = n ∧ ∃ l ∈ ls, labels.lookup l = some e.2 := by
  induction ls generalizing es with
  | nil =>
      cases h
      simp
  | cons l ls ih =>
      unfold jumpEdges at h
      split at h
      · cases h
      · rename_i j hj
        obtain ⟨rest, hrest, h⟩ := bind_eq_ok_iff.1 h
        cases h
        rw [List.mem_cons, ih hrest]
        constructor
        · rintro (rfl | ⟨h₁, l', hl', h₂⟩)
          · exact ⟨rfl, l, List.mem_cons_self, hj⟩
          · exact ⟨h₁, l', List.mem_cons_of_mem _ hl', h₂⟩
        · rintro ⟨h₁, l', hl', h₂⟩
          rcases List.mem_cons.1 hl' with rfl | hl'
          · rw [hj] at h₂
            cases h₂
            exact .inl (Prod.ext h₁ rfl)
          · exact .inr ⟨h₁, l', hl', h₂⟩

theorem jumpEdges_isOk_iff {labels : LabelMap} {n : Nat} {ls : List Label} :
    (∃ es, jumpEdges labels n ls = .ok es) ↔ ∀ l ∈ ls, (labels.lookup l).isSome = true := by
  induction ls with
  | nil => simp [jumpEdges]
  | cons l ls ih =>
      unfold jumpEdges
      split
      · rename_i hnone
        refine iff_of_false (by simp) fun h => ?_
        have hl := h l List.mem_cons_self
        rw [hnone] at hl
        cases hl
      · rename_i j hj
        have hcons : (∀ l' ∈ l :: ls, (labels.lookup l').isSome = true) ↔
            ∀ l' ∈ ls, (labels.lookup l').isSome = true := by
          rw [List.forall_mem_cons]
          exact and_iff_right (hj ▸ rfl)
        rw [hcons, ← ih]
        exact bind_pure_isOk_iff

theorem allJumpEdges_cons (labels : LabelMap) (n : Nat) (i : Instr) (rest : List Instr) :
    allJumpEdges labels n (i :: rest) = (do
      let edges ← jumpEdges labels n i.targets
      return edges ++ (← allJumpEdges labels (n + 1) rest)) := rfl

theorem mem_allJumpEdges {labels : LabelMap} {n : Nat} {es : List (Nat × Nat)}
    (h : allJumpEdges labels n code = .ok es) (e : Nat × Nat) : e ∈ es ↔
      ∃ p i, code[p]? = some i ∧ e.1 = n + p ∧ ∃ l ∈ i.targets, labels.lookup l = some e.2 := by
  induction code generalizing n es with
  | nil =>
      cases h
      simp
  | cons i rest ih =>
      obtain ⟨first, hfirst, h⟩ := bind_eq_ok_iff.1 h
      obtain ⟨others, hrest, h⟩ := bind_eq_ok_iff.1 h
      cases h
      rw [List.mem_append, mem_jumpEdges hfirst, ih hrest]
      constructor
      · rintro (⟨h₁, hl⟩ | ⟨p, i', hi, h₁, hl⟩)
        · exact ⟨0, i, rfl, h₁, hl⟩
        · exact ⟨p + 1, i', hi, by omega, hl⟩
      · rintro ⟨p, i', hi, h₁, hl⟩
        cases p with
        | zero =>
            cases hi
            exact .inl ⟨h₁, hl⟩
        | succ p => exact .inr ⟨p, i', hi, by omega, hl⟩

theorem allJumpEdges_isOk_iff {labels : LabelMap} {n : Nat} :
    (∃ es, allJumpEdges labels n code = .ok es) ↔
      ∀ i ∈ code, ∀ l ∈ i.targets, (labels.lookup l).isSome = true := by
  induction code generalizing n with
  | nil => simp [allJumpEdges]
  | cons i rest ih =>
      rw [List.forall_mem_cons, ← jumpEdges_isOk_iff (n := n), ← ih (n := n + 1)]
      rw [allJumpEdges_cons, bind_isOk_iff]
      simp only [bind_pure_isOk_iff, exists_and_right]

theorem mem_fallEdges {n : Nat} (e : Nat × Nat) : e ∈ fallEdges n code ↔
    ∃ p i, code[p]? = some i ∧ i.fallsThrough = true ∧ p + 1 < code.length ∧
      e = (n + p, n + p + 1) := by
  induction code generalizing n with
  | nil => simp [fallEdges]
  | cons i rest ih =>
      cases rest with
      | nil => simp [fallEdges]
      | cons next rest =>
          -- the first instruction adds an edge of its own, the others as before
          have hstep : e ∈ fallEdges n (i :: next :: rest) ↔
              (i.fallsThrough = true ∧ e = (n, n + 1)) ∨ e ∈ fallEdges (n + 1) (next :: rest) := by
            rw [fallEdges]
            split
            · rename_i hfall
              simp [hfall]
            · rename_i hfall
              simp [hfall]
          rw [hstep, ih]
          constructor
          · rintro (⟨hfall, rfl⟩ | ⟨p, i', hi, hfall, hp, rfl⟩)
            · exact ⟨0, i, rfl, hfall, by simp, rfl⟩
            · refine ⟨p + 1, i', hi, hfall, by simpa using hp, ?_⟩
              simp only [Prod.mk.injEq]
              omega
          · rintro ⟨p, i', hi, hfall, hp, rfl⟩
            cases p with
            | zero =>
                cases hi
                exact .inl ⟨hfall, rfl⟩
            | succ p =>
                refine .inr ⟨p, i', hi, hfall, by simpa using hp, ?_⟩
                simp only [Prod.mk.injEq]
                omega

theorem mem_fallEdges_lt {n : Nat} {e : Nat × Nat} (h : e ∈ fallEdges n code) :
    e.1 < n + code.length := by
  rcases (mem_fallEdges e).1 h with ⟨p, i, hi, hfall, hp, rfl⟩
  dsimp only
  omega

/-! ## Nodes -/

/-- What a flow graph keeps of an instruction and its number. -/
def describe (i : Instr) (n : Nat) : FlowNode := ⟨n, i.defs, i.uses, i.movePair?⟩

theorem nodes_addNodes (g : FlowGraph) (n : Nat) : (addNodes g n code).nodes.toList =
    g.nodes.toList ++ (code.zipIdx n).map fun e => describe e.1 e.2 := by
  induction code generalizing g n with
  | nil => simp [addNodes]
  | cons i rest ih =>
      unfold addNodes
      rw [ih, List.zipIdx_cons, List.map_cons]
      simp [Digraph.addNode, describe]

theorem succs_addNodes (g : FlowGraph) (n : Nat) :
    (addNodes g n code).succs.size = g.succs.size + code.length ∧
      ∀ p, (addNodes g n code).succsOf p = g.succsOf p := by
  induction code generalizing g n with
  | nil => exact ⟨rfl, fun p => rfl⟩
  | cons i rest ih =>
      unfold addNodes
      refine ⟨?_, fun p => ?_⟩
      · rw [(ih _ _).1, List.length_cons, ← Nat.add_assoc, Nat.add_right_comm]
        exact congrArg (· + rest.length) (Array.size_push _)
      · rw [(ih _ _).2, Digraph.succsOf_addNode]

theorem foldl_addEdge {es : List (Nat × Nat)} (g : FlowGraph) (h : ∀ e ∈ es, e.1 < g.succs.size) :
    (es.foldl (fun g e => g.addEdge e.1 e.2) g).nodes = g.nodes ∧
      ∀ p q, q ∈ (es.foldl (fun g e => g.addEdge e.1 e.2) g).succsOf p ↔
        (p, q) ∈ es ∨ q ∈ g.succsOf p := by
  induction es generalizing g with
  | nil => exact ⟨rfl, fun p q => by simp⟩
  | cons e es ih =>
      rcases List.forall_mem_cons.1 h with ⟨he, hes⟩
      have hsize : (g.addEdge e.1 e.2).succs.size = g.succs.size := Array.size_modify
      have hrest := ih (g.addEdge e.1 e.2) (by rwa [hsize])
      refine ⟨hrest.1, fun p q => ?_⟩
      rw [List.foldl_cons, hrest.2, Digraph.mem_succsOf_addEdge he, List.mem_cons, Prod.ext_iff,
        ← or_assoc, or_comm (a := (p, q) ∈ es)]

/-! ## The graph -/

/-- The flow graph of some code: nodes are instructions, edges lead where control may go. -/
structure Of (code : List Instr) (flow : FlowGraph) : Prop where
  nodes : flow.nodes.toList = code.zipIdx.map fun e => describe e.1 e.2
  succ : ∀ p q, q ∈ flow.succsOf p ↔ ∃ i, code[p]? = some i ∧
    ((i.fallsThrough = true ∧ p + 1 < code.length ∧ q = p + 1) ∨
      ∃ l ∈ i.targets, code.findIdx? (carries l) = some q)

/-- A flow graph is made of the edges to the next instruction and those of the jumps. -/
theorem edges_of_build (h : build code = .ok flow) : ∃ labels jumps,
    collectLabels 0 [] code = .ok labels ∧ allJumpEdges labels 0 code = .ok jumps ∧
    flow = (fallEdges 0 code ++ jumps).foldl (fun g e => g.addEdge e.1 e.2)
      (addNodes Digraph.empty 0 code) := by
  obtain ⟨labels, hlabels, h⟩ := bind_eq_ok_iff.1 h
  obtain ⟨jumps, hjumps, h⟩ := bind_eq_ok_iff.1 h
  cases h
  exact ⟨labels, jumps, hlabels, hjumps, rfl⟩

theorem of_build (h : build code = .ok flow) : Of code flow := by
  rcases edges_of_build h with ⟨labels, jumps, hlabels, hjumps, rfl⟩
  have hlt : ∀ e ∈ fallEdges 0 code ++ jumps,
      e.1 < (addNodes Digraph.empty 0 code).succs.size := by
    intro e he
    rw [(succs_addNodes _ _).1]
    rcases List.mem_append.1 he with he | he
    · exact mem_fallEdges_lt he
    · rcases (mem_allJumpEdges hjumps e).1 he with ⟨p, i, hi, hp, hl⟩
      have hpos := (List.getElem?_eq_some_iff.1 hi).1
      omega
  have hfold := foldl_addEdge _ hlt
  refine ⟨?_, fun p q => ?_⟩
  · rw [hfold.1, nodes_addNodes]
    rfl
  · rw [hfold.2, List.mem_append, mem_fallEdges, mem_allJumpEdges hjumps, (succs_addNodes _ _).2]
    have hempty : q ∉ (Digraph.empty : FlowGraph).succsOf p := by
      intro hq
      cases hq
    simp only [Nat.zero_add, Prod.mk.injEq, lookup_of_collectLabels hlabels]
    constructor
    · rintro ((⟨p', i, hi, hfall, hp, rfl, rfl⟩ | ⟨p', i, hi, rfl, hl⟩) | hq)
      · exact ⟨i, hi, .inl ⟨hfall, hp, rfl⟩⟩
      · exact ⟨i, hi, .inr hl⟩
      · exact absurd hq hempty
    · rintro ⟨i, hi, ⟨hfall, hp, rfl⟩ | hl⟩
      · exact .inl (.inl ⟨p, i, hi, hfall, hp, rfl, rfl⟩)
      · exact .inl (.inr ⟨p, i, hi, rfl, hl⟩)

/-- Code has a flow graph when no label is defined twice and every target is defined. -/
theorem build_isOk_iff : (∃ flow, build code = .ok flow) ↔
    (labelsOf code).Nodup ∧ ∀ i ∈ code, ∀ l ∈ i.targets, l ∈ labelsOf code := by
  have hlookup : ∀ labels, collectLabels 0 [] code = .ok labels → ∀ l,
      (labels.lookup l).isSome = true ↔ l ∈ labelsOf code := by
    intro labels hlabels l
    rw [lookup_of_collectLabels hlabels, findIdx?_isSome]
  constructor
  · rintro ⟨flow, h⟩
    obtain ⟨labels, jumps, hlabels, hjumps, -⟩ := edges_of_build h
    refine ⟨(collectLabels_isOk_iff.1 ⟨labels, hlabels⟩).1, fun i hi l hl => ?_⟩
    exact (hlookup labels hlabels l).1 (allJumpEdges_isOk_iff.1 ⟨jumps, hjumps⟩ i hi l hl)
  · rintro ⟨hnodup, htargets⟩
    have hcollect : ∃ labels, collectLabels 0 [] code = .ok labels :=
      collectLabels_isOk_iff.2 ⟨hnodup, fun _ _ => rfl⟩
    obtain ⟨labels, hlabels⟩ := hcollect
    refine bind_isOk_iff.2 ⟨labels, hlabels, bind_pure_isOk_iff.2 (allJumpEdges_isOk_iff.2 ?_)⟩
    exact fun i hi l hl => (hlookup labels hlabels l).2 (htargets i hi l hl)

/-! ## What is read off the graph -/

theorem Of.size (h : Of code flow) : flow.size = code.length := by
  have hlen := congrArg List.length h.nodes
  simpa [Digraph.size] using hlen

theorem Of.node? (h : Of code flow) (p : Nat) :
    flow.node? p = (code[p]?).map fun i => describe i p := by
  have hget := congrArg (fun l => l[p]?) h.nodes
  simpa [Digraph.node?, Option.map_map, Function.comp_def] using hget

theorem seek_suffix (h : seek l code = some dest) : dest <:+ code := by
  rw [seek_eq, Option.map_eq_some_iff] at h
  rcases h with ⟨p, _, rfl⟩
  exact List.drop_suffix p code

/-- Control stays in the code. -/
theorem Next.suffix (h : Next code here dest) (hhere : here <:+ code) : dest <:+ code := by
  cases h with
  | @fall i rest hfall => exact (List.suffix_cons i dest).trans hhere
  | jump hl hseek => exact seek_suffix hseek

/-- Edges lead where control may go. -/
theorem Of.next (h : Of code flow) {p q : Nat} (hq : q ∈ flow.succsOf p) :
    Next code (code.drop p) (code.drop q) := by
  rcases (h.succ p q).1 hq with ⟨i, hi, ⟨hfall, _, rfl⟩ | ⟨l, hl, hfind⟩⟩
  · rw [List.drop_eq_getElem?_toList_append, hi]
    exact .fall hfall
  · rw [List.drop_eq_getElem?_toList_append, hi]
    refine .jump hl ?_
    rw [seek_eq, hfind]
    rfl

/-- Control goes along edges, or behind the last instruction. -/
theorem Of.exists_succ (h : Of code flow) {p : Nat} (hnext : Next code (code.drop p) dest) :
    dest = [] ∨ ∃ q ∈ flow.succsOf p, dest = code.drop q := by
  generalize hat : code.drop p = at' at hnext
  cases hnext with
  | @fall i rest hfall =>
      have hi : code[p]? = some i := by
        rw [← List.head?_drop, hat]
        rfl
      have hrest : code.drop (p + 1) = dest := by
        rw [← List.drop_drop, hat]
        rfl
      by_cases hp : p + 1 < code.length
      · exact .inr ⟨p + 1, (h.succ p _).2 ⟨i, hi, .inl ⟨hfall, hp, rfl⟩⟩, hrest.symm⟩
      · refine .inl ?_
        rw [← hrest]
        exact List.drop_eq_nil_of_le (Nat.le_of_not_lt hp)
  | @jump i rest _ l hl hseek =>
      have hi : code[p]? = some i := by
        rw [← List.head?_drop, hat]
        rfl
      rw [seek_eq, Option.map_eq_some_iff] at hseek
      rcases hseek with ⟨q, hq, rfl⟩
      exact .inr ⟨q, (h.succ p q).2 ⟨i, hi, .inr ⟨l, hl, hq⟩⟩, rfl⟩

end FlowGraph

end TreeCompiler
