import TreeCompiler.Proofs.MinHeap
import TreeCompiler.Proofs.Coloring.Assign

/-!
# Coloring results — which color each node ends up with

A node of the select stack gets its color when all nodes above it have theirs, and keeps it
(`Lists.stackColors_at`).  Merged nodes take the color of the node that stands for them
(`color_assignColors`), and the result lists the temps of all nodes with a color
(`get?_colors_result`).
-/

namespace TreeCompiler

namespace Coloring

variable {c d : Coloring} {n : Nat}

/-! ## Colors in use -/

/-- Put the color of the node that stands for a neighbor into a bag, if it has one. -/
def useColor (c : Coloring) (h : MinHeap) (w : Nat) : MinHeap :=
  let a := c.representative w
  if c.state.get a = .colored || c.state.get a = .precolored then
    match c.color.get a with
    | some color => h.push color
    | none => h
  else h

theorem usedColors_eq (c : Coloring) (n : Nat) :
    c.usedColors n = (c.neighbors.get n).foldl c.useColor .empty := rfl

/-- The colors in use around a node are those of the nodes that it sees. -/
theorem mem_usedColors (c : Coloring) (n x : Nat) : x ∈ (c.usedColors n).items ↔
    ∃ w ∈ c.neighbors.get n, (c.state.get (c.representative w) = .colored
      ∨ c.state.get (c.representative w) = .precolored)
      ∧ c.color.get (c.representative w) = some x := by
  have huse : ∀ (h : MinHeap) (w : Nat), x ∈ (c.useColor h w).items ↔ x ∈ h.items ∨
      ((c.state.get (c.representative w) = .colored ∨
        c.state.get (c.representative w) = .precolored)
        ∧ c.color.get (c.representative w) = some x) := by
    intro h w
    simp only [useColor, Bool.or_eq_true, decide_eq_true_eq]
    split
    · rename_i hstate
      cases hcolor : c.color.get (c.representative w) with
      | none => simp
      | some color => simp [MinHeap.mem_push, hstate, or_comm, @eq_comm Nat color]
    · rename_i hstate
      simp [hstate]
  have hfold : ∀ (ws : List Nat) (h : MinHeap), x ∈ (ws.foldl c.useColor h).items ↔ x ∈ h.items ∨
      ∃ w ∈ ws, (c.state.get (c.representative w) = .colored
        ∨ c.state.get (c.representative w) = .precolored)
        ∧ c.color.get (c.representative w) = some x := by
    intro ws
    induction ws with
    | nil => simp
    | cons w ws ih =>
        intro h
        rw [List.foldl_cons, ih, huse]
        simp [or_assoc]
  have hempty : x ∉ MinHeap.empty.items := List.not_mem_nil
  rw [usedColors_eq]
  exact (hfold (c.neighbors.get n) .empty).trans (by simp [hempty])

/-! ## Coloring the stack -/

/-- Nodes that are not colored keep their state and color. -/
theorem foldl_assignColor_of_not_mem {ns : List Nat} (hn : n ∉ ns) (c : Coloring) :
    (ns.foldl assignColor c).state.get n = c.state.get n
      ∧ (ns.foldl assignColor c).color.get n = c.color.get n := by
  induction ns generalizing c with
  | nil => exact ⟨rfl, rfl⟩
  | cons i ns ih =>
      rw [List.mem_cons, not_or] at hn
      obtain ⟨hstate, hcolor⟩ := ih hn.2 (c.assignColor i)
      rw [List.foldl_cons, hstate, hcolor, state_assignColor, color_assignColor, if_neg hn.1,
        if_neg fun h => hn.1 h.1]
      exact ⟨rfl, rfl⟩

/-- The colors of the nodes of the stack, before merged nodes get theirs. -/
def stackColors (c : Coloring) : Coloring := c.selectStack.foldl assignColor c

theorem assignColors_eq (c : Coloring) :
    c.assignColors = c.stackColors.nodes.foldl inheritColor c.stackColors := rfl

/-- The state in which it is the turn of the node below. -/
def coloredDownTo (c : Coloring) (above : List Nat) : Coloring := above.foldl assignColor c

/-- A node of the stack is done with at its turn. -/
theorem Lists.stackColors_of_turn {above below : List Nat} (h : Lists c)
    (hstack : c.selectStack = above ++ n :: below) :
    c.stackColors.state.get n = ((c.coloredDownTo above).assignColor n).state.get n
      ∧ c.stackColors.color.get n = ((c.coloredDownTo above).assignColor n).color.get n := by
  have hnodup := (List.nodup_append.1 (hstack ▸ h.nodup)).2.1
  have hsplit : c.stackColors = below.foldl Coloring.assignColor
      ((c.coloredDownTo above).assignColor n) := by
    unfold stackColors coloredDownTo
    rw [hstack, List.foldl_append, List.foldl_cons]
  rw [hsplit]
  exact foldl_assignColor_of_not_mem (List.nodup_cons.1 hnodup).1 _

/-- When a node of the stack gets its color, the nodes above it have theirs, and it sees those. -/
theorem Lists.stackColors_at {above below : List Nat} (h : Lists c)
    (hstack : c.selectStack = above ++ n :: below) : ∃ cur, Assigned c cur
      ∧ (∀ i, i ∉ above → cur.state.get i = c.state.get i)
      ∧ (∀ i, i ∉ n :: below → c.stackColors.state.get i = cur.state.get i
          ∧ c.stackColors.color.get i = cur.color.get i)
      ∧ c.stackColors.state.get n = (if cur.freeColor n < c.k then .colored else .spilled)
      ∧ c.stackColors.color.get n =
          (if cur.freeColor n < c.k then some (cur.freeColor n) else c.color.get n) := by
  have hassigned : Assigned c (c.coloredDownTo above) := (h.foldl_assignColor_above hstack).2.1
  have ⟨hstate, hcolor⟩ := h.stackColors_of_turn hstack
  have hnabove : n ∉ above := fun e =>
    (List.nodup_append.1 (hstack ▸ h.nodup)).2.2 n e n List.mem_cons_self rfl
  have hkept : (c.coloredDownTo above).color.get n = c.color.get n :=
    (foldl_assignColor_of_not_mem hnabove c).2
  refine ⟨c.coloredDownTo above, hassigned, ?_, ?_, ?_, ?_⟩
  · exact fun i hi => (foldl_assignColor_of_not_mem hi c).1
  · intro i hi
    have hsplit : c.stackColors =
        (n :: below).foldl Coloring.assignColor (c.coloredDownTo above) := by
      unfold stackColors coloredDownTo
      rw [hstack, List.foldl_append]
    rw [hsplit]
    exact foldl_assignColor_of_not_mem hi _
  · rw [hstate, state_assignColor, if_pos rfl, hassigned.k]
  · rw [hcolor, color_assignColor, hassigned.k, hkept]
    simp only [true_and]

/-! ## Merged nodes -/

theorem color_inheritColor (c : Coloring) (n i : Nat) : (c.inheritColor n).color.get i =
    if i = n ∧ c.state.get n = .coalesced then c.color.get (c.representative n)
    else c.color.get i := by
  unfold inheritColor
  split
  · rename_i hn
    simp [Table.get_set, hn]
  · rename_i hn
    simp [hn]

theorem foldl_inheritColor (ha : Aliases c) (ns : List Nat) (i : Nat) :
    (ns.foldl inheritColor c).color.get i =
      if i ∈ ns then c.color.get (c.representative i) else c.color.get i := by
  induction ns generalizing c with
  | nil => simp
  | cons n ns ih =>
      have hsame : ∃ color, c.inheritColor n = { c with color } := by
        obtain ⟨color, h⟩ := foldl_inheritColor_eq [n] c
        exact ⟨color, h⟩
      have hcolor := color_inheritColor c n
      obtain ⟨color, heq⟩ := hsame
      have hrep : ∀ i, (c.inheritColor n).representative i = c.representative i := by
        intro i
        rw [heq]
        exact representative_setColor c color i
      have ha' : Aliases (c.inheritColor n) := by
        rw [heq]
        exact ha.setColor color
      -- what stands for a node was not merged, so its color stays
      have hkeep : ∀ i, (c.inheritColor n).color.get (c.representative i)
          = c.color.get (c.representative i) := by
        intro i
        rw [hcolor, if_neg]
        rintro ⟨e, hn⟩
        exact ha.not_coalesced i (e ▸ hn)
      rw [List.foldl_cons, ih ha', hrep, hkeep, hcolor]
      by_cases hin : i = n
      · subst hin
        by_cases hi : c.state.get i = .coalesced
        · simp [hi]
        · simp [hi, representative_of_not_coalesced hi]
      · simp [hin]

/-- The final color of a node is that of the node that stands for it. -/
theorem Coherent.color_assignColors (h : Coherent c) (hn : n < c.size) :
    c.assignColors.color.get n = c.stackColors.color.get (c.representative n) := by
  have ⟨_, hassigned, _⟩ := h.lists.foldl_assignColor rfl
  have haliases : Aliases c.stackColors := hassigned.aliases h.aliases
  have hmem : n ∈ c.stackColors.nodes := by
    rw [stackColors, hassigned.nodes]
    exact List.mem_range.2 hn
  rw [assignColors_eq, foldl_inheritColor haliases, if_pos hmem, stackColors,
    hassigned.representative]

theorem state_assignColors (c : Coloring) : c.assignColors.state = c.stackColors.state := by
  obtain ⟨color, heq⟩ := foldl_inheritColor_eq c.stackColors.nodes c.stackColors
  rw [assignColors_eq, heq]

/-! ## The result -/

/-- Note the color of a node, if it has one. -/
def addColor (c : Coloring) (colors : TempMap Nat) (n : Nat) : TempMap Nat :=
  match c.state.get n, c.color.get n with
  | .spilled, _ => colors
  | _, some color => colors.insert (c.temp n) color
  | _, none => colors

theorem colors_result (c : Coloring) : c.result.colors = c.nodes.foldl c.addColor .empty := rfl

/-- What the result says of a node. -/
def outcome (c : Coloring) (n : Nat) : Option Nat :=
  if c.state.get n = .spilled then none else c.color.get n

theorem get?_addColor (c : Coloring) (colors : TempMap Nat) (n : Nat) (t : Temp) :
    (c.addColor colors n).get? t =
      if c.temp n = t then (c.outcome n).or (colors.get? t) else colors.get? t := by
  unfold addColor outcome
  split
  · rename_i hs
    simp [hs]
  · rename_i color hcolor hs
    have hspilled : c.state.get n ≠ .spilled := hs
    rw [TempMap.get?_insert, if_neg hspilled, hcolor]
    rfl
  · rename_i hcolor hs
    simp [hcolor]

/-- The temps of the nodes are different. -/
def DistinctTemps (c : Coloring) : Prop :=
  ∀ {i j : Nat}, i < c.size → j < c.size → c.temp i = c.temp j → i = j

theorem get?_foldl_addColor (hdistinct : DistinctTemps c) (hn : n < c.size) {ns : List Nat}
    (hns : ∀ i ∈ ns, i < c.size) (colors : TempMap Nat) :
    (ns.foldl c.addColor colors).get? (c.temp n) =
      if n ∈ ns then (c.outcome n).or (colors.get? (c.temp n)) else colors.get? (c.temp n) := by
  induction ns generalizing colors with
  | nil => rfl
  | cons i ns ih =>
      rw [List.foldl_cons, ih (fun j hj => hns j (List.mem_cons_of_mem _ hj)), get?_addColor]
      by_cases hin : i = n
      · subst hin
        rw [if_pos rfl, if_pos List.mem_cons_self]
        split
        · rw [← Option.or_assoc, Option.or_self]
        · rfl
      · have htemp : c.temp i ≠ c.temp n :=
          fun e => hin (hdistinct (hns i List.mem_cons_self) hn e)
        rw [if_neg htemp]
        simp [Ne.symm hin]

/-- The result has the color of a node under its temp, unless the node is spilled. -/
theorem get?_colors_result (hdistinct : DistinctTemps c) (hn : n < c.size) :
    c.result.colors.get? (c.temp n) = c.outcome n := by
  have hns : ∀ i ∈ c.nodes, i < c.size := fun i hi => List.mem_range.1 hi
  have hmem : n ∈ c.nodes := List.mem_range.2 hn
  rw [colors_result, get?_foldl_addColor hdistinct hn hns, if_pos hmem, TempMap.get?_empty,
    Option.or_none]

/-- Temps of the result are temps of nodes. -/
theorem exists_node_of_get? {t : Temp} {x : Nat} (h : c.result.colors.get? t = some x) :
    ∃ n, n < c.size ∧ c.temp n = t := by
  have hfold : ∀ (ns : List Nat) (colors : TempMap Nat),
      (ns.foldl c.addColor colors).get? t = some x →
      (∃ n ∈ ns, c.temp n = t) ∨ colors.get? t = some x := by
    intro ns
    induction ns with
    | nil => exact fun _ h => .inr h
    | cons i ns ih =>
        intro colors h
        rcases ih _ h with ⟨n, hn, ht⟩ | h
        · exact .inl ⟨n, List.mem_cons_of_mem _ hn, ht⟩
        · rw [get?_addColor] at h
          split at h
          · exact .inl ⟨i, List.mem_cons_self, ‹_›⟩
          · exact .inr h
  rcases hfold c.nodes .empty h with ⟨n, hn, ht⟩ | h
  · exact ⟨n, List.mem_range.1 hn, ht⟩
  · rw [TempMap.get?_empty] at h
    cases h

theorem mem_spilled_result {t : Temp} :
    t ∈ c.result.spilled ↔ ∃ n, n < c.size ∧ c.state.get n = .spilled ∧ c.temp n = t := by
  unfold result
  simp only [SortedSet.mem_ofList, List.mem_map, List.mem_filter, nodes, List.mem_range,
    decide_eq_true_eq, and_assoc]

end Coloring

end TreeCompiler
