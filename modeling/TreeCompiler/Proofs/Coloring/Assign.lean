import TreeCompiler.Proofs.Coloring.Settle
import TreeCompiler.Proofs.Coloring.Verified

/-!
# Coloring assignment — from the select stack to colors

The select stack is taken from its top, and each node of it becomes colored or spilled
(`Assigned`).  Nothing else changes but the colors.
-/

namespace TreeCompiler

namespace Coloring

variable {c d e : Coloring} {n : Nat}

/-! ## One node -/

/-- A node of the select stack is no register, and stands for itself. -/
theorem Lists.of_mem_selectStack (h : Lists c) (hn : n ∈ c.selectStack) :
    c.isPrecolored n = false ∧ c.representative n = n ∧ n < c.size := by
  have hs := (h.select n).1 hn
  refine ⟨?_, representative_of_not_coalesced ?_, h.lt_size n ?_⟩
  · rw [Coloring.isPrecolored, hs]
    decide
  · rw [hs]
    decide
  · rw [hs]
    decide

/-- The least color that no colored neighbor has. -/
def freeColor (c : Coloring) (n : Nat) : Nat := (c.usedColors n).smallestAbsent.1

/-- Only colors and the states of nodes from the select stack differ. -/
structure Assigned (c d : Coloring) : Prop where
  k : d.k = c.k
  temps : d.temps = c.temps
  neighbors : d.neighbors = c.neighbors
  edges : d.edges = c.edges
  moves : d.moves = c.moves
  moveState : d.moveState = c.moveState
  mergedInto : d.mergedInto = c.mergedInto
  state : ∀ i, d.state.get i = c.state.get i ∨
    (c.state.get i = .selectStack ∧ (d.state.get i = .colored ∨ d.state.get i = .spilled))

namespace Assigned

theorem refl (c : Coloring) : Assigned c c :=
  ⟨rfl, rfl, rfl, rfl, rfl, rfl, rfl, fun _ => .inl rfl⟩

theorem trans (h : Assigned c d) (h' : Assigned d e) : Assigned c e where
  k := h'.k.trans h.k
  temps := h'.temps.trans h.temps
  neighbors := h'.neighbors.trans h.neighbors
  edges := h'.edges.trans h.edges
  moves := h'.moves.trans h.moves
  moveState := h'.moveState.trans h.moveState
  mergedInto := h'.mergedInto.trans h.mergedInto
  state := by
    intro i
    rcases h.state i with h₁ | ⟨h₁, h₂⟩
    · rw [← h₁]
      exact h'.state i
    · rcases h'.state i with h₃ | ⟨h₃, _⟩
      · exact .inr ⟨h₁, h₃ ▸ h₂⟩
      · rcases h₂ with h₂ | h₂ <;> rw [h₂] at h₃ <;> cases h₃

theorem size (h : Assigned c d) : d.size = c.size := by
  simp [Coloring.size, h.temps]

theorem nodes (h : Assigned c d) : d.nodes = c.nodes := by
  simp [Coloring.nodes, h.size]

/-- Registers and merged nodes stay what they are. -/
theorem state_iff (h : Assigned c d) {i : Nat} {s : NodeState}
    (hs : s ≠ .selectStack ∧ s ≠ .colored ∧ s ≠ .spilled) :
    d.state.get i = s ↔ c.state.get i = s := by
  rcases h.state i with hi | ⟨hc, hd⟩
  · rw [hi]
  · refine iff_of_false ?_ ?_
    · intro e
      rcases hd with hd | hd
      · exact hs.2.1 (e.symm.trans hd)
      · exact hs.2.2 (e.symm.trans hd)
    · intro e
      exact hs.1 (e.symm.trans hc)

theorem isPrecolored (h : Assigned c d) (i : Nat) : d.isPrecolored i = c.isPrecolored i := by
  simp only [Coloring.isPrecolored, h.state_iff (s := .precolored)
    ⟨by decide, by decide, by decide⟩]

theorem representative (h : Assigned c d) (i : Nat) : d.representative i = c.representative i := by
  simp only [Coloring.representative, h.size]
  exact representativeWithin_congr (fun _ => h.state_iff ⟨by decide, by decide, by decide⟩)
    h.mergedInto _ i

/-- Merged nodes lead where they led before. -/
theorem aliases (h : Assigned c d) (ha : Aliases c) : Aliases d := by
  have hiff := fun i =>
    h.state_iff (i := i) (s := .coalesced) ⟨by decide, by decide, by decide⟩
  have hcount : d.mergedCount = c.mergedCount := by
    simp only [mergedCount, h.nodes, hiff]
  intro i
  rw [hcount, representativeWithin_congr hiff h.mergedInto, ne_eq, hiff]
  exact ha i

theorem edges_part (h : Assigned c d) (he : Edges c) : Edges d where
  symm := by
    intro a b hb
    rw [h.edges] at hb ⊢
    exact he.symm hb
  irrefl := by
    intro a
    rw [h.edges]
    exact he.irrefl a
  lt_size := by
    intro a b hb
    rw [h.edges] at hb
    rw [h.size]
    exact he.lt_size hb
  mem_neighbors := by
    intro a b ha
    rw [h.isPrecolored] at ha
    rw [h.neighbors, h.edges]
    exact he.mem_neighbors ha
  nodup := by
    intro a
    rw [h.neighbors]
    exact he.nodup a

end Assigned

/-- A node is colored with the free color, or spilled if there is none. -/
theorem assignColor_eq (c : Coloring) (n : Nat) : c.assignColor n =
    if c.freeColor n < c.k then
      ({ c with color := c.color.set n (some (c.freeColor n)) } : Coloring).setState n .colored
    else c.setState n .spilled := rfl

theorem state_assignColor (c : Coloring) (n i : Nat) : (c.assignColor n).state.get i =
    if i = n then (if c.freeColor n < c.k then .colored else .spilled) else c.state.get i := by
  rw [assignColor_eq]
  split
  · exact state_setState _ n i .colored
  · exact state_setState c n i .spilled

theorem color_assignColor (c : Coloring) (n i : Nat) : (c.assignColor n).color.get i =
    if i = n ∧ c.freeColor n < c.k then some (c.freeColor n) else c.color.get i := by
  rw [assignColor_eq]
  split
  · rename_i hk
    simp only [setState_frame, Table.get_set, hk, and_true]
  · rename_i hk
    simp [hk]

theorem assigned_assignColor (hn : c.state.get n = .selectStack) :
    Assigned c (c.assignColor n) := by
  have hstate : ∀ i, (c.assignColor n).state.get i = c.state.get i ∨ (c.state.get i = .selectStack ∧
      ((c.assignColor n).state.get i = .colored ∨ (c.assignColor n).state.get i = .spilled)) := by
    intro i
    rw [state_assignColor]
    split
    · rename_i hi
      refine .inr ⟨hi ▸ hn, ?_⟩
      split
      · exact .inl rfl
      · exact .inr rfl
    · exact .inl rfl
  refine ⟨?_, ?_, ?_, ?_, ?_, ?_, ?_, hstate⟩ <;> rw [assignColor_eq] <;> split <;> simp

/-- The node leaves the top of the stack. -/
theorem Lists.assignColor {rest : List Nat} (h : Lists c) (hstack : c.selectStack = n :: rest) :
    Lists (c.assignColor n) ∧ (c.assignColor n).selectStack = rest := by
  have hmem : n ∈ c.selectStack := hstack ▸ List.mem_cons_self
  have hn : c.state.get n = .selectStack := (h.select n).1 hmem
  have hlt : n < c.size := (h.of_mem_selectStack hmem).2.2
  have hhead : c.selectStack.head? = some n := by rw [hstack]; rfl
  -- both outcomes take the node off the stack
  have hpop : ∀ (d : Coloring) (s : NodeState), d.state = c.state → d.selectStack = c.selectStack →
      s = .colored ∨ s = .spilled → (d.setState n s).selectStack = rest := by
    intro d s hstate hsel hs
    have htail : d.selectStack.tail = rest := by rw [hsel, hstack]; rfl
    unfold Coloring.setState leaveList enterList
    rw [hstate, hn]
    rcases hs with rfl | rfl <;> exact htail
  rw [assignColor_eq]
  split
  · have h' : Lists ({ c with color := c.color.set n (some (c.freeColor n)) } : Coloring) :=
      ⟨h.1, h.2, h.3, h.4, h.5, h.6, h.7, h.8⟩
    exact ⟨h'.setState hlt fun _ => hhead, hpop _ _ rfl rfl (.inl rfl)⟩
  · exact ⟨h.setState hlt fun _ => hhead, hpop c _ rfl rfl (.inr rfl)⟩

/-! ## All nodes -/

/-- The nodes above leave the stack one after another. -/
theorem Lists.foldl_assignColor_above {above rest : List Nat} (h : Lists c)
    (hstack : c.selectStack = above ++ rest) : Lists (above.foldl Coloring.assignColor c)
      ∧ Assigned c (above.foldl Coloring.assignColor c)
      ∧ (above.foldl Coloring.assignColor c).selectStack = rest := by
  induction above generalizing c with
  | nil => exact ⟨h, .refl c, hstack⟩
  | cons n above ih =>
      have hcons : c.selectStack = n :: (above ++ rest) := hstack
      have hn : c.state.get n = .selectStack := (h.select n).1 (hcons ▸ List.mem_cons_self)
      have ⟨hlists, hrest⟩ := h.assignColor hcons
      have ⟨h₁, h₂, h₃⟩ := ih hlists hrest
      exact ⟨h₁, (assigned_assignColor hn).trans h₂, h₃⟩

theorem Lists.foldl_assignColor {stack : List Nat} (h : Lists c) (hstack : c.selectStack = stack) :
    Lists (stack.foldl Coloring.assignColor c) ∧ Assigned c (stack.foldl Coloring.assignColor c)
      ∧ (stack.foldl Coloring.assignColor c).selectStack = [] :=
  h.foldl_assignColor_above (hstack.trans (List.append_nil stack).symm)

/-- Inherited colors leave everything else alone. -/
theorem foldl_inheritColor_eq (ns : List Nat) (c : Coloring) :
    ∃ color, ns.foldl inheritColor c = { c with color } := by
  induction ns generalizing c with
  | nil => exact ⟨c.color, rfl⟩
  | cons n ns ih =>
      rw [List.foldl_cons]
      by_cases hn : c.state.get n = .coalesced
      · rw [show c.inheritColor n =
          { c with color := c.color.set n (c.color.get (c.representative n)) } from if_pos hn]
        exact ih _
      · rw [show c.inheritColor n = c from if_neg hn]
        exact ih c

/-- Nothing is left in a worklist when there is no next step. -/
theorem Coherent.not_listed (h : Coherent c) (hdone : c.step? = none) (n : Nat) :
    (c.state.get n).isListed = false := by
  obtain ⟨h₁, _, h₃, h₄⟩ := worklists_of_step?_eq_none hdone
  refine Bool.eq_false_iff.2 fun hn => ?_
  cases hs : c.state.get n <;> rw [hs] at hn <;> try cases hn
  · exact SortedSet.not_mem_of_min?_eq_none h₁ n ((h.lists.simplify n).2 hs)
  · exact SortedSet.not_mem_of_min?_eq_none h₃ n ((h.lists.freeze n).2 hs)
  · have hmem : n ∈ c.spillWorklist.toList := (h.lists.spill n).2 hs
    rw [h₄] at hmem
    cases hmem

/-- What coloring the whole stack leaves alone. -/
theorem Coherent.assigned (h : Coherent c) :
    Lists c.assignColors ∧ Assigned c c.assignColors := by
  have ⟨hlists, hassigned, _⟩ := h.lists.foldl_assignColor rfl
  obtain ⟨color, hcolor⟩ := foldl_inheritColor_eq (c.selectStack.foldl Coloring.assignColor c).nodes
    (c.selectStack.foldl Coloring.assignColor c)
  rw [show c.assignColors = { c.selectStack.foldl Coloring.assignColor c with color } from hcolor]
  exact ⟨⟨hlists.1, hlists.2, hlists.3, hlists.4, hlists.5, hlists.6, hlists.7, hlists.8⟩,
    ⟨hassigned.1, hassigned.2, hassigned.3, hassigned.4, hassigned.5, hassigned.6, hassigned.7,
      hassigned.8⟩⟩

theorem Coherent.verified_assignColors (h : Coherent c) (hdone : c.step? = none) :
    Verified c.assignColors := by
  have ⟨hlists, hassigned⟩ := h.assigned
  refine verified_of_not_listed hlists (hassigned.edges_part h.edges) fun n => ?_
  rcases hassigned.state n with e | ⟨_, e | e⟩
  · rw [e]
    exact h.not_listed hdone n
  · rw [e]
    rfl
  · rw [e]
    rfl

end Coloring

end TreeCompiler
