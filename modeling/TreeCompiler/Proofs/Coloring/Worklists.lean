import TreeCompiler.Proofs.Coloring.Frame

/-!
# Coloring worklists — the lists hold exactly the nodes and moves of their state

`Lists c` says that each worklist, the select stack and the two sets of moves hold what the states
and buckets say.  The two functions that change a state or a bucket keep it, and with it all
functions built from them.
-/

namespace TreeCompiler

namespace SortedSet

variable {α : Type} [Keyed α]

/-- The first member is a member. -/
theorem mem_of_min? {s : SortedSet α} {a : α} (h : s.min? = some a) : a ∈ s :=
  List.mem_of_mem_head? h

theorem not_mem_of_min?_eq_none {s : SortedSet α} (h : s.min? = none) (a : α) : a ∉ s := by
  intro ha
  have hnil : s.toList = [] := List.head?_eq_none_iff.1 h
  have hmem : a ∈ s.toList := ha
  rw [hnil] at hmem
  cases hmem

end SortedSet

namespace Coloring

variable {c d : Coloring}

/-- The lists of nodes and moves agree with the states of nodes and the buckets of moves. -/
structure Lists (c : Coloring) : Prop where
  simplify : ∀ n, n ∈ c.simplifyWorklist ↔ c.state.get n = .simplify
  freeze : ∀ n, n ∈ c.freezeWorklist ↔ c.state.get n = .freeze
  spill : ∀ n, n ∈ c.spillWorklist ↔ c.state.get n = .spill
  select : ∀ n, n ∈ c.selectStack ↔ c.state.get n = .selectStack
  nodup : c.selectStack.Nodup
  lt_size : ∀ n, c.state.get n ≠ .initial → n < c.size
  worklistMoves : ∀ m, m ∈ c.worklistMoves ↔ m < c.moves.size ∧ c.moveState.get m = .worklist
  activeMoves : ∀ m, m ∈ c.activeMoves ↔ m < c.moves.size ∧ c.moveState.get m = .active

/-! ## Lists of nodes -/

theorem mem_simplifyWorklist_setState (h : Lists c) (n i : Nat) (s : NodeState) :
    i ∈ (c.setState n s).simplifyWorklist ↔ (c.setState n s).state.get i = .simplify := by
  rw [state_setState]
  have hi := h.simplify i
  unfold setState leaveList enterList
  split <;> split <;> simp only [SortedSet.mem_insert, SortedSet.mem_erase] <;> grind

theorem mem_freezeWorklist_setState (h : Lists c) (n i : Nat) (s : NodeState) :
    i ∈ (c.setState n s).freezeWorklist ↔ (c.setState n s).state.get i = .freeze := by
  rw [state_setState]
  have hi := h.freeze i
  unfold setState leaveList enterList
  split <;> split <;> simp only [SortedSet.mem_insert, SortedSet.mem_erase] <;> grind

theorem mem_spillWorklist_setState (h : Lists c) (n i : Nat) (s : NodeState) :
    i ∈ (c.setState n s).spillWorklist ↔ (c.setState n s).state.get i = .spill := by
  rw [state_setState]
  have hi := h.spill i
  unfold setState leaveList enterList
  split <;> split <;> simp only [SortedSet.mem_insert, SortedSet.mem_erase] <;> grind

/-- What is left of a list without repetitions behind its first entry. -/
theorem mem_tail_of_head? {l : List Nat} {n : Nat} (hl : l.Nodup) (hn : l.head? = some n)
    (i : Nat) :
    i ∈ l.tail ↔ i ∈ l ∧ i ≠ n := by
  cases l with
  | nil => cases hn
  | cons a r =>
      have ha : a = n := by simpa using hn
      have hni := (List.nodup_cons.1 hl).1
      subst ha
      simp only [List.tail_cons, List.mem_cons]
      constructor
      · intro hi
        exact ⟨.inr hi, fun e => hni (e ▸ hi)⟩
      · rintro ⟨rfl | hi, hne⟩
        · exact absurd rfl hne
        · exact hi

theorem mem_selectStack_setState (h : Lists c) {n : Nat} (s : NodeState)
    (hn : c.state.get n = .selectStack → c.selectStack.head? = some n) (i : Nat) :
    i ∈ (c.setState n s).selectStack ↔ (c.setState n s).state.get i = .selectStack := by
  rw [state_setState]
  have hi := h.select i
  by_cases hsel : c.state.get n = .selectStack
  · have htail := mem_tail_of_head? h.nodup (hn hsel) i
    unfold setState leaveList enterList
    rw [hsel]
    split <;> simp only [List.mem_cons, htail] <;> grind
  · unfold setState leaveList enterList
    split <;> split <;> simp only [List.mem_cons] <;> grind

theorem nodup_selectStack_setState (h : Lists c) {n : Nat} (s : NodeState)
    (hn : c.state.get n = .selectStack → c.selectStack.head? = some n) :
    (c.setState n s).selectStack.Nodup := by
  have hnodup := h.nodup
  have hmem := h.select n
  by_cases hsel : c.state.get n = .selectStack
  · have htail := mem_tail_of_head? h.nodup (hn hsel) n
    unfold setState leaveList enterList
    rw [hsel]
    split <;> simp only [List.nodup_cons, htail] <;> grind
  · unfold setState leaveList enterList
    split <;> split <;> simp only [List.nodup_cons] <;> grind

namespace Lists

/-- The select stack is left only from its top. -/
theorem setState (h : Lists c) {n : Nat} {s : NodeState} (hlt : n < c.size)
    (hn : c.state.get n = .selectStack → c.selectStack.head? = some n) :
    Lists (c.setState n s) where
  simplify := fun i => mem_simplifyWorklist_setState h n i s
  freeze := fun i => mem_freezeWorklist_setState h n i s
  spill := fun i => mem_spillWorklist_setState h n i s
  select := mem_selectStack_setState h s hn
  nodup := nodup_selectStack_setState h s hn
  lt_size := by
    intro i hi
    rw [state_setState] at hi
    rw [size_setState]
    split at hi
    · rename_i hin
      exact hin ▸ hlt
    · exact h.lt_size i hi
  worklistMoves := by simpa using h.worklistMoves
  activeMoves := by simpa using h.activeMoves

/-- A node that is in the graph may change its state freely. -/
theorem setState_of_isOpen (h : Lists c) {n : Nat} {s : NodeState} (hlt : n < c.size)
    (hopen : (c.state.get n).isOpen = true) : Lists (c.setState n s) := by
  refine h.setState hlt ?_
  intro hn
  rw [hn] at hopen
  cases hopen

/-! ## Sets of moves -/

theorem setMoveState (h : Lists c) {m : Nat} (hm : m < c.moves.size) (s : MoveState) :
    Lists (c.setMoveState m s) where
  simplify := by simpa using h.simplify
  freeze := by simpa using h.freeze
  spill := by simpa using h.spill
  select := by simpa using h.select
  nodup := by simpa using h.nodup
  lt_size := by simpa [size] using h.lt_size
  worklistMoves := by
    intro i
    have hi := h.worklistMoves i
    rw [moveState_setMoveState]
    unfold Coloring.setMoveState leaveMoves enterMoves
    split <;> split <;> simp only [SortedSet.mem_insert, SortedSet.mem_erase] <;> grind
  activeMoves := by
    intro i
    have hi := h.activeMoves i
    rw [moveState_setMoveState]
    unfold Coloring.setMoveState leaveMoves enterMoves
    split <;> split <;> simp only [SortedSet.mem_insert, SortedSet.mem_erase] <;> grind

theorem enableMoves (h : Lists c) (hlt : ∀ n, ∀ m ∈ c.moveList.get n, m < c.moves.size)
    (ns : List Nat) : Lists (c.enableMoves ns) := by
  -- the lists of moves stay, so each move that is set is one of the moves of the start
  have hmoves : ∀ (ms : List Nat) (d : Coloring), (∀ m ∈ ms, m < d.moves.size) → Lists d →
      Lists (ms.foldl wake d) := by
    intro ms
    induction ms with
    | nil => exact fun _ _ hd => hd
    | cons m ms ih =>
        intro d hms hd
        refine ih _ ?_ ?_
        · intro i hi
          rw [(enabled_wake d m).moves]
          exact hms i (List.mem_cons_of_mem _ hi)
        · unfold wake
          split
          · exact hd.setMoveState (hms m List.mem_cons_self) .worklist
          · exact hd
  have hnodes : ∀ (ns : List Nat) (d : Coloring), SameGraph c d → Lists d →
      Lists (d.enableMoves ns) := by
    intro ns
    induction ns with
    | nil => exact fun _ _ hd => hd
    | cons n ns ih =>
        intro d hcd hd
        have hstep : d.enableMoves [n] = d.enableNodeMoves n := rfl
        refine ih _ (hcd.trans (hstep ▸ (enabled_enableMoves d [n]).toSameGraph)) ?_
        rw [enableNodeMoves_eq]
        refine hmoves _ d ?_ hd
        intro m hm
        rw [hcd.moves]
        exact hlt n m (hcd.moveList ▸ (List.mem_filter.1 hm).1)
  exact hnodes ns c (.refl c) h

end Lists

end Coloring

end TreeCompiler
