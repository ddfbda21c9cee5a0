import TreeCompiler.Proofs.Counting
import TreeCompiler.Proofs.Coloring.Frame

/-!
# Coloring aliases — the node that stands for a node

A merged node points to the node it was merged into.  Following these pointers ends, at a node that
was not merged, within as many steps as nodes were merged (`Aliases`).  Merging one node into
another one changes the answer exactly where the first one was the answer (`representative_link`).
-/

namespace TreeCompiler

namespace Coloring

variable {c d : Coloring}

/-- How many nodes were merged into others. -/
def mergedCount (c : Coloring) : Nat := c.nodes.countP fun n => c.state.get n = .coalesced

/-- Merged nodes lead to a node that was not merged. -/
def Aliases (c : Coloring) : Prop :=
  ∀ n, c.state.get (c.representativeWithin c.mergedCount n) ≠ .coalesced

/-- Let `u` stand for `v`. -/
def link (c : Coloring) (u v : Nat) : Coloring :=
  { c.setState v .coalesced with mergedInto := c.mergedInto.set v u }

/-! ## Following pointers -/

theorem representativeWithin_stable {steps more n : Nat} (hle : steps ≤ more)
    (h : c.state.get (c.representativeWithin steps n) ≠ .coalesced) :
    c.representativeWithin more n = c.representativeWithin steps n := by
  induction steps generalizing n more with
  | zero =>
      cases more with
      | zero => rfl
      | succ more => exact if_neg h
  | succ steps ih =>
      cases more with
      | zero => exact absurd hle (Nat.not_succ_le_zero steps)
      | succ more =>
          simp only [representativeWithin] at h ⊢
          by_cases hn : c.state.get n = .coalesced
          · rw [if_pos hn] at h ⊢
            rw [if_pos hn]
            exact ih (Nat.le_of_succ_le_succ hle) h
          · rw [if_neg hn, if_neg hn]

namespace Aliases

theorem mergedCount_le (c : Coloring) : c.mergedCount ≤ c.size := by
  have h := List.countP_le_length (p := fun n => decide (c.state.get n = .coalesced)) (l := c.nodes)
  simpa [mergedCount, nodes] using h

theorem representative_eq (h : Aliases c) (n : Nat) :
    c.representative n = c.representativeWithin c.mergedCount n :=
  representativeWithin_stable (mergedCount_le c) (h n)

theorem not_coalesced (h : Aliases c) (n : Nat) :
    c.state.get (c.representative n) ≠ .coalesced := by
  rw [h.representative_eq]
  exact h n

end Aliases

theorem representative_of_not_coalesced {n : Nat} (h : c.state.get n ≠ .coalesced) :
    c.representative n = n :=
  representativeWithin_stable (Nat.zero_le _)
    (show c.state.get (c.representativeWithin 0 n) ≠ _ from h)

/-- A merged node is represented as the node it was merged into. -/
theorem Aliases.representative_of_coalesced (h : Aliases c) {n : Nat}
    (hn : c.state.get n = .coalesced) :
    c.representative n = c.representative (c.mergedInto.get n) := by
  have hsteps := representativeWithin_stable (Nat.le_succ c.mergedCount) (h n)
  calc
    c.representative n = c.representativeWithin c.mergedCount n := h.representative_eq n
    _ = c.representativeWithin (c.mergedCount + 1) n := hsteps.symm
    _ = c.representativeWithin c.mergedCount (c.mergedInto.get n) := by
          simp only [representativeWithin, if_pos hn]
    _ = c.representative (c.mergedInto.get n) := (h.representative_eq _).symm

theorem Aliases.representative_idem (h : Aliases c) (n : Nat) :
    c.representative (c.representative n) = c.representative n :=
  representative_of_not_coalesced (h.not_coalesced n)

theorem SameGraph.aliases (hcd : SameGraph c d) (h : Aliases c) : Aliases d := by
  have hcount : d.mergedCount = c.mergedCount := by
    simp only [mergedCount, hcd.nodes, hcd.state_iff (s := .coalesced) rfl]
  intro n hn
  rw [hcount, hcd.representativeWithin, hcd.state_iff (s := .coalesced) rfl] at hn
  exact h n hn

/-- States other than that of merged nodes do not matter. -/
theorem representativeWithin_setState {n : Nat} {s : NodeState} (hn : c.state.get n ≠ .coalesced)
    (hs : s ≠ .coalesced) (steps i : Nat) :
    (c.setState n s).representativeWithin steps i = c.representativeWithin steps i := by
  refine representativeWithin_congr (fun i => ?_) (by simp) steps i
  rw [state_setState]
  split
  · rename_i hi
    exact iff_of_false hs (hi ▸ hn)
  · exact Iff.rfl

theorem representative_setState {n : Nat} {s : NodeState} (hn : c.state.get n ≠ .coalesced)
    (hs : s ≠ .coalesced) (i : Nat) : (c.setState n s).representative i = c.representative i := by
  simp only [representative, size_setState, representativeWithin_setState hn hs]

theorem aliases_setState {n : Nat} {s : NodeState} (hn : c.state.get n ≠ .coalesced)
    (hs : s ≠ .coalesced) (h : Aliases c) : Aliases (c.setState n s) := by
  have hiff : ∀ i, (c.setState n s).state.get i = .coalesced ↔ c.state.get i = .coalesced := by
    intro i
    rw [state_setState]
    split
    · rename_i hi
      exact iff_of_false hs (hi ▸ hn)
    · exact Iff.rfl
  have hcount : (c.setState n s).mergedCount = c.mergedCount := by
    simp only [mergedCount, nodes, size_setState, hiff]
  intro i
  rw [hcount, representativeWithin_setState hn hs, ne_eq, hiff]
  exact h i

/-- Colors do not matter. -/
theorem representativeWithin_setColor (c : Coloring) (color : Table (Option Nat)) (steps n : Nat) :
    ({ c with color } : Coloring).representativeWithin steps n = c.representativeWithin steps n :=
  representativeWithin_congr (c := c) (d := { c with color }) (fun _ => Iff.rfl) rfl steps n

theorem representative_setColor (c : Coloring) (color : Table (Option Nat)) (n : Nat) :
    ({ c with color } : Coloring).representative n = c.representative n :=
  representativeWithin_setColor c color c.size n

theorem Aliases.setColor (h : Aliases c) (color : Table (Option Nat)) :
    Aliases ({ c with color } : Coloring) := by
  intro n
  rw [representativeWithin_setColor]
  exact h n

/-! ## Merging two nodes -/

section Link

variable {u v : Nat}

theorem state_link (c : Coloring) (u v i : Nat) :
    (c.link u v).state.get i = if i = v then .coalesced else c.state.get i :=
  state_setState c v i .coalesced

theorem mergedInto_link (c : Coloring) (u v i : Nat) :
    (c.link u v).mergedInto.get i = if i = v then u else c.mergedInto.get i :=
  Table.get_set c.mergedInto v i u

theorem size_link (c : Coloring) (u v : Nat) : (c.link u v).size = c.size := size_setState c v _

theorem mergedCount_link (hlt : v < c.size) (hv : c.state.get v ≠ .coalesced) :
    (c.link u v).mergedCount = c.mergedCount + 1 := by
  simp only [mergedCount, nodes, size_link]
  refine countP_range_succ_of_update hlt (by simpa using hv) (by simp [state_link]) ?_
  intro i hi
  simp [state_link, hi]

/-- One more step is enough, and it leads from `v` to `u`. -/
theorem representativeWithin_link (hu : c.state.get u ≠ .coalesced)
    (hv : c.state.get v ≠ .coalesced) (huv : u ≠ v) {steps n : Nat}
    (h : c.state.get (c.representativeWithin steps n) ≠ .coalesced) :
    (c.link u v).representativeWithin (steps + 1) n
      = if c.representativeWithin steps n = v then u else c.representativeWithin steps n := by
  have hend : ∀ steps, (c.link u v).representativeWithin steps u = u := by
    intro steps
    cases steps with
    | zero => rfl
    | succ steps => simp [representativeWithin, state_link, huv, hu]
  -- a node that was not merged before leads to itself, except for `v`
  have hleaf : ∀ steps n, c.state.get n ≠ .coalesced →
      (c.link u v).representativeWithin (steps + 1) n = if n = v then u else n := by
    intro steps n hn
    by_cases hnv : n = v
    · simp [representativeWithin, state_link, mergedInto_link, hnv, hend]
    · simp [representativeWithin, state_link, hnv, hn]
  induction steps generalizing n with
  | zero => exact hleaf 0 n h
  | succ steps ih =>
      by_cases hn : c.state.get n = .coalesced
      · have hnv : n ≠ v := fun e => hv (e ▸ hn)
        have hstep : c.representativeWithin (steps + 1) n
            = c.representativeWithin steps (c.mergedInto.get n) := by
          simp [representativeWithin, hn]
        have hlink : (c.link u v).representativeWithin (steps + 1 + 1) n
            = (c.link u v).representativeWithin (steps + 1) (c.mergedInto.get n) := by
          simp [representativeWithin, state_link, mergedInto_link, hnv, hn]
        rw [hlink, hstep]
        exact ih (hstep ▸ h)
      · have hstep : c.representativeWithin (steps + 1) n = n := by
          simp [representativeWithin, hn]
        rw [hstep]
        exact hleaf _ n hn

variable (ha : Aliases c) (hlt : v < c.size) (hu : c.state.get u ≠ .coalesced)
  (hv : c.state.get v ≠ .coalesced) (huv : u ≠ v)

include ha hlt hu hv huv

theorem aliases_link : Aliases (c.link u v) := by
  intro n
  rw [mergedCount_link hlt hv, representativeWithin_link hu hv huv (ha n), state_link]
  by_cases hn : c.representativeWithin c.mergedCount n = v
  · rw [if_pos hn, if_neg huv]
    exact hu
  · rw [if_neg hn, if_neg hn]
    exact ha n

theorem representative_link (n : Nat) :
    (c.link u v).representative n = if c.representative n = v then u else c.representative n := by
  have hlink := aliases_link ha hlt hu hv huv
  rw [hlink.representative_eq, mergedCount_link hlt hv, representativeWithin_link hu hv huv (ha n),
    ha.representative_eq]

end Link

end Coloring

end TreeCompiler
