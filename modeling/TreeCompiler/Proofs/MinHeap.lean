import Mathlib.Order.Bounds.Basic
import TreeCompiler.MinHeap

/-!
# MinHeap — the least number that is not in the bag

The answer is not in the bag, and all lower numbers are (`smallestAbsent_spec`).  What is in the bag
is known without its order: pushes add a number, and a pop takes one least number out
(`perm_contents`).
-/

namespace TreeCompiler

namespace MinHeap

theorem mem_push {h : MinHeap} {n x : Nat} : x ∈ (h.push n).items ↔ x = n ∨ x ∈ h.items := mem_place

/-- The gap is at least where the search starts, and the list holds what is in between. -/
theorem firstGap_spec {l : List Nat} (hl : l.Pairwise (· ≤ ·)) (least : Nat) :
    least ≤ (firstGap least l).1 ∧ (firstGap least l).1 ∉ l
      ∧ ∀ x, least ≤ x → x < (firstGap least l).1 → x ∈ l := by
  induction l generalizing least with
  | nil =>
      refine ⟨Nat.le_refl _, List.not_mem_nil, ?_⟩
      intro x hle hlt
      exact absurd hle (Nat.not_le_of_lt hlt)
  | cons n r ih =>
      rw [List.pairwise_cons] at hl
      unfold firstGap
      by_cases hgap : least < n
      · -- all numbers of the list are greater
        rw [if_pos hgap]
        refine ⟨Nat.le_refl _, ?_, ?_⟩
        · intro hmem
          rcases List.mem_cons.1 hmem with e | hr
          · exact Nat.ne_of_lt hgap e
          · exact Nat.not_le_of_lt hgap (hl.1 _ hr)
        · intro x hle hlt
          exact absurd hle (Nat.not_le_of_lt hlt)
      · rw [if_neg hgap]
        by_cases hn : n = least
        · -- the number is there, so the search goes on for the next one
          obtain ⟨hge, hnot, hbelow⟩ := ih hl.2 (least + 1)
          rw [if_pos hn]
          refine ⟨Nat.le_of_succ_le hge, ?_, ?_⟩
          · intro hmem
            rcases List.mem_cons.1 hmem with e | hr
            · rw [e, hn] at hge
              exact Nat.not_succ_le_self _ hge
            · exact hnot hr
          · intro x hle hlt
            rcases Nat.eq_or_lt_of_le hle with e | hlt'
            · exact List.mem_cons.2 (.inl (e.symm.trans hn.symm))
            · exact List.mem_cons_of_mem _ (hbelow x hlt' hlt)
        · -- a number below the one searched for does not matter
          obtain ⟨hge, hnot, hbelow⟩ := ih hl.2 least
          rw [if_neg hn]
          refine ⟨hge, ?_, ?_⟩
          · intro hmem
            rcases List.mem_cons.1 hmem with e | hr
            · omega
            · exact hnot hr
          · intro x hle hlt
            exact List.mem_cons_of_mem _ (hbelow x hle hlt)

/-- The answer is the least number that is not in the bag. -/
theorem smallestAbsent_spec (h : MinHeap) :
    h.smallestAbsent.1 ∉ h.items ∧ ∀ x, x < h.smallestAbsent.1 → x ∈ h.items := by
  obtain ⟨_, hnot, hbelow⟩ := firstGap_spec h.increasing 0
  exact ⟨hnot, fun x hx => hbelow x (Nat.zero_le x) hx⟩

theorem smallestAbsent_isLeast (h : MinHeap) :
    IsLeast {x | x ∉ h.items} h.smallestAbsent.1 := by
  obtain ⟨hnot, hbelow⟩ := h.smallestAbsent_spec
  refine ⟨hnot, ?_⟩
  intro x hx
  exact Nat.le_of_not_lt fun hlt => hx (hbelow x hlt)

/-- There is a gap among as many numbers as a list that covers the bag has, and one more. -/
theorem smallestAbsent_le_length (h : MinHeap) {l : List Nat} (hl : ∀ x ∈ h.items, x ∈ l) :
    h.smallestAbsent.1 ≤ l.length := by
  have hsub : List.range h.smallestAbsent.1 ⊆ l := by
    intro x hx
    exact hl x (h.smallestAbsent_spec.2 x (List.mem_range.1 hx))
  simpa using List.nodup_range.length_le_of_subset hsub

/-! ## Pushes and pops -/

/-- What can be done with a bag. -/
inductive Op
  | push (n : Nat)
  | pop

/-- A pop of the empty bag leaves it empty. -/
def apply (h : MinHeap) : Op → MinHeap
  | .push n => h.push n
  | .pop => (h.pop?.map Prod.snd).getD h

/-- The bag after pushes and pops, the first one first. -/
def after (ops : List Op) : MinHeap := ops.foldl apply empty

/-- What an operation does to numbers in no order: a pop takes out one of the least. -/
def Op.change (l : List Nat) : Op → List Nat
  | .push n => n :: l
  | .pop => (l.min?.map l.erase).getD l

/-- The numbers that are in a bag after pushes and pops. -/
def contents (ops : List Op) : List Nat := ops.foldl Op.change []

theorem perm_place (n : Nat) (l : List Nat) : (place n l).Perm (n :: l) := by
  induction l with
  | nil => exact .refl _
  | cons m r ih =>
      unfold place
      split
      · exact .refl _
      · exact (ih.cons m).trans (.swap n m r)

theorem perm_apply {h : MinHeap} {l : List Nat} (hl : h.items.Perm l) (op : Op) :
    (h.apply op).items.Perm (op.change l) := by
  cases op with
  | push n => exact (perm_place n h.items).trans (hl.cons n)
  | pop =>
      rcases h with ⟨items, hincreasing⟩
      cases items with
      | nil =>
          cases hl.nil_eq
          exact .refl _
      | cons n r =>
          -- the first of the increasing numbers is the least of them in any order
          have hle : ∀ x ∈ l, n ≤ x := by
            intro x hx
            rcases List.mem_cons.1 (hl.mem_iff.2 hx) with rfl | hr
            · exact Nat.le_refl _
            · exact (List.pairwise_cons.1 hincreasing).1 x hr
          have hmin : l.min? = some n :=
            List.min?_eq_some_iff.2 ⟨hl.mem_iff.1 List.mem_cons_self, hle⟩
          have herase : r.Perm (l.erase n) := by
            simpa using hl.erase n
          simpa [apply, Op.change, pop?, hmin] using herase

/-- The bag holds what was pushed and not popped since. -/
theorem perm_contents (ops : List Op) : (after ops).items.Perm (contents ops) := by
  -- both sides are general, so that the induction can follow the operations
  have hfold : ∀ (ops : List Op) {h : MinHeap} {l : List Nat}, h.items.Perm l →
      (ops.foldl apply h).items.Perm (ops.foldl Op.change l) := by
    intro ops
    induction ops with
    | nil => exact fun hl => hl
    | cons op ops ih => exact fun hl => ih (perm_apply hl op)
  exact hfold ops (.refl [])

/-- After any pushes and pops the answer is the least number that is not there. -/
theorem smallestAbsent_after (ops : List Op) :
    IsLeast {x | x ∉ contents ops} (after ops).smallestAbsent.1 := by
  have hleast := (after ops).smallestAbsent_isLeast
  simpa only [(perm_contents ops).mem_iff] using hleast

example : (after [.push 1, .push 0, .push 0, .pop, .push 3]).smallestAbsent.1 = 2 := by decide

end MinHeap

end TreeCompiler
