/-!
# Counting — numbers with a property

Lists of nodes and moves are compared by length, and runs end because a count goes down.
-/

namespace TreeCompiler

/-- One number more has the property. -/
theorem countP_range_succ_of_update {p q : Nat → Bool} {n v : Nat} (hv : v < n)
    (hp : p v = false) (hq : q v = true) (h : ∀ i, i ≠ v → q i = p i) :
    (List.range n).countP q = (List.range n).countP p + 1 := by
  induction n with
  | zero => exact absurd hv (Nat.not_lt_zero v)
  | succ n ih =>
      rw [List.range_succ, List.countP_append, List.countP_append]
      by_cases hvn : v = n
      · subst hvn
        have hsame : (List.range v).countP q = (List.range v).countP p := by
          refine List.countP_congr ?_
          intro i hi
          rw [h i (Nat.ne_of_lt (List.mem_range.1 hi))]
        simp [hsame, hp, hq]
      · have hlt : v < n := Nat.lt_of_le_of_ne (Nat.lt_succ_iff.1 hv) hvn
        have hlast : [n].countP q = [n].countP p := by
          simp [List.countP_cons, h n (Ne.symm hvn)]
        rw [ih hlt, hlast, Nat.add_right_comm]

/-- A list without repetitions is as long as there are numbers to be in it. -/
theorem length_eq_countP_range {l : List Nat} {n : Nat} {p : Nat → Bool} (hl : l.Nodup)
    (h : ∀ i, i ∈ l ↔ i < n ∧ p i = true) : l.length = (List.range n).countP p := by
  have hfilter : ((List.range n).filter p).Nodup := List.nodup_range.filter p
  rw [List.countP_eq_length_filter]
  refine Nat.le_antisymm (hl.length_le_of_subset ?_) (hfilter.length_le_of_subset ?_)
  · intro i hi
    have hi' := (h i).1 hi
    exact List.mem_filter.2 ⟨List.mem_range.2 hi'.1, hi'.2⟩
  · intro i hi
    have hi' := List.mem_filter.1 hi
    exact (h i).2 ⟨List.mem_range.1 hi'.1, hi'.2⟩

end TreeCompiler
