import TreeCompiler.Temp

/-!
# SortedSet — finite sets kept as increasing lists

Live sets, worklists and spill lists are read in increasing order, so a set is the increasing list
of its members.  Two sets with the same members are equal (`SortedSet.ext`), and each operation has
one membership lemma.
-/

namespace TreeCompiler

/-! ## Members are compared by a number -/

/-- Types whose values are told apart by a number. -/
class Keyed (α : Type) where
  key : α → Nat
  key_injective : ∀ {a b : α}, key a = key b → a = b

instance : Keyed Nat := ⟨id, fun h => h⟩

instance : Keyed Temp := ⟨Temp.id, fun {a b} h => by cases a; cases b; simp_all⟩

open Keyed (key)

/-- An increasing list. -/
structure SortedSet (α : Type) [Keyed α] where
  toList : List α
  increasing : toList.Pairwise fun a b => key a < key b

namespace SortedSet

variable {α : Type} [Keyed α]

instance : Membership α (SortedSet α) := ⟨fun s a => a ∈ s.toList⟩

theorem mem_toList {s : SortedSet α} {a : α} : a ∈ s.toList ↔ a ∈ s := Iff.rfl

def empty : SortedSet α := ⟨[], .nil⟩

instance : Inhabited (SortedSet α) := ⟨empty⟩

theorem not_mem_empty (a : α) : a ∉ (empty : SortedSet α) := by
  intro h
  cases h

def size (s : SortedSet α) : Nat := s.toList.length

def isEmpty (s : SortedSet α) : Bool := s.toList.isEmpty

/-- The least member. -/
def min? (s : SortedSet α) : Option α := s.toList.head?

def contains (s : SortedSet α) (a : α) : Bool := s.toList.any fun b => key b == key a

theorem contains_iff {s : SortedSet α} {a : α} : s.contains a = true ↔ a ∈ s := by
  simp only [contains, List.any_eq_true, beq_iff_eq]
  constructor
  · rintro ⟨b, hb, h⟩
    exact Keyed.key_injective h ▸ hb
  · intro h
    exact ⟨a, h, rfl⟩

instance (a : α) (s : SortedSet α) : Decidable (a ∈ s) := decidable_of_iff _ contains_iff

/-! ## Insertion -/

/-- Put a member where it belongs in an increasing list. -/
def place (a : α) : List α → List α
  | [] => [a]
  | b :: r =>
      if key a < key b then a :: b :: r
      else if key b < key a then b :: place a r
      else b :: r

theorem mem_place {a x : α} {l : List α} : x ∈ place a l ↔ x = a ∨ x ∈ l := by
  induction l with
  | nil => simp [place]
  | cons b r ih =>
      unfold place
      split
      · simp
      · split
        · simp [ih, or_left_comm]
        · rename_i h₁ h₂
          have : a = b := Keyed.key_injective (by omega)
          simp [this]

theorem increasing_place {a : α} {l : List α} (h : l.Pairwise fun a b => key a < key b) :
    (place a l).Pairwise fun a b => key a < key b := by
  induction l with
  | nil => simp [place]
  | cons b r ih =>
      rw [List.pairwise_cons] at h
      unfold place
      split
      · rename_i hab
        refine List.pairwise_cons.2 ⟨?_, List.pairwise_cons.2 h⟩
        intro x hx
        rcases List.mem_cons.1 hx with rfl | hx
        · exact hab
        · exact Nat.lt_trans hab (h.1 x hx)
      · split
        · rename_i hba
          refine List.pairwise_cons.2 ⟨?_, ih h.2⟩
          intro x hx
          rcases mem_place.1 hx with rfl | hx
          · exact hba
          · exact h.1 x hx
        · exact List.pairwise_cons.2 h

def insert (s : SortedSet α) (a : α) : SortedSet α :=
  ⟨place a s.toList, increasing_place s.increasing⟩

theorem mem_insert {s : SortedSet α} {a x : α} : x ∈ s.insert a ↔ x = a ∨ x ∈ s := mem_place

def ofList (l : List α) : SortedSet α := l.foldl insert empty

theorem mem_foldl_insert {l : List α} {s : SortedSet α} {x : α} :
    x ∈ l.foldl insert s ↔ x ∈ l ∨ x ∈ s := by
  induction l generalizing s with
  | nil => simp
  | cons a r ih => simp [ih, mem_insert, or_left_comm, or_assoc]

theorem mem_ofList {l : List α} {x : α} : x ∈ ofList l ↔ x ∈ l := by
  simp [ofList, mem_foldl_insert, not_mem_empty]

/-! ## Removal -/

/-- The members that pass a test. -/
def filter (s : SortedSet α) (p : α → Bool) : SortedSet α :=
  ⟨s.toList.filter p, s.increasing.filter p⟩

theorem mem_filter {s : SortedSet α} {p : α → Bool} {x : α} :
    x ∈ s.filter p ↔ x ∈ s ∧ p x = true := List.mem_filter

def erase (s : SortedSet α) (a : α) : SortedSet α := s.filter fun b => key b != key a

theorem mem_erase {s : SortedSet α} {a x : α} : x ∈ s.erase a ↔ x ∈ s ∧ x ≠ a := by
  have : key x ≠ key a ↔ x ≠ a :=
    ⟨fun h e => h (e ▸ rfl), fun h e => h (Keyed.key_injective e)⟩
  simp [erase, mem_filter, this]

/-! ## Inclusion -/

/-- Whether each member of an increasing list is in another one. -/
def included : List α → List α → Bool
  | [], _ => true
  | _ :: _, [] => false
  | x :: xs, y :: ys =>
      if key x < key y then false
      else if key y < key x then included (x :: xs) ys
      else included xs ys
  termination_by xs ys => xs.length + ys.length

theorem included_iff {xs ys : List α} (hx : xs.Pairwise fun a b => key a < key b)
    (hy : ys.Pairwise fun a b => key a < key b) :
    included xs ys = true ↔ ∀ a ∈ xs, a ∈ ys := by
  fun_induction included xs ys with
  | case1 => simp
  | case2 x xs =>
      exact iff_of_false (by simp) fun h => List.not_mem_nil (h x List.mem_cons_self)
  | case3 x xs y ys h =>
      simp only [Bool.false_eq_true, false_iff]
      intro hall
      rcases List.mem_cons.1 (hall x List.mem_cons_self) with rfl | hm
      · omega
      · have := (List.pairwise_cons.1 hy).1 x hm
        omega
  | case4 x xs y ys h₁ h₂ ih =>
      -- all members of the first list are above the head of the second
      rw [ih hx (List.pairwise_cons.1 hy).2]
      refine forall₂_congr fun a ha => ⟨List.mem_cons_of_mem _, fun hm => ?_⟩
      rcases List.mem_cons.1 hm with rfl | hm
      · rcases List.mem_cons.1 ha with rfl | ha
        · omega
        · have := (List.pairwise_cons.1 hx).1 a ha
          omega
      · exact hm
  | case5 x xs y ys h₁ h₂ ih =>
      have hxy : x = y := Keyed.key_injective (by omega)
      subst hxy
      rw [ih (List.pairwise_cons.1 hx).2 (List.pairwise_cons.1 hy).2]
      constructor
      · intro hall a ha
        rcases List.mem_cons.1 ha with rfl | ha
        · exact List.mem_cons_self
        · exact List.mem_cons_of_mem _ (hall a ha)
      · intro hall a ha
        rcases List.mem_cons.1 (hall a (List.mem_cons_of_mem _ ha)) with rfl | hm
        · exact absurd ((List.pairwise_cons.1 hx).1 a ha) (Nat.lt_irrefl _)
        · exact hm

def isSubset (s t : SortedSet α) : Bool := included s.toList t.toList

theorem isSubset_iff {s t : SortedSet α} : s.isSubset t = true ↔ ∀ a ∈ s, a ∈ t :=
  included_iff s.increasing t.increasing

/-! ## Union -/

/-- Merge two increasing lists. -/
def merge : List α → List α → List α
  | [], ys => ys
  | x :: xs, [] => x :: xs
  | x :: xs, y :: ys =>
      if key x < key y then x :: merge xs (y :: ys)
      else if key y < key x then y :: merge (x :: xs) ys
      else x :: merge xs ys
  termination_by xs ys => xs.length + ys.length

theorem mem_merge {xs ys : List α} {a : α} : a ∈ merge xs ys ↔ a ∈ xs ∨ a ∈ ys := by
  fun_induction merge xs ys with
  | case1 => simp
  | case2 => simp
  | case3 x xs y ys _ ih => simp [ih, or_assoc]
  | case4 x xs y ys _ _ ih =>
      simp [ih]
      grind
  | case5 x xs y ys h₁ h₂ ih =>
      have : x = y := Keyed.key_injective (by omega)
      subst this
      simp [ih]
      grind

theorem increasing_merge {xs ys : List α} (hx : xs.Pairwise fun a b => key a < key b)
    (hy : ys.Pairwise fun a b => key a < key b) :
    (merge xs ys).Pairwise fun a b => key a < key b := by
  fun_induction merge xs ys with
  | case1 => exact hy
  | case2 => exact hx
  | case3 x xs y ys h ih =>
      have hx' := List.pairwise_cons.1 hx
      have hy' := List.pairwise_cons.1 hy
      refine List.pairwise_cons.2 ⟨?_, ih hx'.2 hy⟩
      intro a ha
      rcases mem_merge.1 ha with ha | ha
      · exact hx'.1 a ha
      · rcases List.mem_cons.1 ha with rfl | ha
        · exact h
        · exact Nat.lt_trans h (hy'.1 a ha)
  | case4 x xs y ys _ h ih =>
      have hx' := List.pairwise_cons.1 hx
      have hy' := List.pairwise_cons.1 hy
      refine List.pairwise_cons.2 ⟨?_, ih hx hy'.2⟩
      intro a ha
      rcases mem_merge.1 ha with ha | ha
      · rcases List.mem_cons.1 ha with rfl | ha
        · exact h
        · exact Nat.lt_trans h (hx'.1 a ha)
      · exact hy'.1 a ha
  | case5 x xs y ys h₁ h₂ ih =>
      have hx' := List.pairwise_cons.1 hx
      have hy' := List.pairwise_cons.1 hy
      have hxy : key x = key y := by omega
      refine List.pairwise_cons.2 ⟨?_, ih hx'.2 hy'.2⟩
      intro a ha
      rcases mem_merge.1 ha with ha | ha
      · exact hx'.1 a ha
      · rw [hxy]
        exact hy'.1 a ha

def union (s t : SortedSet α) : SortedSet α :=
  ⟨merge s.toList t.toList, increasing_merge s.increasing t.increasing⟩

theorem mem_union {s t : SortedSet α} {x : α} : x ∈ s.union t ↔ x ∈ s ∨ x ∈ t := mem_merge

/-! ## Sets are determined by their members -/

theorem ext {s t : SortedSet α} (h : ∀ x, x ∈ s ↔ x ∈ t) : s = t := by
  obtain ⟨s, hs⟩ := s
  obtain ⟨t, ht⟩ := t
  have : s = t := by
    induction s generalizing t with
    | nil =>
        cases t with
        | nil => rfl
        | cons b r => exact absurd ((h b).2 (List.mem_cons_self)) (List.not_mem_nil)
    | cons a r ih =>
        cases t with
        | nil => exact absurd ((h a).1 (List.mem_cons_self)) (List.not_mem_nil)
        | cons b q =>
            have hs' := List.pairwise_cons.1 hs
            have ht' := List.pairwise_cons.1 ht
            -- each head is at least the other one, as both lists have both
            have hab : a = b := by
              rcases List.mem_cons.1 ((h a).1 (List.mem_cons_self)) with e | ha
              · exact e
              · rcases List.mem_cons.1 ((h b).2 (List.mem_cons_self)) with e | hb
                · exact e.symm
                · exact absurd (Nat.lt_trans (hs'.1 b hb) (ht'.1 a ha)) (Nat.lt_irrefl _)
            subst hab
            have htail : ∀ x, x ∈ r ↔ x ∈ q := by
              intro x
              constructor
              · intro hx
                rcases List.mem_cons.1 ((h x).1 (List.mem_cons_of_mem _ hx)) with e | hq
                · exact absurd (e ▸ hs'.1 x hx) (Nat.lt_irrefl _)
                · exact hq
              · intro hx
                rcases List.mem_cons.1 ((h x).2 (List.mem_cons_of_mem _ hx)) with e | hr
                · exact absurd (e ▸ ht'.1 x hx) (Nat.lt_irrefl _)
                · exact hr
            rw [ih hs'.2 q ht'.2 htail]
  subst this
  rfl

/-! ## Sizes -/

theorem nodup (s : SortedSet α) : s.toList.Nodup := by
  refine s.increasing.imp ?_
  intro a b hab heq
  exact absurd (heq ▸ hab) (Nat.lt_irrefl _)

theorem size_le_of_subset {s t : SortedSet α} (h : ∀ x ∈ s, x ∈ t) : s.size ≤ t.size :=
  s.nodup.length_le_of_subset h

/-- A set within another one of the same size is that set. -/
theorem eq_of_subset {s t : SortedSet α} (h : ∀ x ∈ s, x ∈ t) (hsize : t.size = s.size) :
    s = t := by
  refine ext fun x => ⟨h x, fun hx => ?_⟩
  by_cases hxs : x ∈ s
  · exact hxs
  · -- then `s` would even fit into `t` without `x`
    have hle : s.size ≤ (t.erase x).size := by
      refine size_le_of_subset fun y hy => mem_erase.2 ⟨h y hy, ?_⟩
      intro heq
      exact hxs (heq ▸ hy)
    have hlt : (t.erase x).size < t.size :=
      List.length_filter_lt_length_iff_exists.2 ⟨x, hx, by simp⟩
    omega

end SortedSet

end TreeCompiler
