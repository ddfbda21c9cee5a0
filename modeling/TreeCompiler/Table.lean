/-!
# Table — a value for every number, of which finitely many were set

Facts about nodes and moves are kept by number.  A table answers for every number, with a default
where nothing was set, so that reading and writing obey one law without side conditions
(`Table.get_set`).
-/

namespace TreeCompiler

structure Table (α : Type) where
  entries : Array α
  default : α

namespace Table

variable {α : Type}

def constant (a : α) : Table α := ⟨#[], a⟩

instance [Inhabited α] : Inhabited (Table α) := ⟨constant Inhabited.default⟩

def get (t : Table α) (i : Nat) : α := t.entries.getD i t.default

/-- Extend an array with a value up to a size. -/
def extend (a : Array α) (d : α) (size : Nat) : Array α :=
  a ++ Array.replicate (size - a.size) d

def set (t : Table α) (i : Nat) (a : α) : Table α :=
  if i < t.entries.size then ⟨t.entries.setIfInBounds i a, t.default⟩
  else ⟨(extend t.entries t.default i).push a, t.default⟩

def modify (t : Table α) (i : Nat) (f : α → α) : Table α := t.set i (f (t.get i))

def ofList (d : α) (l : List α) : Table α := ⟨l.toArray, d⟩

theorem get_constant (a : α) (i : Nat) : (constant a).get i = a := rfl

theorem get_set (t : Table α) (i j : Nat) (a : α) :
    (t.set i a).get j = if j = i then a else t.get j := by
  unfold set
  split
  · rename_i hi
    by_cases h : j = i
    · subst h
      simp [get, hi]
    · simp [get, h, Ne.symm h]
  · rename_i hi
    have hsize : (extend t.entries t.default i).size = i := by
      simp only [extend, Array.size_append, Array.size_replicate]
      omega
    simp only [get, Array.getD_eq_getD_getElem?, Array.getElem?_push, hsize]
    by_cases h : j = i
    · simp [h]
    · simp only [h, if_false]
      unfold extend
      rw [Array.getElem?_append]
      split
      · rfl
      · rename_i hj
        rw [Array.getElem?_replicate, Array.getElem?_eq_none (by omega)]
        split <;> rfl

/-- What the new entry and the old ones have, all entries have. -/
theorem forall_get_set {P : Nat → α → Prop} {t : Table α} {i : Nat} {a : α} (hnew : P i a)
    (hold : ∀ j, P j (t.get j)) (j : Nat) : P j ((t.set i a).get j) := by
  rw [get_set]
  split
  · rename_i hj
    exact hj ▸ hnew
  · exact hold j

theorem get_modify (t : Table α) (i j : Nat) (f : α → α) :
    (t.modify i f).get j = if j = i then f (t.get i) else t.get j := get_set t i j _

theorem get_ofList (d : α) (l : List α) (i : Nat) : (ofList d l).get i = l.getD i d := by
  simp [ofList, get, Array.getD_eq_getD_getElem?, List.getD_eq_getElem?_getD]

end Table

end TreeCompiler
