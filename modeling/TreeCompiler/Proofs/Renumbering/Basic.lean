import TreeCompiler.Interference

/-!
# Renumbering — temps under other numbers

A procedure is compiled with whatever temps the ones before it left over, so two compilations of it
differ in the numbers of temps.  What one has at a temp the other has at the temp of a later number,
in the same order, and the machine registers stay (`Renumbering`).  Here are the laws of sets of
temps; each pass of the compiler is then shown to work the same under other numbers.
-/

namespace TreeCompiler

/-- Other numbers for temps, in the same order.  Below the virtual temps nothing changes. -/
structure Renumbering where
  toFun : Temp → Temp
  lt_of_lt : ∀ {t u : Temp}, t.id < u.id → (toFun t).id < (toFun u).id
  eq_self : ∀ {t : Temp}, t.id < Temp.firstVirtual → toFun t = t

namespace Renumbering

instance : CoeFun Renumbering fun _ => Temp → Temp := ⟨toFun⟩

/-- The numbers that there are. -/
def refl : Renumbering := ⟨id, id, fun _ => rfl⟩

/-- Numbers from `k` on are moved up. -/
def shift (k d : Nat) (hk : Temp.firstVirtual ≤ k) : Renumbering where
  toFun t := if t.id < k then t else ⟨t.id + d⟩
  lt_of_lt {t u} h := by
    split <;> split <;> grind
  eq_self h := if_pos (Nat.lt_of_lt_of_le h hk)

variable (f : Renumbering) {t u : Temp} {m : Machine}

theorem lt_iff : (f t).id < (f u).id ↔ t.id < u.id := by
  refine ⟨fun h => ?_, f.lt_of_lt⟩
  rcases Nat.lt_trichotomy t.id u.id with hlt | heq | hgt
  · exact hlt
  · obtain rfl : t = u := Keyed.key_injective heq
    exact absurd h (Nat.lt_irrefl _)
  · exact absurd h (Nat.lt_asymm (f.lt_of_lt hgt))

@[simp] theorem eq_iff : f t = f u ↔ t = u := by
  refine ⟨fun h => Keyed.key_injective ?_, congrArg f⟩
  rcases Nat.lt_trichotomy t.id u.id with hlt | heq | hgt
  · exact absurd (h ▸ f.lt_of_lt hlt) (Nat.lt_irrefl _)
  · exact heq
  · exact absurd (h ▸ f.lt_of_lt hgt) (Nat.lt_irrefl _)

/-! ## Machine registers -/

/-- A temp that is no virtual one stays apart from the others. -/
theorem eq_low_iff (hu : u.id < Temp.firstVirtual) : f t = u ↔ t = u := by
  rw [← f.eq_iff (t := t), f.eq_self hu]

theorem id_lt_iff {k : Nat} (hk : k < Temp.firstVirtual) : (f t).id < k ↔ t.id < k := by
  have h := f.lt_iff (t := t) (u := ⟨k⟩)
  rwa [f.eq_self hk] at h

theorem eq_self_of_register (ht : m.isRegister t = true) : f t = t :=
  f.eq_self (Machine.lt_firstVirtual ht)

theorem eq_self_of_role (ht : t ∈ m.roles.all) : f t = t :=
  f.eq_self_of_register (Machine.isRegister_of_role ht)

@[simp] theorem framePointer (m : Machine) : f m.framePointer = m.framePointer :=
  f.eq_self_of_register m.isRegister_framePointer

@[simp] theorem stackPointer (m : Machine) : f m.stackPointer = m.stackPointer :=
  f.eq_self_of_register m.isRegister_stackPointer

@[simp] theorem eq_framePointer_iff : f t = m.framePointer ↔ t = m.framePointer :=
  f.eq_low_iff (Machine.lt_firstVirtual m.isRegister_framePointer)

@[simp] theorem eq_stackPointer_iff : f t = m.stackPointer ↔ t = m.stackPointer :=
  f.eq_low_iff (Machine.lt_firstVirtual m.isRegister_stackPointer)

@[simp] theorem isRegister (m : Machine) (t : Temp) : m.isRegister (f t) = m.isRegister t := by
  rw [Bool.eq_iff_iff, Machine.isRegister_iff, Machine.isRegister_iff]
  exact f.id_lt_iff m.names_lt

@[simp] theorem isReserved (m : Machine) (t : Temp) : m.isReserved (f t) = m.isReserved t := by
  simp [Machine.isReserved]

/-- Only registers have a color from the start. -/
theorem colorOf? (m : Machine) (t : Temp) : m.colorOf? (f t) = m.colorOf? t := by
  have hcolors : m.colors < Temp.firstVirtual :=
    Machine.lt_firstVirtual m.isRegister_framePointer
  unfold Machine.colorOf?
  by_cases h : t.id < m.colors
  · rw [f.eq_self (Nat.lt_trans h hcolors)]
  · rw [if_neg h, if_neg (mt (f.id_lt_iff hcolors).1 h)]

theorem map_registers (m : Machine) : m.registers.map f = m.registers := by
  refine (List.map_congr_left fun t ht => ?_).trans (List.map_id _)
  obtain ⟨n, hn, rfl⟩ := List.mem_map.1 ht
  refine f.eq_self_of_register (m := m) (Machine.isRegister_iff.2 ?_)
  rw [← Machine.length_names]
  exact List.mem_range.1 hn

theorem map_allocatable (m : Machine) : m.allocatable.map f = m.allocatable := by
  refine (List.map_congr_left fun t ht => ?_).trans (List.map_id _)
  obtain ⟨n, hn, rfl⟩ := List.mem_map.1 ht
  exact f.eq_self (Nat.lt_trans (List.mem_range.1 hn)
    (Machine.lt_firstVirtual m.isRegister_framePointer))

/-! ## Fresh temps -/

/-- From here on the namers hand out corresponding temps. -/
def Follows (f : Renumbering) (n n' : Namer) : Prop :=
  ∀ i, f ⟨n.nextTemp + i⟩ = ⟨n'.nextTemp + i⟩

variable {f} {n n' : Namer}

theorem Follows.fresh (h : f.Follows n n') : n'.freshTemp.1 = f n.freshTemp.1 := (h 0).symm

theorem Follows.next (h : f.Follows n n') : f.Follows n.freshTemp.2 n'.freshTemp.2 := by
  intro i
  have h := h (1 + i)
  rwa [← Nat.add_assoc, ← Nat.add_assoc] at h

/-- What the first namer has ahead of it is moved to where the second one is. -/
theorem follows_shift {d : Nat} (hn : Temp.firstVirtual ≤ n.nextTemp)
    (hd : n'.nextTemp = n.nextTemp + d) : (shift n.nextTemp d hn).Follows n n' := by
  intro i
  refine (if_neg (Nat.not_lt.2 (Nat.le_add_right _ _))).trans ?_
  rw [hd, Nat.add_right_comm]

end Renumbering

/-! ## Outcomes -/

/-- Both fail, or both succeed with results that correspond. -/
inductive Alike {ε δ α β : Type} (R : α → β → Prop) : Except ε α → Except δ β → Prop
  | error (e : ε) (e' : δ) : Alike R (.error e) (.error e')
  | ok {a : α} {b : β} (h : R a b) : Alike R (.ok a) (.ok b)

theorem Alike.map {ε δ α β γ γ' : Type} {R : α → β → Prop} {R' : γ → γ' → Prop} {x : Except ε α}
    {y : Except δ β} {g : α → γ} {g' : β → γ'} (h : Alike R x y)
    (hg : ∀ a b, R a b → R' (g a) (g' b)) : Alike R' (x.map g) (y.map g') := by
  cases h with
  | error e e' => exact .error e e'
  | ok h => exact .ok (hg _ _ h)

/-! ## Maps and sets of temps -/

/-- A map that gives each renumbered temp what the other one gives the temp. -/
def TempMap.Renumbered {α : Type} (f : Renumbering) (values values' : TempMap α) : Prop :=
  ∀ t, values'.get? (f t) = values.get? t

namespace TempMap

variable {α : Type} {f : Renumbering} {values values' : TempMap α}

theorem renumbered_empty : Renumbered f (empty : TempMap α) empty := fun t => by
  rw [get?_empty, get?_empty]

theorem Renumbered.insert (h : Renumbered f values values') (t : Temp) (a : α) :
    Renumbered f (values.insert t a) (values'.insert (f t) a) := by
  intro u
  rw [get?_insert, get?_insert, h u]
  simp only [f.eq_iff]

end TempMap

namespace SortedSet

variable (f : Renumbering) {s : TempSet} {t u : Temp}

/-- The set under other numbers. -/
def renumber (s : TempSet) : TempSet :=
  ⟨s.toList.map f, List.pairwise_map.2 (s.increasing.imp f.lt_of_lt)⟩

theorem toList_renumber (s : TempSet) : (s.renumber f).toList = s.toList.map f := rfl

theorem mem_renumber : u ∈ s.renumber f ↔ ∃ t ∈ s, f t = u := List.mem_map

@[simp] theorem apply_mem_renumber : f t ∈ s.renumber f ↔ t ∈ s := by
  simp [mem_renumber]

@[simp] theorem size_renumber (s : TempSet) : (s.renumber f).size = s.size := List.length_map _

theorem isEmpty_renumber (s : TempSet) : (s.renumber f).isEmpty = s.isEmpty := by
  simp [isEmpty, toList_renumber]

theorem renumber_empty : renumber f .empty = .empty := rfl

theorem contains_renumber (s : TempSet) (t : Temp) :
    (s.renumber f).contains (f t) = s.contains t := by
  rw [Bool.eq_iff_iff, contains_iff, contains_iff, apply_mem_renumber]

theorem union_renumber (s s' : TempSet) :
    (s.renumber f).union (s'.renumber f) = (s.union s').renumber f := by
  refine ext fun u => ?_
  simp only [mem_union, mem_renumber, or_and_right, exists_or]

theorem ofList_renumber (ts : List Temp) : ofList (ts.map f) = (ofList ts).renumber f := by
  refine ext fun u => ?_
  simp only [mem_ofList, mem_renumber, List.mem_map]

theorem filter_renumber {p q : Temp → Bool} (h : ∀ t, q (f t) = p t) (s : TempSet) :
    (s.renumber f).filter q = (s.filter p).renumber f := by
  have hcomp : q ∘ f = p := funext h
  simp [filter, renumber, List.filter_map, hcomp]

theorem isSubset_renumber (s s' : TempSet) :
    (s.renumber f).isSubset (s'.renumber f) = s.isSubset s' := by
  rw [Bool.eq_iff_iff, isSubset_iff, isSubset_iff]
  simp [mem_renumber]

end SortedSet

/-! ## Tables and graphs -/

namespace Table

variable {α β : Type}

/-- Another value for each number. -/
def map (g : α → β) (t : Table α) : Table β := ⟨t.entries.map g, g t.default⟩

@[simp] theorem get_map (g : α → β) (t : Table α) (i : Nat) : (t.map g).get i = g (t.get i) := by
  simp [map, get, Array.getD_eq_getD_getElem?]

theorem set_map (g : α → β) (t : Table α) (i : Nat) (a : α) :
    (t.map g).set i (g a) = (t.set i a).map g := by
  unfold set map extend
  simp only [Array.size_map]
  split <;> simp

end Table

namespace Digraph

variable {α β : Type} (h : α → β) (g : Digraph α)

/-- The same graph with other values at the nodes. -/
def map (h : α → β) (g : Digraph α) : Digraph β := ⟨g.nodes.map h, g.succs, g.preds⟩

@[simp] theorem map_empty : (empty : Digraph α).map h = empty := by
  simp [map, empty]

@[simp] theorem size_map : (g.map h).size = g.size := Array.size_map

@[simp] theorem node?_map (i : Nat) : (g.map h).node? i = (g.node? i).map h := Array.getElem?_map

theorem addNode_map (a : α) :
    (g.map h).addNode (h a) = ((g.addNode a).1, (g.addNode a).2.map h) := by
  simp [addNode, map, size]

theorem addEdge_map (i j : Nat) : (g.map h).addEdge i j = (g.addEdge i j).map h := rfl

theorem addUndirected_map (i j : Nat) :
    (g.map h).addUndirected i j = (g.addUndirected i j).map h := rfl

end Digraph

end TreeCompiler
