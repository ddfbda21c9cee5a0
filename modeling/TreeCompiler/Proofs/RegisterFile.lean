import Mathlib.Data.List.Nodup
import TreeCompiler.Machine.Basic

/-!
# Register files — what the laws of a machine say of its registers

The registers are numbered, the allocatable ones first and the two reserved ones behind them
(`isReserved_iff_colors_le`).  By their numbers, registers and names are found from each other
(`registerNamed?_eq_some_iff`), and so are allocatable registers and colors
(`colorOf?_eq_some_iff`). -/

namespace TreeCompiler

namespace Machine

variable {m : Machine} {names : List String} {name : String} {t : Temp} {i x : Nat}

/-! ## Allocatable and reserved registers -/

theorem isReserved_iff : m.isReserved t = true ↔ t = m.framePointer ∨ t = m.stackPointer := by
  simp [isReserved]

theorem isRegister_of_isReserved (h : m.isReserved t = true) : m.isRegister t = true := by
  rcases isReserved_iff.1 h with rfl | rfl
  · exact m.isRegister_framePointer
  · exact m.isRegister_stackPointer

/-- The reserved registers come behind the allocatable ones. -/
theorem isReserved_iff_colors_le (h : m.isRegister t = true) :
    m.isReserved t = true ↔ m.colors ≤ t.id := by
  rcases t with ⟨id⟩
  have hlt : id < m.colors + 2 := isRegister_iff.1 h
  rw [isReserved_iff, framePointer, stackPointer, Temp.mk.injEq, Temp.mk.injEq]
  show id = m.colors ∨ id = m.colors + 1 ↔ m.colors ≤ id
  omega

theorem colors_le_of_isReserved (h : m.isReserved t = true) : m.colors ≤ t.id :=
  (isReserved_iff_colors_le (isRegister_of_isReserved h)).1 h

theorem lt_colors (hreg : m.isRegister t = true) (hreserved : m.isReserved t = false) :
    t.id < m.colors := by
  refine Nat.lt_of_not_le fun hle => ?_
  rw [(isReserved_iff_colors_le hreg).2 hle] at hreserved
  cases hreserved

/-! ## Names, numbers and colors -/

theorem getElem?_of_indexOf? (h : indexOf? names name = some i) : names[i]? = some name := by
  unfold indexOf? at h
  rw [List.findIdx?_eq_some_iff_getElem] at h
  obtain ⟨hlt, hname, -⟩ := h
  rw [List.getElem?_eq_getElem hlt, eq_of_beq hname]

theorem not_mem_of_indexOf? (h : indexOf? names name = none) : name ∉ names := by
  intro hmem
  have hne := List.findIdx?_eq_none_iff.1 h name hmem
  exact absurd (beq_self_eq_true name) (by rw [hne]; exact nofun)

/-- A name stands for the register that has it. -/
theorem registerNamed?_eq_some_iff :
    m.registerNamed? name = some t ↔ m.name? t = some name := by
  unfold registerNamed?
  constructor
  · intro h
    obtain ⟨i, hi, rfl⟩ := Option.map_eq_some_iff.1 h
    exact getElem?_of_indexOf? hi
  · intro h
    cases hi : indexOf? m.names name with
    | none => exact absurd (List.mem_of_getElem? h) (not_mem_of_indexOf? hi)
    | some i =>
        -- no other position has the same name
        have hsame : i = t.id :=
          (List.getElem?_inj (indexOf?_lt hi) m.names_nodup).1
            ((getElem?_of_indexOf? hi).trans h.symm)
        rw [hsame]
        rfl

theorem exists_registerNamed?_iff : (∃ t, m.registerNamed? name = some t) ↔ name ∈ m.names := by
  simp only [registerNamed?_eq_some_iff, List.mem_iff_getElem?]
  exact ⟨fun ⟨t, ht⟩ => ⟨t.id, ht⟩, fun ⟨i, hi⟩ => ⟨⟨i⟩, hi⟩⟩

theorem exists_name?_iff : (∃ name, m.name? t = some name) ↔ t.id ≤ m.colors + 1 := by
  rw [← Option.isSome_iff_exists, name?, isSome_getElem?, length_names]
  exact Nat.lt_succ_iff

theorem map_name?_registers (m : Machine) : m.registers.map m.name? = m.names.map some := by
  unfold registers
  rw [List.map_map]
  refine List.ext_getElem (by simp) fun i hi _ => ?_
  have hlt : i < m.names.length := by simpa using hi
  simp [name?, hlt]

/-- The allocatable registers come first. -/
theorem map_name?_allocatable (m : Machine) :
    m.allocatable.map m.name? = m.allocatableNames.map some := by
  unfold allocatable
  rw [List.map_map]
  refine List.ext_getElem (by simp [colors]) fun i hi _ => ?_
  have hlt : i < m.allocatableNames.length := by simpa [colors] using hi
  simp [name?, Machine.names, List.getElem?_append_left hlt, hlt]

theorem name?_framePointer (m : Machine) : m.name? m.framePointer = some m.framePointerName := by
  simp [name?, framePointer, names, colors]

theorem name?_stackPointer (m : Machine) : m.name? m.stackPointer = some m.stackPointerName := by
  simp [name?, stackPointer, names, colors]

theorem colorOf?_eq_some_iff : m.colorOf? t = some x ↔ x < m.colors ∧ m.registerOfColor x = t := by
  unfold colorOf? registerOfColor
  rcases t with ⟨id⟩
  split
  · rename_i hlt
    simp only [Option.some.injEq, Temp.mk.injEq]
    exact ⟨fun h => ⟨h ▸ hlt, h.symm⟩, fun h => h.2.symm⟩
  · rename_i hlt
    simp only [Temp.mk.injEq]
    exact iff_of_false nofun fun h => hlt (h.2 ▸ h.1)

theorem mem_allocatable_iff : t ∈ m.allocatable ↔ t.id < m.colors := by
  unfold allocatable
  rw [List.mem_map]
  constructor
  · rintro ⟨i, hi, rfl⟩
    exact List.mem_range.1 hi
  · exact fun hlt => ⟨t.id, List.mem_range.2 hlt, rfl⟩

/-! ## Registers whose values leave a procedure -/

/-- Elements that are added where they are missing are behind all others, each one once. -/
theorem exists_foldl_missing (ts l : List Temp) :
    ∃ rest, ts.foldl (fun sink t => if t ∈ sink then sink else sink ++ [t]) l = l ++ rest ∧
      rest.Sublist ts ∧ rest.Nodup ∧ ∀ t, t ∈ rest ↔ t ∈ ts ∧ t ∉ l := by
  induction ts generalizing l with
  | nil => exact ⟨[], by simp⟩
  | cons a ts ih =>
      rw [List.foldl_cons]
      by_cases ha : a ∈ l
      -- an element that is there already is passed over
      · obtain ⟨rest, heq, hsub, hnodup, hmem⟩ := ih l
        refine ⟨rest, by rw [if_pos ha, heq], hsub.cons a, hnodup, fun t => ?_⟩
        rw [hmem, List.mem_cons, or_and_right]
        exact (or_iff_right fun ⟨hta, hnot⟩ => hnot (hta ▸ ha)).symm
      · obtain ⟨rest, heq, hsub, hnodup, hmem⟩ := ih (l ++ [a])
        have hrest : a ∉ rest := fun h => ((hmem a).1 h).2 (by simp)
        refine ⟨a :: rest, ?_, hsub.cons_cons a, List.nodup_cons.2 ⟨hrest, hnodup⟩, fun t => ?_⟩
        · rw [if_neg ha, heq, List.append_assoc]
          rfl
        · rw [List.mem_cons, hmem]
          by_cases hta : t = a
          · simp [hta, ha]
          · simp [hta]

theorem exists_returnSink (m : Machine) : ∃ rest, m.returnSink = m.roles.calleeSaves ++ rest ∧
    rest.Sublist [m.stackPointer, m.roles.returnValue] ∧ rest.Nodup ∧
    ∀ t, t ∈ rest ↔ (t = m.stackPointer ∨ t = m.roles.returnValue) ∧ t ∉ m.roles.calleeSaves := by
  obtain ⟨rest, heq, hsub, hnodup, hmem⟩ :=
    exists_foldl_missing [m.stackPointer, m.roles.returnValue] m.roles.calleeSaves
  refine ⟨rest, heq, hsub, hnodup, fun t => ?_⟩
  rw [hmem, List.mem_cons, List.mem_singleton]

end Machine

end TreeCompiler
