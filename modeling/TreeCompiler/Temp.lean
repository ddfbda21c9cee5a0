import Std.Data.TreeMap

/-!
# Temp — temporaries, labels and the names given to them

A temp is a register of an unbounded register file.  The low numbers stand for the registers of
the machine, the numbers from `Temp.firstVirtual` on for values that still need a register.

- `Namer` : hands out temps and labels that were never handed out before;
- `TempMap` : values by temp, such as what each temp is called in the finished assembly.
-/

namespace TreeCompiler

/-! ## Temps and labels -/

/-- A register of the unbounded register file, known by its number. -/
structure Temp where
  id : Nat
  deriving DecidableEq, Hashable, Inhabited

/-- The name of a place in the code. -/
abbrev Label := String

namespace Temp

/-- Virtual temps are numbered from here; lower numbers belong to machine registers. -/
def firstVirtual : Nat := 100

def isVirtual (t : Temp) : Bool := firstVirtual ≤ t.id

/-- The spelling of a temp without a register: `t` and its number. -/
def display (t : Temp) : String := "t" ++ toString t.id

/-- The larger of two temps, where `none` is below every temp. -/
def max? : Option Temp → Option Temp → Option Temp
  | none, b => b
  | some a, none => some a
  | some a, some b => if a.id < b.id then some b else some a

end Temp

/-! ## Fresh names -/

/-- Numbers of the next temp and of the next label.  They are counted without end; a run is taken to
keep them below 2^32, so that a counter of 32 bits would not wrap around. -/
structure Namer where
  nextTemp : Nat := Temp.firstVirtual
  nextLabel : Nat := 0
  deriving DecidableEq

namespace Namer

/-- Continue behind a temp that is already in use. -/
def resumeAfter (n : Namer) : Option Temp → Namer
  | none => n
  | some t => { n with nextTemp := max n.nextTemp (t.id + 1) }

def freshTemp (n : Namer) : Temp × Namer :=
  (⟨n.nextTemp⟩, { n with nextTemp := n.nextTemp + 1 })

def freshLabel (n : Namer) : Label × Namer :=
  ("L" ++ toString n.nextLabel, { n with nextLabel := n.nextLabel + 1 })

theorem nextTemp_freshTemp (n : Namer) : n.freshTemp.2.nextTemp = n.nextTemp + 1 := rfl

theorem le_nextTemp_resumeAfter (n : Namer) (t : Option Temp) :
    n.nextTemp ≤ (n.resumeAfter t).nextTemp := by
  cases t with
  | none => exact Nat.le_refl _
  | some t => exact Nat.le_max_left _ _

theorem lt_nextTemp_resumeAfter (n : Namer) (t : Temp) :
    t.id < (n.resumeAfter (some t)).nextTemp :=
  Nat.lt_of_lt_of_le (Nat.lt_succ_self _) (Nat.le_max_right _ _)

end Namer

/-! ## Maps over temps -/

/-- Values by temp; a later value replaces an earlier one. -/
structure TempMap (α : Type) where
  byId : Std.TreeMap Nat α

/-- What each temp is called in the finished assembly. -/
abbrev NameMap := TempMap String

namespace TempMap

variable {α : Type}

def empty : TempMap α := ⟨∅⟩

instance : Inhabited (TempMap α) := ⟨empty⟩

def insert (m : TempMap α) (t : Temp) (a : α) : TempMap α := ⟨m.byId.insert t.id a⟩

def get? (m : TempMap α) (t : Temp) : Option α := m.byId[t.id]?

def ofList (entries : List (Temp × α)) : TempMap α :=
  entries.foldl (fun m e => m.insert e.1 e.2) empty

/-- All entries by increasing temp. -/
def entries (m : TempMap α) : List (Temp × α) :=
  m.byId.toList.map fun e => (⟨e.1⟩, e.2)

/-- The name of a temp, or its own spelling where it has no name. -/
def lookup (m : NameMap) (t : Temp) : String := (m.get? t).getD t.display

theorem get?_empty (t : Temp) : (empty : TempMap α).get? t = none := by
  simp [empty, get?]

theorem get?_insert (m : TempMap α) (t u : Temp) (a : α) :
    (m.insert t a).get? u = if t = u then some a else m.get? u := by
  by_cases h : t = u
  · simp [insert, get?, h]
  · have hid : t.id ≠ u.id := fun e => h (by cases t; cases u; simp_all)
    simp [insert, get?, Std.TreeMap.getElem?_insert, h, hid]

end TempMap

end TreeCompiler
