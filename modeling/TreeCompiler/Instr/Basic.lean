import TreeCompiler.Temp

/-!
# Instr — instructions as register allocation sees them

An instruction is a text with holes together with the temps it defines and uses and the labels it
may jump to.  Allocation looks only at the lists; the text is filled in when code is written
(`Instr.fill`).
-/

namespace TreeCompiler

/-- Where control may go after an instruction. -/
structure Jumps where
  labels : List Label
  /-- Whether control may also go on to the next instruction. -/
  fallsThrough : Bool
  deriving DecidableEq

inductive Instr
  | label (text : String) (label : Label)
  /-- Copies a source to a destination, where both are temps. -/
  | move (text : String) (dst src : Option Temp)
  | oper (text : String) (dst src : List Temp) (jumps : Option Jumps)
  deriving DecidableEq

namespace Instr

/-! ## Shapes of instructions -/

/-- The place named by a label. -/
def ofLabel (l : Label) : Instr := .label (l ++ ":") l

/-- A copy from one temp to another. -/
def copy (text : String) (dst src : Temp) : Instr := .move text (some dst) (some src)

/-- An instruction that control passes through. -/
def plain (text : String) (dst src : List Temp) : Instr := .oper text dst src none

/-- An unconditional jump to one of some labels. -/
def jump (text : String) (src : List Temp) (labels : List Label) : Instr :=
  .oper text [] src (some ⟨labels, false⟩)

/-- A jump to one of some labels, or on to the next instruction. -/
def branch (text : String) (labels : List Label) : Instr :=
  .oper text [] [] (some ⟨labels, true⟩)

/-! ## Reading an instruction -/

def text : Instr → String
  | .label text _ => text
  | .move text _ _ => text
  | .oper text _ _ _ => text

def defs : Instr → List Temp
  | .label _ _ => []
  | .move _ dst _ => dst.toList
  | .oper _ dst _ _ => dst

def uses : Instr → List Temp
  | .label _ _ => []
  | .move _ _ src => src.toList
  | .oper _ _ src _ => src

def jumps? : Instr → Option Jumps
  | .oper _ _ _ jumps => jumps
  | _ => none

def label? : Instr → Option Label
  | .label _ l => some l
  | _ => none

/-- The labels an instruction may jump to. -/
def targets (i : Instr) : List Label :=
  match i.jumps? with
  | some j => j.labels
  | none => []

def fallsThrough (i : Instr) : Bool :=
  match i.jumps? with
  | some j => j.fallsThrough
  | none => true

/-- Source and destination of a copy between temps. -/
def movePair? : Instr → Option (Temp × Temp)
  | .move _ (some dst) (some src) => some (src, dst)
  | _ => none

/-- An instruction with a source and a destination is a copy. -/
theorem eq_copy_of_movePair? {i : Instr} {src dst : Temp} (h : i.movePair? = some (src, dst)) :
    ∃ text, i = .copy text dst src := by
  cases i with
  | label => cases h
  | oper => cases h
  | move text dst' src' =>
      cases dst' <;> cases src' <;> cases h
      exact ⟨text, rfl⟩

/-! ## Renaming operands -/

/-- Put `new` in the place of `old`. -/
def replace (old new t : Temp) : Temp := if t = old then new else t

def renameUses (i : Instr) (old new : Temp) : Instr :=
  match i with
  | .label text l => .label text l
  | .move text dst src => .move text dst (src.map (replace old new))
  | .oper text dst src jumps => .oper text dst (src.map (replace old new)) jumps

def renameDefs (i : Instr) (old new : Temp) : Instr :=
  match i with
  | .label text l => .label text l
  | .move text dst src => .move text (dst.map (replace old new)) src
  | .oper text dst src jumps => .oper text (dst.map (replace old new)) src jumps

theorem uses_renameUses (i : Instr) (a b : Temp) :
    (i.renameUses a b).uses = i.uses.map (replace a b) := by
  cases i with
  | label => rfl
  | move text dst src => cases src <;> rfl
  | oper => rfl

theorem defs_renameUses (i : Instr) (a b : Temp) : (i.renameUses a b).defs = i.defs := by
  cases i <;> rfl

theorem defs_renameDefs (i : Instr) (a b : Temp) :
    (i.renameDefs a b).defs = i.defs.map (replace a b) := by
  cases i with
  | label => rfl
  | move text dst src => cases dst <;> rfl
  | oper => rfl

theorem uses_renameDefs (i : Instr) (a b : Temp) : (i.renameDefs a b).uses = i.uses := by
  cases i <;> rfl

end Instr

end TreeCompiler
