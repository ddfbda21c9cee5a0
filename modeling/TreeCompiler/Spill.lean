import TreeCompiler.Selection.Tile
import TreeCompiler.SortedSet

/-!
# Spill — keeping temps in the frame

Each spilled temp gets a word of the frame.  Every instruction that mentions it gets a fresh temp in
its place, which is loaded from the word before the instruction if it is used there, and stored
behind it if it is defined there.
-/

namespace TreeCompiler

/-- Code in which the spilled temps no longer occur. -/
structure SpilledCode where
  instrs : List Instr
  /-- The temps that took their place, in the order in which they were made. -/
  fresh : List Temp

namespace Spill

/-- A word of the frame for each entry of a list, in order. -/
def slots (frame : Frame) : List Temp → List (Temp × Access) × Frame
  | [] => ([], frame)
  | t :: ts =>
      let (offset, frame') := frame.allocSlot
      let (rest, frame'') := slots frame' ts
      ((t, .frame offset) :: rest, frame'')

/-- The places where temps are kept: of a temp with several words, the last one. -/
def places (slots : List (Temp × Access)) : List (Temp × Access) :=
  slots.map fun e => (e.1, (slots.reverse.lookup e.1).getD e.2)

/-- An instruction with fresh temps, and the moves that have to surround it. -/
structure Replaced where
  instr : Instr
  fresh : List Temp := []
  loads : List Stm := []
  stores : List Stm := []

/-- Put a fresh temp in the place of each spilled temp that the instruction mentions.  `defs` and
`uses` are what the instruction mentioned at first. -/
def replaceTemps (framePointer : Exp) (defs uses : List Temp) :
    List (Temp × Access) → Replaced → Namer → Replaced × Namer
  | [], r, n => (r, n)
  | (t, slot) :: rest, r, n =>
      let used := uses.contains t
      let defined := defs.contains t
      -- a temp that the instruction does not mention costs no fresh temp
      if !used && !defined then
        replaceTemps framePointer defs uses rest r n
      else
        let (v, n') := n.freshTemp
        let place := slot.toExp framePointer
        let i₁ := if used then r.instr.renameUses t v else r.instr
        let i₂ := if defined then i₁.renameDefs t v else i₁
        let loads := if used then [Stm.move (.temp v) place] else []
        let stores := if defined then [Stm.move place (.temp v)] else []
        let r' : Replaced := ⟨i₂, r.fresh ++ [v], r.loads ++ loads, r.stores ++ stores⟩
        replaceTemps framePointer defs uses rest r' n'

/-- Select the instructions of moves to and from the frame. -/
def selectMoves (target : Target) (moves : List Stm) (n : Namer) :
    Except SelectionError (List Instr) × Namer :=
  let (result, s) := (Stm.selectAll target moves).run.run { namer := n }
  (result.map fun _ => s.operations.toList.map (·.instr target), s.namer)

/-- The code of one instruction whose spilled temps live in the frame. -/
def spillInstr (target : Target) (slots : List (Temp × Access)) (instr : Instr) (n : Namer) :
    Except SelectionError SpilledCode × Namer :=
  let framePointer : Exp := .temp target.machine.framePointer
  let (r, n₁) := replaceTemps framePointer instr.defs instr.uses slots { instr } n
  -- fresh temps are handed out for the operands first, then for the moves around them
  let (loads, n₂) := selectMoves target r.loads n₁
  match loads with
  | .error e => (.error e, n₂)
  | .ok before =>
      let (stores, n₃) := selectMoves target r.stores n₂
      (stores.map fun behind => ⟨before ++ r.instr :: behind, r.fresh⟩, n₃)

/-- The code of each instruction, in order. -/
def spillAll (target : Target) (slots : List (Temp × Access)) :
    List Instr → Namer → Except SelectionError (List SpilledCode) × Namer
  | [], n => (.ok [], n)
  | i :: rest, n =>
      match spillInstr target slots i n with
      | (.error e, n') => (.error e, n')
      | (.ok r, n') =>
          let (rs, n'') := spillAll target slots rest n'
          (rs.map (r :: ·), n'')

end Spill

/-- Move the given temps of the code to the frame. -/
def Frame.spill (frame : Frame) (m : Machine) (instrs : List Instr) (spilled : List Temp)
    (n : Namer) : Except SelectionError SpilledCode × Frame × Namer :=
  let (slots, frame') := Spill.slots frame spilled
  let (rs, n') := Spill.spillAll ⟨m, frame.sizeSymbol⟩ (Spill.places slots) instrs n
  (rs.map fun rs => ⟨rs.flatMap (·.instrs), rs.flatMap (·.fresh)⟩, frame', n')

/-- Whether an instruction copies a register to itself. -/
def Instr.isRedundant (coloring : NameMap) (i : Instr) : Bool :=
  match i.movePair? with
  | none => false
  | some (src, dst) =>
      match coloring.get? src, coloring.get? dst with
      | some a, some b => a = b
      | _, _ => false

/-- Drop the copies within one register. -/
def removeRedundantMoves (coloring : NameMap) (instrs : List Instr) : List Instr :=
  instrs.filter fun i => !i.isRedundant coloring

end TreeCompiler
