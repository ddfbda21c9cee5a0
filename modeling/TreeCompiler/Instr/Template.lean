import TreeCompiler.Instr.Basic

/-!
# Template — instruction texts with holes

A hole is a backtick, a kind and a number: `s` for a use, `d` for a definition and `j` for a jump
label, counted from zero.  A doubled backtick stands for one.  A text is first cut into pieces
(`Template.pieces`), and each piece is then written with the operands at hand (`Instr.fill`).
-/

namespace TreeCompiler

namespace Template

/-- What a hole is filled with. -/
inductive Operand
  | use (index : Nat)
  | definition (index : Nat)
  | target (index : Nat)
  deriving DecidableEq

/-- A part of a template. -/
inductive Piece
  | text (cs : List Char)
  | hole (operand : Operand)
  deriving DecidableEq

/-- The number written by decimal digits; no digits write zero. -/
def index (digits : List Char) : Nat :=
  digits.foldl (fun n d => 10 * n + (d.toNat - '0'.toNat)) 0

/-- The piece that a backtick, a kind and digits make.  Digits count only for a hole. -/
def piece (kind : Char) (digits : List Char) : Piece :=
  match kind with
  | 's' => .hole (.use (index digits))
  | 'd' => .hole (.definition (index digits))
  | 'j' => .hole (.target (index digits))
  | '`' => .text ['`']
  | other => .text ['`', other]

/-- Cut a template at its holes. -/
def pieces : List Char → List Piece
  | [] => []
  | ['`'] => [.text ['`']]
  | c :: rest =>
      if c = '`' then
        match rest with
        | [] => [.text ['`']]
        | kind :: more =>
            piece kind (more.takeWhile Char.isDigit) :: pieces (more.dropWhile Char.isDigit)
      else
        .text [c] :: pieces rest
  termination_by cs => cs.length
  decreasing_by
    · have := (List.dropWhile_suffix (p := Char.isDigit) (l := more)).length_le
      simp only [List.length_cons]
      omega
    · simp

end Template

namespace Instr

/-- The register of an operand, or a mark for an operand that does not exist. -/
def operandText (m : NameMap) (temps : List Temp) (i : Nat) : String :=
  match temps[i]? with
  | some t => m.lookup t
  | none => s!"<{i}?>"

/-- The text of a piece of the instruction's template. -/
def pieceText (i : Instr) (m : NameMap) : Template.Piece → String
  | .text cs => String.ofList cs
  | .hole (.use n) => operandText m i.uses n
  | .hole (.definition n) => operandText m i.defs n
  | .hole (.target n) =>
      match i.targets[n]? with
      | some l => l
      | none => s!"<j{n}?>"

/-- The text of an instruction with its operands named; labels have no holes. -/
def fill (i : Instr) (m : NameMap) : String :=
  match i with
  | .label text _ => text
  | _ => String.join ((Template.pieces i.text.toList).map (i.pieceText m))

/-- An instruction with temps for operands, indented unless it is a label. -/
def display (i : Instr) : String :=
  match i with
  | .label _ _ => i.fill TempMap.empty
  | _ => "\t" ++ i.fill TempMap.empty

end Instr

end TreeCompiler
