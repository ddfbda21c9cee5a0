import TreeCompiler.Machine.Basic
import TreeCompiler.Tree.Basic

/-!
# Frame — the memory of one procedure

The frame pointer is virtual: it is the stack pointer plus the frame size, which is known only
after allocation.  Locals and spill slots lie below the frame pointer and grow downwards, one word
each; the arguments that calls pass in memory lie at the stack pointer, so the stack pointer never
moves inside the body.
-/

namespace TreeCompiler

/-! ## 64-bit numbers -/

/-- The signed 64-bit number that an integer wraps around to. -/
def wrap64 (n : Int) : Int := (n + 0x8000000000000000) % 0x10000000000000000 - 0x8000000000000000

theorem wrap64_eq_self {n : Int} (h : -0x8000000000000000 ≤ n) (h' : n ≤ 0x7fffffffffffffff) :
    wrap64 n = n := by
  unfold wrap64
  omega

/-- Only the total wraps around: what is subtracted from may have done so before. -/
theorem wrap64_sub (a b : Int) : wrap64 (wrap64 a - b) = wrap64 (a - b) := by
  unfold wrap64
  omega

/-- Integers less than 2^64 apart wrap around to different numbers. -/
theorem eq_of_wrap64_eq {a b : Int} (h : wrap64 a = wrap64 b) (hlt : a - b ≤ 0xffffffffffffffff)
    (hlt' : b - a ≤ 0xffffffffffffffff) : a = b := by
  unfold wrap64 at h
  omega

/-! ## Frames -/

/-- Where a local lives. -/
inductive Access
  | register (t : Temp)
  /-- A byte offset from the frame pointer. -/
  | frame (offset : Int)
  deriving DecidableEq

/-- The expression for the contents of a place, given the frame pointer. -/
def Access.toExp : Access → Exp → Exp
  | .register t, _ => .temp t
  | .frame offset, fp => .mem (.binop .plus fp (.const offset))

/-- Offsets and sizes are signed 64-bit numbers, and so is what is computed from them. -/
structure Frame where
  name : Label
  /-- The lowest offset in use, which is not positive unless the locals have a negative size or the
  frame is too large for its numbers. -/
  offset : Int
  /-- Bytes for arguments passed in memory. -/
  outgoingSize : Int
  wordSize : Int

namespace Frame

/-- A frame in which only the locals of the source have a place. -/
def new (name : Label) (localsSize : Int) (m : Machine) : Frame :=
  { name, offset := wrap64 (-localsSize), outgoingSize := 0, wordSize := m.wordSize }

/-- One more word of the frame. -/
def allocSlot (f : Frame) : Int × Frame :=
  let offset := wrap64 (f.offset - f.wordSize)
  (offset, { f with offset })

/-- A place for a local: in the frame if its address is taken, else in a temp. -/
def allocLocal (f : Frame) (escapes : Bool) (n : Namer) : Access × Frame × Namer :=
  if escapes then
    let (offset, f') := f.allocSlot
    (.frame offset, f', n)
  else
    let (t, n') := n.freshTemp
    (.register t, f, n')

/-- Make room for a call with this many arguments in memory. -/
def reserveOutgoing (f : Frame) (arguments : Nat) : Frame :=
  { f with outgoingSize := max f.outgoingSize (wrap64 (arguments * f.wordSize)) }

def size (f : Frame) : Int := wrap64 (-f.offset + f.outgoingSize)

/-- The symbol that stands for the frame size in the code. -/
def sizeSymbol (f : Frame) : String := f.name ++ "_framesize"

theorem size_allocSlot (f : Frame) : f.allocSlot.2.size = wrap64 (f.size + f.wordSize) := by
  simp only [allocSlot, size, wrap64]
  omega

theorem outgoingSize_le_reserveOutgoing (f : Frame) (n : Nat) :
    f.outgoingSize ≤ (f.reserveOutgoing n).outgoingSize := Int.le_max_left _ _

end Frame

/-! ## Callee-saved registers -/

/-- Pair each register with a fresh temp. -/
def Namer.freshFor (n : Namer) : List Temp → List (Temp × Temp) × Namer
  | [] => ([], n)
  | r :: rs =>
      let (t, n') := n.freshTemp
      let (pairs, n'') := n'.freshFor rs
      ((r, t) :: pairs, n'')

/-- Copy each callee-saved register to a fresh temp before the body and back behind it; reserved
registers never move and are left alone. -/
def saveCalleeSaves (m : Machine) (body : List Stm) (n : Namer) : List Stm × Namer :=
  let (saved, n') := n.freshFor (m.roles.calleeSaves.filter fun r => !m.isReserved r)
  let save (p : Temp × Temp) : Stm := .move (.temp p.2) (.temp p.1)
  let restore (p : Temp × Temp) : Stm := .move (.temp p.1) (.temp p.2)
  (saved.map save ++ body ++ saved.map restore, n')

end TreeCompiler
