import TreeCompiler.AllocOptions
import TreeCompiler.Machine.Spec
import TreeCompiler.Toml.Parser

/-!
# Settings — machines and allocator options written in TOML

A machine description may hold more than is read; allocator options may not, so that a misspelt
option is noticed.
-/

namespace TreeCompiler

namespace Toml

namespace Value

def string? : Value → Option String
  | .string s => some s
  | _ => none

def integer? : Value → Option Int
  | .integer n => some n
  | _ => none

def boolean? : Value → Option Bool
  | .boolean b => some b
  | _ => none

def strings? : Value → Option (List String)
  | .array items => items.mapM string?
  | _ => none

/-- The first two strings of an array. -/
def pair? : Value → Option (String × String)
  | .array (a :: b :: _) => do return (← a.string?, ← b.string?)
  | _ => none

end Value

namespace Table

/-- The value of a key that has to be there. -/
def required? {α : Type} (read : Value → Option α) (t : Table) (key : String) : Option α := do
  read (← t.get? key)

/-- The value of a key, or a default where the key is missing. -/
def optional? {α : Type} (read : Value → Option α) (default : α) (t : Table) (key : String) :
    Option α :=
  match t.get? key with
  | none => some default
  | some v => read v

end Table

end Toml

open Toml.Value in
/-- The machine specification of a document. -/
def MachineSpec.ofTable? (t : Toml.Table) : Option MachineSpec := do
  return {
    wordSize := ← t.required? integer? "word_size"
    allocatable := ← t.required? strings? "allocatable"
    framePointer := ← t.required? string? "frame_pointer"
    stackPointer := ← t.required? string? "stack_pointer"
    returnValue := ← t.required? string? "return_value"
    arguments := ← t.optional? strings? [] "arguments"
    callerSaves := ← t.optional? strings? [] "caller_saves"
    calleeSaves := ← t.optional? strings? [] "callee_saves"
    mulDiv := ← t.required? pair? "mul_div"
    shiftCount := ← t.required? string? "shift_count"
    shiftCountOperand := ← t.optional? (fun v => some <$> v.string?) none "shift_count_operand" }

def MachineSpec.ofToml? (text : String) : Option MachineSpec := do ofTable? (← Toml.parse text)

namespace AllocOptions

/-- The keys of allocator options. -/
def keys : List String := ["coalescing", "check_invariants", "eliminate_redundant_moves"]

open Toml.Value in
def ofTable? (t : Toml.Table) : Option AllocOptions := do
  if !t.all fun e => e.1 ∈ keys then none
  let standard : AllocOptions := {}
  return {
    coalescing := ← t.optional? boolean? standard.coalescing "coalescing"
    checkInvariants := ← t.optional? boolean? standard.checkInvariants "check_invariants"
    eliminateRedundantMoves :=
      ← t.optional? boolean? standard.eliminateRedundantMoves "eliminate_redundant_moves" }

def ofToml? (text : String) : Option AllocOptions := do ofTable? (← Toml.parse text)

end AllocOptions

end TreeCompiler
