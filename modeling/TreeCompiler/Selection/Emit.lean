import TreeCompiler.Selection.Operation
import TreeCompiler.Tree.Printer

/-!
# Emit — the state of instruction selection

Selection appends operations, hands out temps and notes how many arguments the widest call passes
in memory.  Temps that were handed out stay so even if selection fails.
-/

namespace TreeCompiler

/-- Why no instructions can be selected for a tree. -/
inductive SelectionError
  /-- A move whose destination is no place. -/
  | badDestination (destination : Exp)
  deriving DecidableEq

def SelectionError.message : SelectionError → String
  | .badDestination d => "MOVE into " ++ d.print ++ " which is not a temp or memory location"

namespace Selection

structure State where
  namer : Namer
  /-- Operations in the order in which they are carried out. -/
  operations : Array Operation := #[]
  /-- The most arguments that a call so far passes in memory. -/
  memoryArguments : Nat := 0

end Selection

abbrev SelectM := ExceptT SelectionError (StateM Selection.State)

namespace Selection

def fresh : SelectM Temp :=
  modifyGet fun s =>
    let (t, n) := s.namer.freshTemp
    (t, { s with namer := n })

def emit (op : Operation) : SelectM Unit :=
  modify fun s => { s with operations := s.operations.push op }

def reserveOutgoing (arguments : Nat) : SelectM Unit :=
  modify fun s => { s with memoryArguments := max s.memoryArguments arguments }

end Selection

end TreeCompiler
