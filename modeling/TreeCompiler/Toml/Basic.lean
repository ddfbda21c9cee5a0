/-!
# TOML — documents as trees of values

A document is a table.  Tables remember how they came about, since that decides whether they may be
extended later; `Toml.Table.insert` and its companions are the ways in which a document grows, and
they refuse to define anything twice.
-/

namespace TreeCompiler

namespace Toml

/-- How a table came about. -/
inductive TableKind
  /-- Written as a header of its own. -/
  | header
  /-- Named on the way to another header. -/
  | implicit
  /-- Named on the way to a dotted key. -/
  | dotted
  /-- Written between braces, and closed. -/
  | inline
  deriving DecidableEq

inductive Value
  | string (s : String)
  | integer (n : Int)
  | boolean (b : Bool)
  | float
  | datetime
  | array (items : List Value)
  | table (kind : TableKind) (entries : List (String × Value))
  /-- Tables under one header, the last of which may still grow. -/
  | tables (items : List (List (String × Value)))

abbrev Table := List (String × Value)

namespace Table

def get? (t : Table) (key : String) : Option Value := t.lookup key

/-- Put a new value in the place of the one with this key. -/
def replace (t : Table) (key : String) (v : Value) : Table :=
  t.map fun e => if e.1 = key then (key, v) else e

/-- Define a key that is not defined yet. -/
def insert (v : Value) (key : String) (t : Table) : Option Table :=
  match t.get? key with
  | none => some (t ++ [(key, v)])
  | some _ => none

/-- Whether a path may lead into a table.  Dotted keys do not reopen tables that have a header, and
the table that they end in has to be one of their own. -/
def mayEnter (dotted isLast : Bool) : TableKind → Bool
  | .header => !dotted
  | .implicit => !(dotted && isLast)
  | .dotted => true
  | .inline => false

/-- Change the last of a list of tables. -/
def modifyLast (f : Table → Option Table) : List Table → Option (List Table)
  | [] => none
  | [t] => do return [← f t]
  | t :: ts => do return t :: (← modifyLast f ts)

/-- Change the table at the end of a path; tables that are missing on the way are made. -/
def modifyAt (dotted : Bool) (f : Table → Option Table) : List String → Table → Option Table
  | [], t => f t
  | key :: path, t =>
      match t.get? key with
      | none => do
          let sub ← modifyAt dotted f path []
          return t ++ [(key, .table (if dotted then .dotted else .implicit) sub)]
      | some (.table kind sub) =>
          if mayEnter dotted path.isEmpty kind then do
            let sub' ← modifyAt dotted f path sub
            return t.replace key (.table kind sub')
          else none
      | some (.tables subs) =>
          -- the last table of a list has a header, so no dotted key may end there
          if dotted && path.isEmpty then none
          else do
            let subs' ← modifyLast (modifyAt dotted f path) subs
            return t.replace key (.tables subs')
      | some _ => none

/-- Open a table by its header. -/
def openTable (key : String) (t : Table) : Option Table :=
  match t.get? key with
  | none => some (t ++ [(key, .table .header [])])
  | some (.table .implicit sub) => some (t.replace key (.table .header sub))
  | some _ => none

/-- Open one more table of a list of tables. -/
def appendTable (key : String) (t : Table) : Option Table :=
  match t.get? key with
  | none => some (t ++ [(key, .tables [[]])])
  | some (.tables subs) => some (t.replace key (.tables (subs ++ [[]])))
  | some _ => none

/-- Change what a path of keys names, by its last key in the table at its end. -/
def atPath (dotted : Bool) (f : String → Table → Option Table) (path : List String) (t : Table) :
    Option Table :=
  match path.getLast? with
  | none => none
  | some key => modifyAt dotted (f key) path.dropLast t

/-- Define a dotted key in the table under a header. -/
def define (header path : List String) (v : Value) (t : Table) : Option Table :=
  modifyAt false (atPath true (insert v) path) header t

end Table

end Toml

end TreeCompiler
