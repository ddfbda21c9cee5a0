import Mathlib.Logic.Relation
import TreeCompiler.Proofs.Selection.Processor

/-!
# Control — where code goes after each operation

A run is at a rest of the code.  A conditional jump goes to its first label if the flags say so, and
else on to the next operation, whatever that is; its second label plays no part in a run.
-/

namespace TreeCompiler

open Assembly

namespace Operation

/-- The rest of some code from a label on. -/
def seek (l : Label) : List Operation → Option (List Operation)
  | [] => none
  | op :: rest => if op = .label l then some (op :: rest) else seek l rest

/-- What is left of the code, and the state of the processor. -/
abbrev Point := List Operation × Processor

section Steps

variable (symbols : String → Word) (symbol : String) (code : List Operation)

/-- Go on at a label of the code. -/
def goTo? (p : Processor) (l : Label) : Option Point := (seek l code).map fun dest => (dest, p)

/-- One step of a run. -/
def step : Point → Option Point
  | ([], _) => none
  | (op :: rest, p) =>
      let i := op.instr (.x86_64 symbol)
      match op.line symbol with
      -- the line names the first target only
      | .branch r => p.flags.bind fun f =>
          if f.holds r then i.targets[0]?.bind (goTo? code p) else some (rest, p)
      | .jump => i.targets[0]?.bind (goTo? code p)
      | .jumpTo a => (a.value? i p).bind fun v =>
          (i.targets.find? fun l => symbols l = v).bind (goTo? code p)
      | line => (line.exec symbols i p).map fun q => (rest, q)

/-- A run goes from one point to another in some steps. -/
abbrev Reaches : Point → Point → Prop :=
  Relation.ReflTransGen fun x y => step symbols symbol code x = some y

variable {symbols symbol code} {op : Operation} {ops rest : List Operation} {p q : Processor}

/-- An operation with an effect goes on to the next one. -/
theorem step_of_exec (h : op.exec symbols symbol p = some q) :
    step symbols symbol code (op :: rest, p) = some (rest, q) := by
  rw [exec] at h
  unfold step
  dsimp only
  -- a jump has no effect of its own
  split
  · rename_i heq
    rw [heq] at h
    cases h
  · rename_i heq
    rw [heq] at h
    cases h
  · rename_i heq
    rw [heq] at h
    cases h
  · rw [h]
    rfl

theorem reaches_execAll (h : execAll symbols symbol ops p = some q) :
    Reaches symbols symbol code (ops ++ rest, p) (rest, q) := by
  induction ops generalizing p with
  | nil =>
      cases h
      exact .refl
  | cons op ops ih =>
      rw [execAll] at h
      obtain ⟨r, hr, hq⟩ := Option.bind_eq_some_iff.1 h
      exact .head (step_of_exec hr) (ih hq)

/-- The processor after a comparison. -/
def compared (p : Processor) (left : Temp) (right : Operand) : Processor :=
  { p with flags := some (Flags.ofCompare (p.file left) (right.value p)) }

variable {left : Temp} {right : Operand} {r : RelOp} {ifTrue ifFalse : Label}

theorem step_branch_compared (hholds : r.holds (p.file left) (right.value p) = true) :
    step symbols symbol code (.branch r ifTrue ifFalse :: rest, compared p left right) =
      goTo? code (compared p left right) ifTrue := by
  rw [← Flags.holds_ofCompare] at hholds
  exact if_pos hholds

theorem step_branch_compared_of_not (hholds : r.holds (p.file left) (right.value p) = false) :
    step symbols symbol code (.branch r ifTrue ifFalse :: rest, compared p left right) =
      some (rest, compared p left right) := by
  rw [← Flags.holds_ofCompare] at hholds
  exact if_neg (Bool.eq_false_iff.1 hholds)

/-- Where a relation holds, its conditional jump goes to the first label. -/
theorem reaches_ifTrue {dest : List Operation} (hseek : seek ifTrue code = some dest)
    (hholds : r.holds (p.file left) (right.value p) = true) :
    Reaches symbols symbol code (.compare left right :: .branch r ifTrue ifFalse :: rest, p)
      (dest, compared p left right) := by
  refine .head (step_of_exec (exec_compare ..)) (.single ?_)
  rw [← compared, step_branch_compared hholds, goTo?, hseek, Option.map_some]

/-- Where a relation does not hold, its conditional jump goes on to the next operation. -/
theorem reaches_next (hholds : r.holds (p.file left) (right.value p) = false) :
    Reaches symbols symbol code (.compare left right :: .branch r ifTrue ifFalse :: rest, p)
      (rest, compared p left right) := by
  refine .head (step_of_exec (exec_compare ..)) (.single ?_)
  rw [← compared, step_branch_compared_of_not hholds]

end Steps

end Operation

end TreeCompiler
