import TreeCompiler.Tree.Basic

/-!
# Tree printer — the notation of trees

Trees are written in the notation that `Procedure.parseText` reads.
-/

namespace TreeCompiler

mutual

def Exp.print : Exp → String
  | .binop op l r => "BINOP(" ++ op.name ++ ", " ++ l.print ++ ", " ++ r.print ++ ")"
  | .mem a => "MEM(" ++ a.print ++ ")"
  | .temp t => "TEMP " ++ t.display
  | .eseq s e => "ESEQ(" ++ s.print ++ ", " ++ e.print ++ ")"
  | .name l => "NAME " ++ l
  | .const n => "CONST " ++ toString n
  | .call f args => "CALL(" ++ f.print ++ Exp.printArguments args ++ ")"

/-- Each argument stands behind a comma. -/
def Exp.printArguments : List Exp → String
  | [] => ""
  | a :: r => ", " ++ a.print ++ Exp.printArguments r

def Stm.print : Stm → String
  | .seq a b => "SEQ(" ++ a.print ++ ", " ++ b.print ++ ")"
  | .label l => "LABEL " ++ l
  | .jump e targets => "JUMP(" ++ e.print ++ String.join (targets.map (", " ++ ·)) ++ ")"
  | .cjump op l r t f =>
      "CJUMP(" ++ op.name ++ ", " ++ l.print ++ ", " ++ r.print ++ ", " ++ t ++ ", " ++ f ++ ")"
  | .move d s => "MOVE(" ++ d.print ++ ", " ++ s.print ++ ")"
  | .exp e => "EXP(" ++ e.print ++ ")"

end

/-- One statement a line, between a header and a closing brace. -/
def Procedure.print (p : Procedure) : String :=
  "proc " ++ p.name ++ " frame " ++ toString p.localsSize ++ " \x7b\n"
    ++ String.join (p.body.map fun s => "  " ++ s.print ++ "\n") ++ "\x7d"

end TreeCompiler
