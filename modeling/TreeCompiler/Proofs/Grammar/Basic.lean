import Mathlib.Computability.ContextFreeGrammar
import TreeCompiler.Machine.Basic
import TreeCompiler.Token.Basic

/-!
# Grammar — the notation of trees as a context-free grammar

The notation is given twice: as a context-free grammar over kinds of tokens (`grammar`), which says
which token lists are sentences, and as derivations (`Exp.Derives`, `Stm.Derives`,
`Procedure.Derives`), which say what tree a list of tokens stands for.  A derivation wants each temp
to be a virtual one or a register of the machine (`Token.Refers`); a sentence does not.
-/

namespace TreeCompiler

/-! ## The context-free grammar -/

namespace Grammar

inductive Nonterminal
  | program | procedure | statements | statement | labels
  | expression | arguments | reference | binOp | relOp
  deriving DecidableEq

def Nonterminal.all : List Nonterminal :=
  [.program, .procedure, .statements, .statement, .labels, .expression, .arguments, .reference,
    .binOp, .relOp]

theorem Nonterminal.mem_all (n : Nonterminal) : n ∈ all := by
  cases n <;> decide

abbrev Sym := Symbol Terminal Nonterminal

abbrev word (k : Keyword) : Sym := .terminal (.keyword k)
abbrev lparen : Sym := .terminal (.punctuation .lparen)
abbrev rparen : Sym := .terminal (.punctuation .rparen)
abbrev lbrace : Sym := .terminal (.punctuation .lbrace)
abbrev rbrace : Sym := .terminal (.punctuation .rbrace)
abbrev comma : Sym := .terminal (.punctuation .comma)
abbrev label : Sym := .terminal .ident
abbrev number : Sym := .terminal .number
abbrev exp : Sym := .nonterminal .expression
abbrev stm : Sym := .nonterminal .statement

/-- What a nonterminal can be replaced by.  A repetition is a nonterminal of its own. -/
def bodies : Nonterminal → List (List Sym)
  | .program => [[], [.nonterminal .procedure, .nonterminal .program]]
  | .procedure =>
      [[word .proc, label, word .frame, number, lbrace, .nonterminal .statements, rbrace]]
  | .statements => [[], [stm, .nonterminal .statements]]
  | .statement =>
      [[word .seq, lparen, stm, comma, stm, rparen],
        [word .label, label],
        [word .jump, lparen, exp, .nonterminal .labels, rparen],
        [word .cjump, lparen, .nonterminal .relOp, comma, exp, comma, exp, comma, label, comma,
          label, rparen],
        [word .move, lparen, exp, comma, exp, rparen],
        [word .exp, lparen, exp, rparen]]
  | .labels => [[], [comma, label, .nonterminal .labels]]
  | .expression =>
      [[word .binop, lparen, .nonterminal .binOp, comma, exp, comma, exp, rparen],
        [word .mem, lparen, exp, rparen],
        [word .temp, .nonterminal .reference],
        [word .eseq, lparen, stm, comma, exp, rparen],
        [word .name, label],
        [word .const, number],
        [word .call, lparen, exp, .nonterminal .arguments, rparen]]
  | .arguments => [[], [comma, exp, .nonterminal .arguments]]
  | .reference => [[.terminal .temp], [.terminal .register]]
  | .binOp => BinOp.all.map fun op => [.terminal (.binOp op)]
  | .relOp => RelOp.all.map fun op => [.terminal (.relOp op)]

def rules : List (ContextFreeRule Terminal Nonterminal) :=
  Nonterminal.all.flatMap fun n => (bodies n).map (ContextFreeRule.mk n)

theorem mem_rules {r : ContextFreeRule Terminal Nonterminal} :
    r ∈ rules ↔ r.output ∈ bodies r.input := by
  rcases r with ⟨n, body⟩
  simp only [rules, List.mem_flatMap, List.mem_map, ContextFreeRule.mk.injEq]
  constructor
  · rintro ⟨_, _, _, hbody, rfl, rfl⟩
    exact hbody
  · exact fun hbody => ⟨n, n.mem_all, body, hbody, rfl, rfl⟩

end Grammar

/-- The notation of files. -/
abbrev grammar : ContextFreeGrammar Terminal where
  NT := Grammar.Nonterminal
  initial := .program
  rules := Grammar.rules.toFinset

namespace Grammar

/-- Tokens whose kinds are a word of the grammar; an error token is of no kind. -/
def Sentence (ts : List Token) : Prop :=
  ∃ w ∈ grammar.language, ts.map Token.terminal? = w.map some

/-- Tokens that begin a sentence. -/
def Viable (ts : List Token) : Prop := ∃ us, Sentence (ts ++ us)

/-- Whether a token of some kind can come behind tokens that begin a sentence. -/
def CanFollow (ts : List Token) (x : Terminal) : Prop :=
  ∃ t : Token, t.terminal? = some x ∧ Viable (ts ++ [t])

end Grammar

/-! ## Derivations -/

/-- A token refers to a temp: by a number that is no register's, or by the name of a register. -/
inductive Token.Refers (m : Machine) : Token → Temp → Prop
  | temp {n : Nat} (h : Temp.firstVirtual ≤ n) : Refers m (.temp n) ⟨n⟩
  | register {name : String} {t : Temp} (h : m.registerNamed? name = some t) :
      Refers m (.register name) t

section Derivations

open Token Punctuation

variable (m : Machine)

/-- The labels behind a first part, each behind a comma. -/
inductive Label.DerivesAll : List Token → List Label → Prop
  | nil : Label.DerivesAll [] []
  | cons {l : Label} {ts : List Token} {ls : List Label} (h : Label.DerivesAll ts ls) :
      Label.DerivesAll (punctuation comma :: ident l :: ts) (l :: ls)

mutual

/-- The tokens stand for an expression. -/
inductive Exp.Derives : List Token → Exp → Prop
  | binop {op : BinOp} {ts us : List Token} {l r : Exp} (hl : Exp.Derives ts l)
      (hr : Exp.Derives us r) :
      Exp.Derives (keyword .binop :: punctuation lparen :: binOp op :: punctuation comma :: ts
        ++ punctuation comma :: us ++ [punctuation rparen]) (.binop op l r)
  | mem {ts : List Token} {a : Exp} (h : Exp.Derives ts a) :
      Exp.Derives (keyword .mem :: punctuation lparen :: ts ++ [punctuation rparen]) (.mem a)
  | temp {ref : Token} {t : Temp} (h : ref.Refers m t) : Exp.Derives [keyword .temp, ref] (.temp t)
  | eseq {ts us : List Token} {s : Stm} {e : Exp} (hs : Stm.Derives ts s) (he : Exp.Derives us e) :
      Exp.Derives (keyword .eseq :: punctuation lparen :: ts
        ++ punctuation comma :: us ++ [punctuation rparen]) (.eseq s e)
  | name (l : Label) : Exp.Derives [keyword .name, ident l] (.name l)
  | const (n : Int) : Exp.Derives [keyword .const, number n] (.const n)
  | call {ts us : List Token} {f : Exp} {args : List Exp} (hf : Exp.Derives ts f)
      (hargs : Exp.DerivesAll us args) :
      Exp.Derives (keyword .call :: punctuation lparen :: ts ++ us ++ [punctuation rparen])
        (.call f args)

/-- The arguments of a call, each behind a comma. -/
inductive Exp.DerivesAll : List Token → List Exp → Prop
  | nil : Exp.DerivesAll [] []
  | cons {ts us : List Token} {e : Exp} {es : List Exp} (he : Exp.Derives ts e)
      (hes : Exp.DerivesAll us es) : Exp.DerivesAll (punctuation comma :: ts ++ us) (e :: es)

/-- The tokens stand for a statement. -/
inductive Stm.Derives : List Token → Stm → Prop
  | seq {ts us : List Token} {a b : Stm} (ha : Stm.Derives ts a) (hb : Stm.Derives us b) :
      Stm.Derives (keyword .seq :: punctuation lparen :: ts
        ++ punctuation comma :: us ++ [punctuation rparen]) (.seq a b)
  | label (l : Label) : Stm.Derives [keyword .label, ident l] (.label l)
  | jump {ts us : List Token} {e : Exp} {ls : List Label} (he : Exp.Derives ts e)
      (hls : Label.DerivesAll us ls) :
      Stm.Derives (keyword .jump :: punctuation lparen :: ts ++ us ++ [punctuation rparen])
        (.jump e ls)
  | cjump {op : RelOp} {ts us : List Token} {l r : Exp} {t f : Label} (hl : Exp.Derives ts l)
      (hr : Exp.Derives us r) :
      Stm.Derives (keyword .cjump :: punctuation lparen :: relOp op :: punctuation comma :: ts
        ++ punctuation comma :: us ++ [punctuation comma, ident t, punctuation comma, ident f,
          punctuation rparen]) (.cjump op l r t f)
  | move {ts us : List Token} {d s : Exp} (hd : Exp.Derives ts d) (hs : Exp.Derives us s) :
      Stm.Derives (keyword .move :: punctuation lparen :: ts
        ++ punctuation comma :: us ++ [punctuation rparen]) (.move d s)
  | exp {ts : List Token} {e : Exp} (h : Exp.Derives ts e) :
      Stm.Derives (keyword .exp :: punctuation lparen :: ts ++ [punctuation rparen]) (.exp e)

end

/-- Statements one behind the other. -/
inductive Stm.DerivesAll : List Token → List Stm → Prop
  | nil : Stm.DerivesAll [] []
  | cons {ts us : List Token} {s : Stm} {ss : List Stm} (hs : Stm.Derives m ts s)
      (hss : Stm.DerivesAll us ss) : Stm.DerivesAll (ts ++ us) (s :: ss)

inductive Procedure.Derives : List Token → Procedure → Prop
  | mk {name : Label} {size : Int} {ts : List Token} {body : List Stm}
      (h : Stm.DerivesAll m ts body) :
      Procedure.Derives (keyword .proc :: ident name :: keyword .frame :: number size ::
        punctuation lbrace :: ts ++ [punctuation rbrace]) ⟨name, size, body⟩

/-- The tokens stand for the procedures of a file. -/
inductive Procedure.DerivesAll : List Token → List Procedure → Prop
  | nil : Procedure.DerivesAll [] []
  | cons {ts us : List Token} {p : Procedure} {ps : List Procedure}
      (hp : Procedure.Derives m ts p) (hps : Procedure.DerivesAll us ps) :
      Procedure.DerivesAll (ts ++ us) (p :: ps)

end Derivations

end TreeCompiler
