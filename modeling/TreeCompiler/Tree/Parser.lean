import TreeCompiler.Machine.Basic
import TreeCompiler.Token.Lexer

/-!
# Tree parser — tokens to procedures

A file is a list of procedures, and the notation can be read one token ahead: the first token of a
statement or an expression tells its form.  A parse fails at the first token that cannot come next,
and the error lists all terminals that could have come instead.

A temp below `Temp.firstVirtual` and a register that the machine does not have are errors of their
own.  They are found when the expression `TEMP x` is finished, that is, at the comma or parenthesis
behind it.
-/

namespace TreeCompiler

/-! ## Errors -/

inductive ParseError
  /-- A token that cannot come here, and what could. -/
  | unexpected (found : Located) (expected : List Terminal)
  /-- The text ends at an offset where something else has to come. -/
  | unfinished (offset : Nat) (expected : List Terminal)
  /-- A temp whose number stands for a machine register. -/
  | lowTemp (number offset : Nat)
  | unknownRegister (name : String) (offset : Nat)
  deriving DecidableEq

namespace ParseError

def displayExpected (ts : List Terminal) : String :=
  let entry (t : Terminal) : String := quoted (quoted t.name)
  "[" ++ ", ".intercalate ((Terminal.sorted ts).map entry) ++ "]"

def userText (text : String) : String := "User \x7b error: " ++ quoted text ++ " \x7d"

def cause : ParseError → String
  | .unexpected found expected =>
      "UnrecognizedToken \x7b token: (" ++ toString found.start ++ ", " ++ found.token.display
        ++ ", " ++ toString found.stop ++ "), expected: " ++ displayExpected expected ++ " \x7d"
  | .unfinished offset expected =>
      "UnrecognizedEof \x7b location: " ++ toString offset ++ ", expected: "
        ++ displayExpected expected ++ " \x7d"
  | .lowTemp number offset =>
      userText (s!"Temp t{number} at offset {offset} collides with the register file, " ++
        s!"virtual temps start at t{Temp.firstVirtual}")
  | .unknownRegister name offset => userText s!"Unknown register %{name} at offset {offset}"

def message (e : ParseError) : String := "Couldn't parse file. Failed with message " ++ e.cause

end ParseError

/-! ## Reading one token -/

namespace Parser

/-- What parsing depends on besides the tokens. -/
structure Context where
  machine : Machine
  /-- Where the last token of the text stops. -/
  eof : Nat

/-- What is left of a list of tokens after something was read. -/
abbrev Rest (ts : List Located) := { rest : List Located // rest.length < ts.length }

abbrev Result (α : Type) (ts : List Located) := Except ParseError (α × Rest ts)

/-- The failure to find one of the expected terminals in front. -/
def fail (ctx : Context) (expected : List Terminal) : List Located → ParseError
  | [] => .unfinished ctx.eof expected
  | t :: _ => .unexpected t expected

/-- Read a token from which `f` takes a value. -/
def take {α : Type} (ctx : Context) (expected : List Terminal) (f : Token → Option α)
    (ts : List Located) : Result α ts :=
  match ts with
  | [] => .error (.unfinished ctx.eof expected)
  | t :: rest =>
      match f t.token with
      | some a => .ok (a, ⟨rest, Nat.lt_succ_self _⟩)
      | none => .error (.unexpected t expected)

/-- Read a token of a terminal that carries no content. -/
def expect (ctx : Context) (terminal : Terminal) : (ts : List Located) → Result Unit ts :=
  take ctx [terminal] fun t => if t.terminal? = some terminal then some () else none

def lparen : Terminal := .punctuation .lparen
def rparen : Terminal := .punctuation .rparen
def lbrace : Terminal := .punctuation .lbrace
def rbrace : Terminal := .punctuation .rbrace
def comma : Terminal := .punctuation .comma

def label (ctx : Context) : (ts : List Located) → Result Label ts :=
  take ctx [.ident] fun
    | .ident name => some name
    | _ => none

def number (ctx : Context) : (ts : List Located) → Result Int ts :=
  take ctx [.number] fun
    | .number n => some n
    | _ => none

def binOp (ctx : Context) : (ts : List Located) → Result BinOp ts :=
  take ctx (BinOp.all.map .binOp) fun
    | .binOp op => some op
    | _ => none

def relOp (ctx : Context) : (ts : List Located) → Result RelOp ts :=
  take ctx (RelOp.all.map .relOp) fun
    | .relOp op => some op
    | _ => none

/-! ## Forms told by their first token -/

/-- The forms of expressions. -/
inductive ExpForm
  | binop | mem | temp | eseq | name | const | call

def ExpForm.ofToken? : Token → Option ExpForm
  | .keyword .binop => some .binop
  | .keyword .mem => some .mem
  | .keyword .temp => some .temp
  | .keyword .eseq => some .eseq
  | .keyword .name => some .name
  | .keyword .const => some .const
  | .keyword .call => some .call
  | _ => none

def expStarters : List Terminal :=
  [.binop, .mem, .temp, .eseq, .name, .const, .call].map .keyword

/-- The forms of statements. -/
inductive StmForm
  | seq | label | jump | cjump | move | exp

def StmForm.ofToken? : Token → Option StmForm
  | .keyword .seq => some .seq
  | .keyword .label => some .label
  | .keyword .jump => some .jump
  | .keyword .cjump => some .cjump
  | .keyword .move => some .move
  | .keyword .exp => some .exp
  | _ => none

def stmStarters : List Terminal :=
  [.seq, .label, .jump, .cjump, .move, .exp].map .keyword

/-! ## Temps -/

/-- A reference to a temp by number or by register name, not yet checked. -/
inductive TempRef
  | number (n : Nat)
  | register (name : String)

def TempRef.ofToken? : Token → Option TempRef
  | .temp n => some (.number n)
  | .register name => some (.register name)
  | _ => none

/-- The temp that is meant by a reference at an offset. -/
def TempRef.resolve (machine : Machine) (offset : Nat) : TempRef → Except ParseError Temp
  | .number n => if n < Temp.firstVirtual then .error (.lowTemp n offset) else .ok ⟨n⟩
  | .register name =>
      match machine.registerNamed? name with
      | some t => .ok t
      | none => .error (.unknownRegister name offset)

/-- The offset of the next token. -/
def startOf (ctx : Context) : List Located → Nat
  | [] => ctx.eof
  | t :: _ => t.start

/-- Whether an expression can end before these tokens in some place. -/
def endsExp : List Located → Bool
  | [] => false
  | t :: _ => t.token.terminal? = some comma || t.token.terminal? = some rparen

/-- Read a reference to a temp; `follow` lists what may come behind it here. -/
def tempRef (ctx : Context) (follow : List Terminal) (ts : List Located) : Result Temp ts := do
  let offset := startOf ctx ts
  let (ref, rest) ← take ctx [.temp, .register] TempRef.ofToken? ts
  -- either mark ends the temp, so a fault of the temp wins over a mark that does not fit here
  if endsExp rest.1 then
    let t ← ref.resolve ctx.machine offset
    return (t, rest)
  else
    throw (fail ctx follow rest.1)

/-! ## Lists -/

/-- Read `, L, …, L )`: the rest of a list of labels behind its first part. -/
def labels (ctx : Context) (ts : List Located) : Result (List Label) ts :=
  match take ctx [comma, rparen] (fun
      | .punctuation .comma => some true
      | .punctuation .rparen => some false
      | _ => none) ts with
  | .error e => .error e
  | .ok (false, rest) => .ok ([], rest)
  | .ok (true, rest) => do
      let (l, r₁) ← label ctx rest.1
      let (ls, r₂) ← labels ctx r₁.1
      return (l :: ls, ⟨r₂.1, by have := rest.2; have := r₁.2; have := r₂.2; omega⟩)
  termination_by ts.length
  decreasing_by
    have := rest.2
    have := r₁.2
    omega

/-! ## Expressions and statements -/

mutual

/-- Read an expression; `follow` lists what may come behind it here. -/
def exp (ctx : Context) (follow : List Terminal) (ts : List Located) : Result Exp ts :=
  match take ctx expStarters ExpForm.ofToken? ts with
  | .error e => .error e
  | .ok (.binop, r₀) => do
      let (_, r₁) ← expect ctx lparen r₀.1
      let (op, r₂) ← binOp ctx r₁.1
      let (_, r₃) ← expect ctx comma r₂.1
      let (left, r₄) ← exp ctx [comma] r₃.1
      let (_, r₅) ← expect ctx comma r₄.1
      let (right, r₆) ← exp ctx [rparen] r₅.1
      let (_, r₇) ← expect ctx rparen r₆.1
      return (.binop op left right, ⟨r₇.1, by
        have := r₀.2; have := r₁.2; have := r₂.2; have := r₃.2; have := r₄.2; have := r₅.2
        have := r₆.2; have := r₇.2; omega⟩)
  | .ok (.mem, r₀) => do
      let (_, r₁) ← expect ctx lparen r₀.1
      let (address, r₂) ← exp ctx [rparen] r₁.1
      let (_, r₃) ← expect ctx rparen r₂.1
      return (.mem address, ⟨r₃.1, by
        have := r₀.2; have := r₁.2; have := r₂.2; have := r₃.2; omega⟩)
  | .ok (.temp, r₀) => do
      let (t, r₁) ← tempRef ctx follow r₀.1
      return (.temp t, ⟨r₁.1, by have := r₀.2; have := r₁.2; omega⟩)
  | .ok (.eseq, r₀) => do
      let (_, r₁) ← expect ctx lparen r₀.1
      let (s, r₂) ← stm ctx r₁.1
      let (_, r₃) ← expect ctx comma r₂.1
      let (e, r₄) ← exp ctx [rparen] r₃.1
      let (_, r₅) ← expect ctx rparen r₄.1
      return (.eseq s e, ⟨r₅.1, by
        have := r₀.2; have := r₁.2; have := r₂.2; have := r₃.2; have := r₄.2; have := r₅.2
        omega⟩)
  | .ok (.name, r₀) => do
      let (l, r₁) ← label ctx r₀.1
      return (.name l, ⟨r₁.1, by have := r₀.2; have := r₁.2; omega⟩)
  | .ok (.const, r₀) => do
      let (n, r₁) ← number ctx r₀.1
      return (.const n, ⟨r₁.1, by have := r₀.2; have := r₁.2; omega⟩)
  | .ok (.call, r₀) => do
      let (_, r₁) ← expect ctx lparen r₀.1
      let (callee, r₂) ← exp ctx [comma, rparen] r₁.1
      let (args, r₃) ← arguments ctx r₂.1
      return (.call callee args, ⟨r₃.1, by
        have := r₀.2; have := r₁.2; have := r₂.2; have := r₃.2; omega⟩)
  termination_by ts.length
  decreasing_by
    · have := r₀.2; have := r₁.2; have := r₂.2; have := r₃.2; omega
    · have := r₀.2; have := r₁.2; have := r₂.2; have := r₃.2; have := r₄.2; have := r₅.2; omega
    · have := r₀.2; have := r₁.2; omega
    · have := r₀.2; have := r₁.2; omega
    · have := r₀.2; have := r₁.2; have := r₂.2; have := r₃.2; omega
    · have := r₀.2; have := r₁.2; omega
    · have := r₀.2; have := r₁.2; have := r₂.2; omega

/-- Read `, e, …, e )`: the rest of a call behind its callee. -/
def arguments (ctx : Context) (ts : List Located) : Result (List Exp) ts :=
  match take ctx [comma, rparen] (fun
      | .punctuation .comma => some true
      | .punctuation .rparen => some false
      | _ => none) ts with
  | .error e => .error e
  | .ok (false, rest) => .ok ([], rest)
  | .ok (true, rest) => do
      let (e, r₁) ← exp ctx [comma, rparen] rest.1
      let (es, r₂) ← arguments ctx r₁.1
      return (e :: es, ⟨r₂.1, by have := rest.2; have := r₁.2; have := r₂.2; omega⟩)
  termination_by ts.length
  decreasing_by
    · have := rest.2; omega
    · have := rest.2; have := r₁.2; omega

def stm (ctx : Context) (ts : List Located) : Result Stm ts :=
  match take ctx stmStarters StmForm.ofToken? ts with
  | .error e => .error e
  | .ok (.seq, r₀) => do
      let (_, r₁) ← expect ctx lparen r₀.1
      let (a, r₂) ← stm ctx r₁.1
      let (_, r₃) ← expect ctx comma r₂.1
      let (b, r₄) ← stm ctx r₃.1
      let (_, r₅) ← expect ctx rparen r₄.1
      return (.seq a b, ⟨r₅.1, by
        have := r₀.2; have := r₁.2; have := r₂.2; have := r₃.2; have := r₄.2; have := r₅.2
        omega⟩)
  | .ok (.label, r₀) => do
      let (l, r₁) ← label ctx r₀.1
      return (.label l, ⟨r₁.1, by have := r₀.2; have := r₁.2; omega⟩)
  | .ok (.jump, r₀) => do
      let (_, r₁) ← expect ctx lparen r₀.1
      let (e, r₂) ← exp ctx [comma, rparen] r₁.1
      let (targets, r₃) ← labels ctx r₂.1
      return (.jump e targets, ⟨r₃.1, by
        have := r₀.2; have := r₁.2; have := r₂.2; have := r₃.2; omega⟩)
  | .ok (.cjump, r₀) => do
      let (_, r₁) ← expect ctx lparen r₀.1
      let (op, r₂) ← relOp ctx r₁.1
      let (_, r₃) ← expect ctx comma r₂.1
      let (left, r₄) ← exp ctx [comma] r₃.1
      let (_, r₅) ← expect ctx comma r₄.1
      let (right, r₆) ← exp ctx [comma] r₅.1
      let (_, r₇) ← expect ctx comma r₆.1
      let (ifTrue, r₈) ← label ctx r₇.1
      let (_, r₉) ← expect ctx comma r₈.1
      let (ifFalse, r₁₀) ← label ctx r₉.1
      let (_, r₁₁) ← expect ctx rparen r₁₀.1
      return (.cjump op left right ifTrue ifFalse, ⟨r₁₁.1, by
        have := r₀.2; have := r₁.2; have := r₂.2; have := r₃.2; have := r₄.2; have := r₅.2
        have := r₆.2; have := r₇.2; have := r₈.2; have := r₉.2; have := r₁₀.2; have := r₁₁.2
        omega⟩)
  | .ok (.move, r₀) => do
      let (_, r₁) ← expect ctx lparen r₀.1
      let (d, r₂) ← exp ctx [comma] r₁.1
      let (_, r₃) ← expect ctx comma r₂.1
      let (s, r₄) ← exp ctx [rparen] r₃.1
      let (_, r₅) ← expect ctx rparen r₄.1
      return (.move d s, ⟨r₅.1, by
        have := r₀.2; have := r₁.2; have := r₂.2; have := r₃.2; have := r₄.2; have := r₅.2
        omega⟩)
  | .ok (.exp, r₀) => do
      let (_, r₁) ← expect ctx lparen r₀.1
      let (e, r₂) ← exp ctx [rparen] r₁.1
      let (_, r₃) ← expect ctx rparen r₂.1
      return (.exp e, ⟨r₃.1, by
        have := r₀.2; have := r₁.2; have := r₂.2; have := r₃.2; omega⟩)
  termination_by ts.length
  decreasing_by
    · have := r₀.2; have := r₁.2; omega
    · have := r₀.2; have := r₁.2; have := r₂.2; have := r₃.2; omega
    · have := r₀.2; have := r₁.2; omega
    · have := r₀.2; have := r₁.2; have := r₂.2; have := r₃.2; omega
    · have := r₀.2; have := r₁.2; have := r₂.2; have := r₃.2; have := r₄.2; have := r₅.2; omega
    · have := r₀.2; have := r₁.2; omega
    · have := r₀.2; have := r₁.2; have := r₂.2; have := r₃.2; omega
    · have := r₀.2; have := r₁.2; omega

end

/-! ## Procedures -/

/-- Read statements up to the closing brace. -/
def body (ctx : Context) (ts : List Located) : Result (List Stm) ts :=
  match ts with
  | [] => .error (.unfinished ctx.eof (rbrace :: stmStarters))
  | t :: rest =>
      if t.token.terminal? = some rbrace then .ok ([], ⟨rest, Nat.lt_succ_self _⟩)
      else if (StmForm.ofToken? t.token).isNone then
        -- here the brace is one more thing that could come, so `stm` does not know the whole list
        .error (.unexpected t (rbrace :: stmStarters))
      else do
        let (s, r₁) ← stm ctx (t :: rest)
        let (ss, r₂) ← body ctx r₁.1
        return (s :: ss, ⟨r₂.1, by have := r₁.2; have := r₂.2; omega⟩)
  termination_by ts.length
  decreasing_by exact r₁.2

/-- Read procedures up to the end of the text. -/
def procedures (ctx : Context) (ts : List Located) : Except ParseError (List Procedure) :=
  match ts with
  | [] => .ok []
  | t :: rest => do
      let (_, r₀) ← expect ctx (.keyword .proc) (t :: rest)
      let (name, r₁) ← label ctx r₀.1
      let (_, r₂) ← expect ctx (.keyword .frame) r₁.1
      let (size, r₃) ← number ctx r₂.1
      let (_, r₄) ← expect ctx lbrace r₃.1
      let (ss, r₅) ← body ctx r₄.1
      let ps ← procedures ctx r₅.1
      return ⟨name, size, ss⟩ :: ps
  termination_by ts.length
  decreasing_by
    have := r₀.2
    have := r₁.2
    have := r₂.2
    have := r₃.2
    have := r₄.2
    have := r₅.2
    omega

end Parser

/-- The procedures of a list of tokens. -/
def Procedure.parse (machine : Machine) (ts : List Located) : Except ParseError (List Procedure) :=
  Parser.procedures ⟨machine, (ts.getLast?.map (·.stop)).getD 0⟩ ts

/-- The procedures of a text; register names are those of the machine. -/
def Procedure.parseText (machine : Machine) (text : String) :
    Except ParseError (List Procedure) :=
  Procedure.parse machine (Token.scan text)

end TreeCompiler
