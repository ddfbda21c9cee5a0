import TreeCompiler.Tree.Basic

/-!
# Token — the words of the tree notation

A `Token` is a word with its content, a `Terminal` is a kind of word as the grammar knows it.  A
character that begins no word is the token `Token.error`, which is of no terminal.

- `Token.spelling` : a text that reads as the token;
- `Token.display` : how a message shows a token;
- `Terminal.all` : every terminal, in the order in which messages list them.
-/

namespace TreeCompiler

/-! ## Words with a fixed spelling -/

/-- The reserved words, operators apart. -/
inductive Keyword
  | proc | frame
  | seq | label | jump | cjump | move | exp
  | binop | mem | temp | eseq | name | const | call
  deriving DecidableEq

namespace Keyword

def all : List Keyword :=
  [.proc, .frame, .seq, .label, .jump, .cjump, .move, .exp, .binop, .mem, .temp, .eseq, .name,
    .const, .call]

def spelling : Keyword → String
  | .proc => "proc"
  | .frame => "frame"
  | .seq => "SEQ"
  | .label => "LABEL"
  | .jump => "JUMP"
  | .cjump => "CJUMP"
  | .move => "MOVE"
  | .exp => "EXP"
  | .binop => "BINOP"
  | .mem => "MEM"
  | .temp => "TEMP"
  | .eseq => "ESEQ"
  | .name => "NAME"
  | .const => "CONST"
  | .call => "CALL"

end Keyword

inductive Punctuation
  | lparen | rparen | lbrace | rbrace | comma
  deriving DecidableEq

namespace Punctuation

def spelling : Punctuation → String
  | .lparen => "("
  | .rparen => ")"
  | .lbrace => "\x7b"
  | .rbrace => "\x7d"
  | .comma => ","

def ofChar? : Char → Option Punctuation
  | '(' => some .lparen
  | ')' => some .rparen
  | '{' => some .lbrace
  | '}' => some .rbrace
  | ',' => some .comma
  | _ => none

end Punctuation

/-! ## Tokens -/

inductive Token
  | ident (name : String)
  | temp (number : Nat)
  | register (name : String)
  | number (value : Int)
  | punctuation (p : Punctuation)
  | keyword (k : Keyword)
  | binOp (op : BinOp)
  | relOp (op : RelOp)
  | error
  deriving DecidableEq

/-- A token and the byte offsets where it starts and where it stops. -/
structure Located where
  start : Nat
  token : Token
  stop : Nat
  deriving DecidableEq

/-- Text between quotes, with quotes and backslashes inside escaped. -/
def quoted (s : String) : String :=
  let escape (c : Char) : List Char := if c = '"' ∨ c = '\\' then ['\\', c] else [c]
  "\"" ++ String.ofList (s.toList.flatMap escape) ++ "\""

namespace Token

/-- The text of a token; an error token has none. -/
def spelling : Token → String
  | .ident name => name
  | .temp n => "t" ++ toString n
  | .register name => "%" ++ name
  | .number n => toString n
  | .punctuation p => p.spelling
  | .keyword k => k.spelling
  | .binOp op => op.name
  | .relOp op => op.name
  | .error => ""

/-- What kind of token a message calls it. -/
def kind : Token → String
  | .ident _ => "Ident"
  | .temp _ => "Temp"
  | .register _ => "Reg"
  | .number _ => "Number"
  | .punctuation .lparen => "LParen"
  | .punctuation .rparen => "RParen"
  | .punctuation .lbrace => "LBrace"
  | .punctuation .rbrace => "RBrace"
  | .punctuation .comma => "COMMA"
  | .keyword .proc => "Proc"
  | .keyword .frame => "Frame"
  | .keyword k => k.spelling
  | .binOp op => op.name
  | .relOp op => op.name
  | .error => "Error"

/-- A token in a message: its kind, with its content if it has any. -/
def display (t : Token) : String :=
  match t with
  | .ident name => t.kind ++ "(" ++ quoted name ++ ")"
  | .temp n => t.kind ++ "(" ++ toString n ++ ")"
  | .register name => t.kind ++ "(" ++ quoted name ++ ")"
  | .number n => t.kind ++ "(" ++ toString n ++ ")"
  | _ => t.kind

end Token

/-! ## Terminals -/

/-- Kinds of tokens. -/
inductive Terminal
  | ident | temp | register | number
  | punctuation (p : Punctuation)
  | keyword (k : Keyword)
  | binOp (op : BinOp)
  | relOp (op : RelOp)
  deriving DecidableEq

def Token.terminal? : Token → Option Terminal
  | .ident _ => some .ident
  | .temp _ => some .temp
  | .register _ => some .register
  | .number _ => some .number
  | .punctuation p => some (.punctuation p)
  | .keyword k => some (.keyword k)
  | .binOp op => some (.binOp op)
  | .relOp op => some (.relOp op)
  | .error => none

namespace Terminal

def name : Terminal → String
  | .ident => "Ident"
  | .temp => "TempNum"
  | .register => "RegName"
  | .number => "Num"
  | .punctuation p => p.spelling
  | .keyword k => k.spelling
  | .binOp op => op.name
  | .relOp op => op.name

/-- Every terminal by increasing name. -/
def all : List Terminal :=
  [.punctuation .lparen, .punctuation .rparen, .punctuation .comma,
    .binOp .and, .binOp .arshift, .keyword .binop, .keyword .call, .keyword .cjump,
    .keyword .const, .binOp .div, .relOp .eq, .keyword .eseq, .keyword .exp, .relOp .ge,
    .relOp .gt, .ident, .keyword .jump, .keyword .label, .relOp .le, .binOp .lshift, .relOp .lt,
    .keyword .mem, .binOp .minus, .keyword .move, .binOp .mul, .keyword .name, .relOp .ne,
    .number, .binOp .or, .binOp .plus, .binOp .rshift, .register, .keyword .seq, .keyword .temp,
    .temp, .relOp .uge, .relOp .ugt, .relOp .ule, .relOp .ult, .binOp .xor, .keyword .frame,
    .keyword .proc, .punctuation .lbrace, .punctuation .rbrace]

theorem mem_all (t : Terminal) : t ∈ all := by
  cases t with
  | ident => decide
  | temp => decide
  | register => decide
  | number => decide
  | punctuation p => cases p <;> decide
  | keyword k => cases k <;> decide
  | binOp op => cases op <;> decide
  | relOp op => cases op <;> decide

/-- Put a set of terminals into the order of their names. -/
def sorted (ts : List Terminal) : List Terminal := all.filter (· ∈ ts)

theorem mem_sorted {ts : List Terminal} {t : Terminal} : t ∈ sorted ts ↔ t ∈ ts := by
  simp [sorted, mem_all]

end Terminal

end TreeCompiler
