import TreeCompiler.Token.Basic

/-!
# Lexer — text to tokens

Words are read longest first.  A word of letters, digits, `_` and `.` is a keyword, an operator, a
temp (`t` and digits only) or an identifier; a register is `%` with a letter and more letters or
digits; a number may have a minus sign.  Blanks and comments, which run from `#` to the end of the
line, only separate.  The notation is ASCII: any other character is an error token of its own.

Numbers of temps are below 2^32 and constants are words of 64 bits; a spelling that exceeds them is
one error token.
-/

namespace TreeCompiler

namespace Token

/-! ## Character classes -/

def isBlank (c : Char) : Bool := c ∈ [' ', '\t', '\n', '\x0b', '\r', '\x0c']

def isWordStart (c : Char) : Bool := c.isAlpha || c = '_'

def isWordChar (c : Char) : Bool := c.isAlphanum || c = '_' || c = '.'

/-! ## Words -/

/-- The value of a list of decimal digits. -/
def digitsValue (ds : List Char) : Nat := ds.foldl (fun n d => 10 * n + (d.toNat - '0'.toNat)) 0

/-- Numbers of temps are below this bound. -/
def tempBound : Nat := 0x100000000

/-- The least and the largest constant. -/
def minConst : Int := -0x8000000000000000

def maxConst : Int := 0x7fffffffffffffff

/-- The words with a fixed spelling. -/
def reserved : List (String × Token) :=
  Keyword.all.map (fun k => (k.spelling, .keyword k))
    ++ BinOp.all.map (fun op => (op.name, .binOp op))
    ++ RelOp.all.map (fun op => (op.name, .relOp op))

def ofTempDigits (ds : List Char) : Token :=
  let n := digitsValue ds
  if n < tempBound then .temp n else .error

/-- The token of a word of letters, digits, `_` and `.`. -/
def ofWord (w : List Char) : Token :=
  -- no reserved word begins with a small `t`, so the order of the cases does not matter
  match reserved.lookup (String.ofList w) with
  | some t => t
  | none =>
      match w with
      | 't' :: d :: ds => if (d :: ds).all Char.isDigit then ofTempDigits (d :: ds)
          else .ident (String.ofList w)
      | _ => .ident (String.ofList w)

def ofNumber (n : Int) : Token := if minConst ≤ n ∧ n ≤ maxConst then .number n else .error

/-- The token that begins with `c`, and how many characters of `rest` it takes. -/
def read (c : Char) (rest : List Char) : Token × Nat :=
  if isWordStart c then
    let more := rest.takeWhile isWordChar
    (ofWord (c :: more), more.length)
  else if c.isDigit then
    let more := rest.takeWhile Char.isDigit
    (ofNumber (digitsValue (c :: more)), more.length)
  else if c = '-' then
    let ds := rest.takeWhile Char.isDigit
    -- a minus sign alone is no token, and what follows is read anew
    if ds = [] then (.error, 0) else (ofNumber (-(digitsValue ds)), ds.length)
  else if c = '%' then
    match rest with
    | d :: more =>
        if d.isAlpha then
          let name := d :: more.takeWhile Char.isAlphanum
          (.register (String.ofList name), name.length)
        else (.error, 0)
    | [] => (.error, 0)
  else
    match Punctuation.ofChar? c with
    | some p => (.punctuation p, 0)
    | none => (.error, 0)

/-! ## Texts -/

/-- Bytes of a list of characters. -/
def byteLength (cs : List Char) : Nat := cs.foldl (fun n c => n + c.utf8Size) 0

/-- The tokens of a text that starts at a byte offset. -/
def scanFrom (offset : Nat) : List Char → List Located
  | [] => []
  | c :: rest =>
      if isBlank c then
        scanFrom (offset + c.utf8Size) rest
      else if c = '#' then
        let comment := rest.takeWhile (· ≠ '\n')
        scanFrom (offset + byteLength (c :: comment)) (rest.drop comment.length)
      else
        let (token, more) := read c rest
        let stop := offset + byteLength (c :: rest.take more)
        ⟨offset, token, stop⟩ :: scanFrom stop (rest.drop more)
  termination_by cs => cs.length
  decreasing_by all_goals (simp only [List.length_cons, List.length_drop]; omega)

def scan (text : String) : List Located := scanFrom 0 text.toList

end Token

end TreeCompiler
