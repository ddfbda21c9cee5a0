import TreeCompiler.Toml.Basic
import TreeCompiler.Toml.Word

/-!
# TOML parser — text to documents

Readers take characters from the front of a list and return what is left.  All of them answer
`none` for a text that is not of their form.  Readers that call each other have a bound on the
recursion, for which the length of the text is always enough; how deep values may be nested is a
rule of its own (`Toml.nestingLimit`).
-/

namespace TreeCompiler

namespace Toml

abbrev Reader (α : Type) := List Char → Option (α × List Char)

/-! ## Blanks, line ends and comments -/

def isBlank (c : Char) : Bool := c = ' ' || c = '\t'

def skipBlanks (cs : List Char) : List Char := cs.dropWhile isBlank

/-- Characters that a comment may hold. -/
def isCommentChar (c : Char) : Bool := c = '\t' || (32 ≤ c.toNat && c.toNat ≠ 127)

def skipComment : List Char → List Char
  | '#' :: cs => cs.dropWhile isCommentChar
  | cs => cs

/-- A line end is a line feed, before which a carriage return may stand. -/
def newline? : List Char → Option (List Char)
  | '\n' :: cs => some cs
  | '\r' :: '\n' :: cs => some cs
  | _ => none

/-- Blanks, a comment and then the end of the line or of the text. -/
def endOfLine (cs : List Char) : Option (List Char) :=
  match skipComment (skipBlanks cs) with
  | [] => some []
  | rest => newline? rest

/-- Skip blanks, comments and line ends; the number bounds the line ends. -/
def skipLines : Nat → List Char → List Char
  | 0, cs => cs
  | n + 1, cs =>
      let rest := skipComment (skipBlanks cs)
      match newline? rest with
      | some more => skipLines n more
      | none => rest

def skipSpace (cs : List Char) : List Char := skipLines cs.length cs

/-! ## Strings -/

/-- The character of an escape with a fixed number of hexadecimal digits. -/
def unicodeEscape (digits : Nat) (cs : List Char) : Option (Char × List Char) := do
  let ds := cs.take digits
  if ds.length < digits then none
  let values ← ds.mapM hexValue?
  let n := values.foldl (fun n d => 16 * n + d) 0
  if n.isValidChar then some (Char.ofNat n, cs.drop digits) else none

/-- The character of an escape, behind its backslash. -/
def escaped : Reader Char
  | 'b' :: cs => some ('\x08', cs)
  | 't' :: cs => some ('\t', cs)
  | 'n' :: cs => some ('\n', cs)
  | 'f' :: cs => some ('\x0c', cs)
  | 'r' :: cs => some ('\r', cs)
  | '"' :: cs => some ('"', cs)
  | '\\' :: cs => some ('\\', cs)
  | 'u' :: cs => unicodeEscape 4 cs
  | 'U' :: cs => unicodeEscape 8 cs
  | _ => none

/-- Characters that a string may hold as they are, quotes and backslashes apart. -/
def isPlain (c : Char) : Bool := c = '\t' || (32 ≤ c.toNat && c.toNat ≠ 127)

/-- The rest of a string between double quotes. -/
def basicString : Nat → List Char → Reader String
  | 0, _, _ => none
  | _ + 1, done, '"' :: cs => some (String.ofList done.reverse, cs)
  | n + 1, done, '\\' :: cs => do
      let (c, rest) ← escaped cs
      basicString n (c :: done) rest
  | n + 1, done, c :: cs => if isPlain c then basicString n (c :: done) cs else none
  | _, _, [] => none

/-- The rest of a string between single quotes. -/
def literalString (cs : List Char) : Option (String × List Char) :=
  let body := cs.takeWhile fun c => isPlain c && c ≠ '\''
  match cs.drop body.length with
  | '\'' :: rest => some (String.ofList body, rest)
  | _ => none

/-- Drop the line end that may follow the quotes of a string over several lines. -/
def dropFirstNewline (cs : List Char) : List Char := (newline? cs).getD cs

/-- The quotes that end a string over several lines: three, with up to two more that belong to the
string. -/
def closingQuotes (quote : Char) (cs : List Char) : Option (List Char × List Char) :=
  let quotes := cs.takeWhile (· = quote)
  let count := min quotes.length 5
  if count < 3 then none else some (List.replicate (count - 3) quote, cs.drop count)

/-- Skip blanks and line ends; the number bounds the line ends. -/
def skipBlankLines : Nat → List Char → List Char
  | 0, cs => cs
  | n + 1, cs =>
      match newline? (skipBlanks cs) with
      | some more => skipBlankLines n more
      | none => skipBlanks cs

/-- A backslash at the end of a line drops the blanks and line ends behind it. -/
def lineContinuation? (cs : List Char) : Option (List Char) := do
  let rest ← newline? (skipBlanks cs)
  return skipBlankLines (rest.length + 1) rest

/-- The rest of a string over several lines; only double quotes know escapes. -/
def multilineString (quote : Char) : Nat → List Char → Reader String
  | 0, _, _ => none
  | n + 1, done, cs =>
      match closingQuotes quote cs with
      | some (more, rest) => some (String.ofList (done.reverse ++ more), rest)
      | none =>
          match newline? cs, cs with
          | some rest, _ => multilineString quote n ('\n' :: done) rest
          | none, [] => none
          | none, c :: rest =>
              if c = '\\' && quote = '"' then
                match lineContinuation? rest with
                | some rest' => multilineString quote n done rest'
                | none => do
                    let (e, rest') ← escaped rest
                    multilineString quote n (e :: done) rest'
              else if isPlain c then multilineString quote n (c :: done) rest
              else none

/-- A string on one line. -/
def oneLineString : Reader String
  | '"' :: cs => basicString (cs.length + 1) [] cs
  | '\'' :: cs => literalString cs
  | _ => none

def stringValue : Reader String
  | '"' :: '"' :: '"' :: cs => multilineString '"' (cs.length + 1) [] (dropFirstNewline cs)
  | '\'' :: '\'' :: '\'' :: cs => multilineString '\'' (cs.length + 1) [] (dropFirstNewline cs)
  | cs => oneLineString cs

/-! ## Keys -/

def isBareKeyChar (c : Char) : Bool := c.isAlphanum || c = '_' || c = '-'

def simpleKey (cs : List Char) : Option (String × List Char) :=
  match cs with
  | '"' :: _ => oneLineString cs
  | '\'' :: _ => oneLineString cs
  | _ =>
      let name := cs.takeWhile isBareKeyChar
      if name.isEmpty then none else some (String.ofList name, cs.drop name.length)

/-- Keys with dots between them, and blanks around the dots; the number bounds the keys. -/
def dottedKey : Nat → Reader (List String)
  | 0, _ => none
  | n + 1, cs => do
      let (key, rest) ← simpleKey (skipBlanks cs)
      match skipBlanks rest with
      | '.' :: more =>
          let (keys, rest') ← dottedKey n more
          return (key :: keys, rest')
      | rest' => return ([key], rest')

/-- Keys have fewer parts, and values fewer levels, than this. -/
def nestingLimit : Nat := 80

def key (cs : List Char) : Option (List String × List Char) := do
  let (parts, rest) ← dottedKey cs.length cs
  if parts.length < nestingLimit then some (parts, rest) else none

/-! ## Values -/

/-- Define a dotted key in a table between braces. -/
def defineInline (path : List String) (v : Value) (t : Table) : Option Table :=
  Table.define [] path v t

mutual

/-- Read a value.  The first number is how many levels of brackets and braces it may still open, the
second bounds the recursion. -/
def value (levels : Nat) : Nat → Reader Value
  | 0, _ => none
  | _ + 1, '"' :: cs => do
      let (s, rest) ← stringValue ('"' :: cs)
      return (.string s, rest)
  | _ + 1, '\'' :: cs => do
      let (s, rest) ← stringValue ('\'' :: cs)
      return (.string s, rest)
  | n + 1, '[' :: cs =>
      match levels with
      | 0 => none
      | deeper + 1 => do
          let (items, rest) ← arrayItems deeper n [] (skipSpace cs)
          return (.array items, rest)
  | n + 1, '{' :: cs =>
      match levels, skipBlanks cs with
      | 0, _ => none
      | _ + 1, '}' :: rest => some (.table .inline [], rest)
      | deeper + 1, cs' => do
          let (t, rest) ← inlineEntries deeper n [] cs'
          return (.table .inline t, rest)
  | _ + 1, cs => do
      let (w, rest) := word cs
      let v ← wordValue? w
      return (v, rest)

/-- The items of an array up to its bracket, with a comma behind each but perhaps the last. -/
def arrayItems (levels : Nat) : Nat → List Value → Reader (List Value)
  | 0, _, _ => none
  | _ + 1, done, ']' :: cs => some (done, cs)
  | n + 1, done, cs => do
      let (v, rest) ← value levels n cs
      match skipSpace rest with
      | ',' :: more => arrayItems levels n (done ++ [v]) (skipSpace more)
      | ']' :: more => some (done ++ [v], more)
      | _ => none

/-- The entries of a table between braces, with commas between them. -/
def inlineEntries (levels : Nat) : Nat → Table → Reader Table
  | 0, _, _ => none
  | n + 1, done, cs => do
      let (path, rest) ← key cs
      match rest with
      | '=' :: more =>
          let (v, rest') ← value levels n (skipBlanks more)
          let t ← defineInline path v done
          match skipBlanks rest' with
          | ',' :: more' => inlineEntries levels n t more'
          | '}' :: more' => some (t, more')
          | _ => none
      | _ => none

end

/-! ## Documents -/

/-- What was read so far, and the header that the next lines belong to. -/
structure Document where
  root : Table := []
  header : List String := []

/-- A header between brackets. -/
def headerLine (d : Document) (cs : List Char) : Option (Document × List Char) :=
  match cs with
  | '[' :: '[' :: more => do
      let (path, rest) ← key more
      let rest ← char? ']' rest
      let rest ← char? ']' rest
      let root ← Table.atPath false Table.appendTable path d.root
      return (⟨root, path⟩, rest)
  | '[' :: more => do
      let (path, rest) ← key more
      let rest ← char? ']' rest
      let root ← Table.atPath false Table.openTable path d.root
      return (⟨root, path⟩, rest)
  | _ => none

/-- A key and its value. -/
def entryLine (d : Document) (cs : List Char) : Option (Document × List Char) := do
  let (path, rest) ← key cs
  let rest ← char? '=' rest
  let rest := skipBlanks rest
  let (v, rest) ← value (nestingLimit - 1) (2 * rest.length + 2) rest
  let root ← Table.define d.header path v d.root
  return (⟨root, d.header⟩, rest)

/-- Read lines to the end of the text; the number bounds the lines. -/
def lines : Nat → Document → List Char → Option Document
  | 0, _, _ => none
  | n + 1, d, cs =>
      match skipSpace cs with
      | [] => some d
      | '[' :: more => do
          let (d', rest) ← headerLine d ('[' :: more)
          lines n d' (← endOfLine rest)
      | cs' => do
          let (d', rest) ← entryLine d cs'
          lines n d' (← endOfLine rest)

/-- A mark for the byte order may stand at the start of a text. -/
def dropByteOrderMark : List Char → List Char
  | '\ufeff' :: cs => cs
  | cs => cs

/-- The document of a text. -/
def parse (text : String) : Option Table := do
  let cs := dropByteOrderMark text.toList
  let d ← lines (cs.length + 1) {} cs
  return d.root

end Toml

end TreeCompiler
