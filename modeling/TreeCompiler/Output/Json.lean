/-!
# JSON — values and their written form

Values are written over several lines, indented by two spaces a level; an empty list or object is
written without a line break.
-/

namespace TreeCompiler

inductive Json
  | string (s : String)
  | number (n : Int)
  | array (items : List Json)
  | object (fields : List (String × Json))

namespace Json

/-- The last digit of the four that write a control character. -/
def hexDigit (n : Nat) : Char := (Nat.toDigits 16 (n % 16)).headD '0'

/-- A character inside quotes: quotes, backslashes and control characters are escaped. -/
def escape (c : Char) : String :=
  match c with
  | '"' => "\\\""
  | '\\' => "\\\\"
  | '\n' => "\\n"
  | '\r' => "\\r"
  | '\t' => "\\t"
  | '\x08' => "\\b"
  | '\x0c' => "\\f"
  | c =>
      if c.toNat < 32 then
        "\\u00" ++ String.ofList [hexDigit (c.toNat / 16), hexDigit c.toNat]
      else c.toString

def quote (s : String) : String := "\"" ++ String.join (s.toList.map escape) ++ "\""

/-- A line break and the indentation of a level. -/
def newline (level : Nat) : String := "\n" ++ String.ofList (List.replicate (2 * level) ' ')

mutual

/-- A value whose first line is already indented. -/
def print (level : Nat) : Json → String
  | .string s => quote s
  | .number n => toString n
  | .array [] => "[]"
  | .array (v :: vs) =>
      "[" ++ newline (level + 1) ++ v.print (level + 1) ++ printItems (level + 1) vs
        ++ newline level ++ "]"
  | .object [] => "\x7b\x7d"
  | .object ((k, v) :: fs) =>
      "\x7b" ++ newline (level + 1) ++ quote k ++ ": " ++ v.print (level + 1)
        ++ printFields (level + 1) fs ++ newline level ++ "\x7d"

/-- The items behind the first one. -/
def printItems (level : Nat) : List Json → String
  | [] => ""
  | v :: vs => "," ++ newline level ++ v.print level ++ printItems level vs

/-- The fields behind the first one. -/
def printFields (level : Nat) : List (String × Json) → String
  | [] => ""
  | (k, v) :: fs =>
      "," ++ newline level ++ quote k ++ ": " ++ v.print level ++ printFields level fs

end

def render (v : Json) : String := v.print 0

end Json

end TreeCompiler
