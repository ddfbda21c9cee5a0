import TreeCompiler.Toml.Basic

/-!
# TOML words — booleans, numbers, dates and times

All of them are written as one word without brackets or quotes, but that a blank may stand between a
date and a time.  Numbers with a fraction and dates are recognised, their values are not kept.
-/

namespace TreeCompiler

namespace Toml

/-! ## Numbers -/

def hexValue? (c : Char) : Option Nat :=
  if c.isDigit then some (c.toNat - '0'.toNat)
  else if 'a' ≤ c && c ≤ 'f' then some (c.toNat - 'a'.toNat + 10)
  else if 'A' ≤ c && c ≤ 'F' then some (c.toNat - 'A'.toNat + 10)
  else none

/-- Digits of a base, where single underscores may stand between digits. -/
def digitsValue? (base : Nat) (cs : List Char) : Option Nat :=
  let rec go (n : Nat) (afterDigit : Bool) : List Char → Option Nat
    | [] => if afterDigit then some n else none
    | c :: r =>
        if c = '_' then (if afterDigit && !r.isEmpty then go n false r else none)
        else
          match hexValue? c with
          | some d => if d < base then go (base * n + d) true r else none
          | none => none
  go 0 false cs

/-- A decimal number without a superfluous zero in front. -/
def decimal? (cs : List Char) : Option Nat :=
  match cs with
  | '0' :: _ :: _ => none
  | _ => digitsValue? 10 cs

/-- Split off a sign. -/
def sign : List Char → Option Bool × List Char
  | '+' :: cs => (some false, cs)
  | '-' :: cs => (some true, cs)
  | cs => (none, cs)

/-- Integers are words of 64 bits. -/
def word64? (n : Int) : Option Int :=
  if -0x8000000000000000 ≤ n && n ≤ 0x7fffffffffffffff then some n else none

def integer? (cs : List Char) : Option Int :=
  match cs with
  | '0' :: 'x' :: ds => do word64? (← digitsValue? 16 ds)
  | '0' :: 'o' :: ds => do word64? (← digitsValue? 8 ds)
  | '0' :: 'b' :: ds => do word64? (← digitsValue? 2 ds)
  | _ => do
      let (minus, ds) := sign cs
      let n ← decimal? ds
      word64? (if minus = some true then -(n : Int) else n)

/-- A number written with a fraction or an exponent: a sign, and digits times a power of ten. -/
structure Decimal where
  negative : Bool
  digits : Nat
  exponent : Int

namespace Decimal

/-- Half a step above the largest double.  From here on numbers round to infinity. -/
def bound : Nat := Nat.pow 2 1024 - Nat.pow 2 970

/-- Whether the size of the number is below the bound. -/
def isFinite (d : Decimal) : Bool :=
  -- one more than the exponent of the first digit; for the bound this is 309
  let magnitude := (Nat.toDigits 10 d.digits).length + d.exponent
  if d.digits = 0 then true
  else if magnitude ≠ 309 then magnitude < 309
  else if 0 ≤ d.exponent then d.digits * Nat.pow 10 d.exponent.toNat < bound
  else d.digits < bound * Nat.pow 10 (-d.exponent).toNat

end Decimal

/-- An exponent: its mark, a sign and digits; or nothing at all. -/
def exponent? : List Char → Option Int
  | [] => some 0
  | c :: cs =>
      if c = 'e' || c = 'E' then do
        let (minus, ds) := sign cs
        let n ← digitsValue? 10 ds
        return if minus = some true then -(n : Int) else n
      else none

/-- A number with a fraction, an exponent or both. -/
def decimalFloat? (cs : List Char) : Option Decimal := do
  let inNumber (c : Char) : Bool := c.isDigit || c = '_'
  let (minus, body) := sign cs
  let negative : Bool := minus = some true
  let whole := body.takeWhile inNumber
  let n ← decimal? whole
  match body.drop whole.length with
  | [] => none
  | '.' :: more =>
      let fraction := more.takeWhile inNumber
      let m ← digitsValue? 10 fraction
      let places := (fraction.filter Char.isDigit).length
      let e ← exponent? (more.drop fraction.length)
      return { negative, digits := n * Nat.pow 10 places + m, exponent := e - places }
  | rest => do return { negative, digits := n, exponent := ← exponent? rest }

/-- Infinity and numbers that are none may be written as words.  A number must not round to positive
infinity; to negative infinity it may. -/
def isFloat (cs : List Char) : Bool :=
  let body := (sign cs).2
  body = "inf".toList || body = "nan".toList
    || ((decimalFloat? cs).map fun d => d.negative || d.isFinite).getD false

/-! ## Dates and times -/

/-- A number of a fixed count of digits within bounds, and what stands behind it. -/
def fixedNumber? (count low high : Nat) (cs : List Char) : Option (Nat × List Char) := do
  let ds := cs.take count
  if ds.length < count || !ds.all Char.isDigit then none
  let n ← digitsValue? 10 ds
  if low ≤ n && n ≤ high then some (n, cs.drop count) else none

def char? (c : Char) : List Char → Option (List Char)
  | d :: cs => if d = c then some cs else none
  | [] => none

def isLeapYear (year : Nat) : Bool := year % 4 = 0 && (year % 100 ≠ 0 || year % 400 = 0)

def daysOfMonth (year month : Nat) : Nat :=
  if month = 2 then (if isLeapYear year then 29 else 28)
  else if month ∈ [4, 6, 9, 11] then 30
  else 31

/-- The date `year-month-day`. -/
def date? (cs : List Char) : Option (List Char) := do
  let (year, cs) ← fixedNumber? 4 0 9999 cs
  let (month, cs) ← fixedNumber? 2 1 12 (← char? '-' cs)
  let (_, cs) ← fixedNumber? 2 1 (daysOfMonth year month) (← char? '-' cs)
  return cs

/-- The time `hours:minutes:seconds`, perhaps with a fraction. -/
def time? (cs : List Char) : Option (List Char) := do
  let (_, cs) ← fixedNumber? 2 0 23 cs
  let (_, cs) ← fixedNumber? 2 0 59 (← char? ':' cs)
  let (_, cs) ← fixedNumber? 2 0 60 (← char? ':' cs)
  match cs with
  | '.' :: ds =>
      let digits := ds.takeWhile Char.isDigit
      if digits.isEmpty then none else some (ds.drop digits.length)
  | _ => some cs

/-- The offset of a time zone. -/
def isZone (cs : List Char) : Bool :=
  match cs with
  | [] => true
  | ['Z'] => true
  | ['z'] => true
  | c :: rest =>
      let afterZone : Option (List Char) := do
        let (_, cs) ← fixedNumber? 2 0 23 rest
        let (_, cs) ← fixedNumber? 2 0 59 (← char? ':' cs)
        return cs
      (c = '+' || c = '-') && afterZone = some []

def isDatetime (cs : List Char) : Bool :=
  match date? cs with
  | some [] => true
  | some (c :: rest) =>
      (c = 'T' || c = 't' || c = ' ') && ((time? rest).map isZone).getD false
  | none => time? cs = some []

/-! ## Words -/

/-- Characters of which numbers, dates and words consist. -/
def isWordChar (c : Char) : Bool := c.isAlphanum || c = '+' || c = '-' || c = '_' ||
    c = '.' || c = ':'

/-- A word; behind a date, one blank and a time belong to it. -/
def word (cs : List Char) : List Char × List Char :=
  let w := cs.takeWhile isWordChar
  let rest := cs.drop w.length
  match date? w, rest with
  | some [], ' ' :: d :: more =>
      if d.isDigit then
        let time := (d :: more).takeWhile isWordChar
        (w ++ ' ' :: time, (d :: more).drop time.length)
      else (w, rest)
  | _, _ => (w, rest)

def wordValue? (w : List Char) : Option Value :=
  if w = "true".toList then some (.boolean true)
  else if w = "false".toList then some (.boolean false)
  else
    match integer? w with
    | some n => some (.integer n)
    | none =>
        if isFloat w then some .float
        else if isDatetime w then some .datetime
        else none

end Toml

end TreeCompiler
