import Sequencer.Text.Numeral

/-!
# What plain scalars stand for

A plain scalar is nothing, a truth value, a number or a point in time if it is spelled like one, and
text otherwise.
-/

namespace Sequencer.Yaml

open Text

/-! ### Decimal fractions -/

/-- A binary floating-point number: a sign, a natural number and a power of two. -/
structure Double where
  negative : Bool
  mantissa : Nat
  exponent : Int
deriving DecidableEq, Repr, Inhabited

/-- The bits of a mantissa. -/
def Double.precision : Nat := 53

def Double.minExponent : Int := -1074

def Double.maxExponent : Int := 971

/-- Divide and round to the nearest number, a half to the even neighbour. -/
def roundDiv (a b : Nat) : Nat :=
  let q := a / b
  let r := 2 * (a % b)
  if b < r || (r = b && q % 2 = 1) then q + 1 else q

/-- The quotient `a / b` in units of `2 ^ e`, rounded. -/
def scaledDiv (a b : Nat) (e : Int) : Nat :=
  if 0 ≤ e then roundDiv a (b * Nat.pow 2 e.toNat) else roundDiv (a * Nat.pow 2 (-e).toNat) b

/-- The floating-point number nearest to `a / b`, unless it is too large. The exponent is chosen so
that the mantissa has its full length, or is the least one. -/
def Double.ofRatio? (negative : Bool) (a b : Nat) : Option Double :=
  if a = 0 then some ⟨negative, 0, 0⟩
  else
    let guess : Int := (a.log2 : Int) - b.log2 - precision
    let e := max guess minExponent
    let m := scaledDiv a b e
    let (m, e) :=
      if Nat.pow 2 precision ≤ m then
        let e := e + 1
        (scaledDiv a b e, e)
      else (m, e)
    let (m, e) := if m = Nat.pow 2 precision then (Nat.pow 2 (precision - 1), e + 1) else (m, e)
    if maxExponent < e then none else some ⟨negative, m, e⟩

/-- The integer part, toward zero. -/
def Double.truncate (d : Double) : Int :=
  let n : Nat :=
    if 0 ≤ d.exponent then d.mantissa * Nat.pow 2 d.exponent.toNat
    else d.mantissa / Nat.pow 2 (-d.exponent).toNat
  if d.negative then -(n : Int) else n

/-- The number `digits * 10 ^ exponent`, unless it is too large. Numbers that are certainly zero or
too large are told by their length. -/
def Double.ofDecimal? (negative : Bool) (digits : Nat) (length : Nat) (exponent : Int) :
    Option Double :=
  if digits = 0 then some ⟨negative, 0, 0⟩
  else if 400 < exponent then none
  else if (length : Int) + exponent < -400 then some ⟨negative, 0, 0⟩
  else if 0 ≤ exponent then ofRatio? negative (digits * Nat.pow 10 exponent.toNat) 1
  else ofRatio? negative digits (Nat.pow 10 (-exponent).toNat)

/-- The sign in front of a number, and the rest. -/
def splitSign (cs : List Char) : Bool × List Char :=
  match cs with
  | '-' :: rest => (true, rest)
  | '+' :: rest => (false, rest)
  | rest => (false, rest)

/-- The digits that a text starts with, and the rest. -/
def splitDigits (cs : List Char) : List Char × List Char :=
  (cs.takeWhile Char.isDigit, cs.dropWhile Char.isDigit)

/-- The number that digits of a base spell. -/
def digitsValue (base : Nat) (cs : List Char) : Nat :=
  cs.foldl (fun n c => n * base + (c.toNat - '0'.toNat)) 0

/-- The exponent at the end of a decimal fraction. -/
def exponent? (cs : List Char) : Option Int :=
  match cs with
  | [] => some 0
  | e :: rest =>
    if e = 'e' || e = 'E' then
      let (negative, ds) := splitSign rest
      if ds.isEmpty || !ds.all Char.isDigit then none
      else some (if negative then -(digitsValue 10 ds : Int) else digitsValue 10 ds)
    else none

/-- The number that a decimal fraction spells: digits with or without a point, and an exponent. -/
def decimal? (cs : List Char) : Option Double := do
  let (negative, cs) := splitSign cs
  let (whole, rest) := splitDigits cs
  let (part, rest) := match rest with
    | '.' :: rest => splitDigits rest
    | rest => ([], rest)
  if whole.isEmpty && part.isEmpty then none
  else
    let e ← exponent? rest
    let digits := whole ++ part
    Double.ofDecimal? negative (digitsValue 10 digits) digits.length (e - part.length)

/-! ### Points in time -/

/-- A number of one or two digits at the start of a text. -/
def shortNumber? (cs : List Char) : Option (Nat × List Char) :=
  let ds := (cs.take 2).takeWhile Char.isDigit
  if ds.isEmpty then none else some (digitsValue 10 ds, cs.drop ds.length)

/-- The rest of a text after a character. -/
def after? (c : Char) (cs : List Char) : Option (List Char) :=
  if cs.head? = some c then some cs.tail else none

def daysIn (year month : Nat) : Nat :=
  let leap := year % 4 = 0 && (year % 100 ≠ 0 || year % 400 = 0)
  match month with
  | 2 => if leap then 29 else 28
  | 4 | 6 | 9 | 11 => 30
  | _ => 31

def date? (cs : List Char) : Option (List Char) := do
  let (year, rest) := splitDigits cs
  if year.length ≠ 4 then none
  let rest ← after? '-' rest
  let (month, rest) ← shortNumber? rest
  let rest ← after? '-' rest
  let (day, rest) ← shortNumber? rest
  if 1 ≤ month && month ≤ 12 && 1 ≤ day && day ≤ daysIn (digitsValue 10 year) month then some rest
  else none

def timeOfDay? (cs : List Char) : Option (List Char) := do
  let (hour, rest) ← shortNumber? cs
  let rest ← after? ':' rest
  let (minute, rest) ← shortNumber? rest
  let rest ← after? ':' rest
  let (second, rest) ← shortNumber? rest
  if 24 ≤ hour || 60 ≤ minute || 60 ≤ second then none
  else
    match rest with
    | p :: d :: more =>
      if (p = '.' || p = ',') && d.isDigit then some (more.dropWhile Char.isDigit) else some rest
    | _ => some rest

def isZone (cs : List Char) : Bool :=
  match cs with
  | ['Z'] => true
  | [s, a, b, ':', c, d] =>
    (s = '+' || s = '-') && [a, b, c, d].all Char.isDigit
      && digitsValue 10 [a, b] ≤ 24 && digitsValue 10 [c, d] ≤ 60
  | _ => false

/-- Whether a text is a date, or a date with a time of day. -/
def isTimestamp (cs : List Char) : Bool :=
  match date? cs with
  | none => false
  | some [] => true
  | some (t :: rest) =>
    match timeOfDay? (if t = ' ' then rest.dropWhile (· = ' ') else rest) with
    | none => false
    | some zone => if t = ' ' then zone.isEmpty else (t = 'T' || t = 't') && isZone zone

/-! ### Meanings -/

/-- What a scalar stands for. -/
inductive Meaning where
  | nothing
  | bool
  | int (n : Int)
  | float (d : Double)
  /-- A float without a finite value. -/
  | infinite (negative : Bool)
  | notANumber
  | timestamp
  | string
deriving DecidableEq, Repr, Inhabited

def Meaning.tag : Meaning → String
  | nothing => "!!null"
  | bool => "!!bool"
  | int _ => "!!int"
  | float _ | infinite _ | notANumber => "!!float"
  | timestamp => "!!timestamp"
  | string => "!!str"

/-- The words with a meaning of their own. -/
def words : List (String × Meaning) :=
  ["", "~", "null", "Null", "NULL"].map (·, .nothing)
    ++ ["true", "True", "TRUE", "false", "False", "FALSE"].map (·, .bool)
    ++ [".nan", ".NaN", ".NAN"].map (·, .notANumber)
    ++ [".inf", ".Inf", ".INF", "+.inf", "+.Inf", "+.INF"].map (·, .infinite false)
    ++ ["-.inf", "-.Inf", "-.INF"].map (·, .infinite true)

/-- The integer that a text spells, if it fits in 64 bits with or without a sign. -/
def integer? (cs : List Char) : Option Int :=
  (Numeral.signed cs).toOption.map Int64.toInt <|> (Numeral.unsigned cs).toOption.map Nat.cast

/-- The integer that a sign and digits of the base behind the mark `0b` or `0o` spell, if it fits in
64 bits. -/
def markedInteger? (cs : List Char) : Option Int :=
  match cs with
  | '0' :: mark :: rest => do
    let base ← if mark = 'b' then some 2 else if mark = 'o' then some 8 else none
    let (negative, ds) := splitSign rest
    if ds.isEmpty || !ds.all (fun c => c.isDigit && c.toNat - '0'.toNat < base) then none
    let n : Int := if negative then -(digitsValue base ds : Int) else digitsValue base ds
    if Int64.minValue.toInt ≤ n && n ≤ Int64.maxValue.toInt then some n else none
  | _ => none

/-- What a text that starts with a digit or a sign stands for. -/
def Meaning.ofNumeric (cs : List Char) : Meaning :=
  if isTimestamp cs then .timestamp
  else
    let plain := cs.filter (· ≠ '_')
    ((integer? plain).map int <|> (decimal? plain).map float
      <|> (markedInteger? plain).map int).getD string

/-- Whether underscores stand between digits only. -/
def separated : (afterDigit : Bool) → List Char → Bool
  | _, [] => true
  | afterDigit, c :: cs =>
    if c = '_' then afterDigit && (cs.head?.map Char.isDigit).getD false && separated false cs
    else separated c.isDigit cs

/-- What a plain scalar stands for. -/
def Meaning.ofPlain (text : String) : Meaning :=
  match words.lookup text with
  | some m => m
  | none =>
    match text.toList with
    | [] => .string
    | c :: cs =>
      if c.isDigit || c = '+' || c = '-' then .ofNumeric (c :: cs)
      else if c = '.' && separated false cs then
        ((decimal? (c :: cs.filter (· ≠ '_'))).map .float).getD .string
      else .string

end Sequencer.Yaml
