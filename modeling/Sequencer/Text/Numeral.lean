/-!
# Integer literals

A literal is decimal, or binary, octal or hexadecimal after `0b`, `0o` or `0x`; a bare leading `0`
also means octal. Single underscores may separate digits. A value that grows too large is reported
before a bad character further to the right, and misplaced underscores are looked at last.
-/

namespace Sequencer.Text.Numeral

/-- Why a literal denotes no value. -/
inductive Error where
  /-- It is not spelled like an integer. -/
  | malformed
  /-- Its value does not fit. -/
  | tooLarge
deriving DecidableEq, Repr

def Error.message : Error → String
  | .malformed => "invalid syntax"
  | .tooLarge => "value out of range"

def maxUnsigned : Nat := 18446744073709551615

/-- The largest signed 64-bit value. The least one is one further from zero. -/
def maxSigned : Nat := 9223372036854775807

/-- The value of a letter or digit as a digit of some base up to 36. -/
def digit? (c : Char) : Option Nat :=
  if '0' ≤ c && c ≤ '9' then some (c.toNat - '0'.toNat)
  else if 'a' ≤ c && c ≤ 'z' then some (c.toNat - 'a'.toNat + 10)
  else if 'A' ≤ c && c ≤ 'Z' then some (c.toNat - 'A'.toNat + 10)
  else none

/-- The base a literal is written in, whether a base mark says so, and the digits after the mark.
A base mark needs at least one more character behind it. -/
def split (cs : List Char) : Nat × Bool × List Char :=
  match cs with
  | '0' :: m :: d :: ds =>
    if m = 'b' || m = 'B' then (2, true, d :: ds)
    else if m = 'o' || m = 'O' then (8, true, d :: ds)
    else if m = 'x' || m = 'X' then (16, true, d :: ds)
    else (8, false, m :: d :: ds)
  | '0' :: ds => (8, false, ds)
  | ds => (10, false, ds)

/-- The value of `digits` read after a part worth `acc`, underscores skipped. -/
def value (base : Nat) (acc : Nat) : (digits : List Char) → Except Error Nat
  | [] => .ok acc
  | c :: cs =>
    if c = '_' then value base acc cs
    else
      match digit? c with
      | none => .error .malformed
      | some d =>
        if base ≤ d then .error .malformed
        else if maxUnsigned < acc * base + d then .error .tooLarge
        else value base (acc * base + d) cs

/-- Every underscore stands between two digits; `afterDigit` tells whether a digit or a base mark
came just before. -/
def separatorsOk (afterDigit : Bool) : List Char → Bool
  | [] => afterDigit
  | c :: cs => if c = '_' then afterDigit && separatorsOk false cs else separatorsOk true cs

def unsigned (cs : List Char) : Except Error Nat :=
  if cs.isEmpty then .error .malformed
  else
    let (base, marked, digits) := split cs
    match value base 0 digits with
    | .error e => .error e
    | .ok n =>
      if digits.contains '_' && !separatorsOk marked (if marked then digits else cs) then
        .error .malformed
      else .ok n

/-- The value of a literal with an optional sign, within the signed 64-bit range. -/
def signed (cs : List Char) : Except Error Int64 :=
  let (negative, digits) :=
    match cs with
    | '-' :: ds => (true, ds)
    | '+' :: ds => (false, ds)
    | ds => (false, ds)
  match unsigned digits with
  | .error e => .error e
  | .ok n =>
    if (if negative then maxSigned + 1 else maxSigned) < n then .error .tooLarge
    else .ok (Int64.ofInt (if negative then -(n : Int) else n))

end Sequencer.Text.Numeral
