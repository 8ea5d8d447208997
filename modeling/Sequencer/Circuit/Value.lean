/-!
# Values

Signals, constants, operators and bit slices, each with a width, which is a signed 64-bit number and
wraps around like one. Two nodes with the same content can be different, so every node carries a
**tag** that `Fresh` hands out.
-/

namespace Sequencer.Circuit

/-! ### Tags -/

/-- A computation that takes tags from a supply; the state is the next unused tag. -/
abbrev Fresh := StateM Nat

/-- The next unused tag. -/
def fresh : Fresh Nat := fun n => (n, n + 1)

/-- The first tag a supply hands out. Tag zero is for constants that nothing needs to tell
apart. -/
def firstTag : Nat := 1

/-! ### Widths -/

/-- A number as a signed 64-bit word. -/
def wrap (n : Int) : Int := n.bmod 18446744073709551616

/-- The number of binary digits of a number, none for zero. -/
def bitLength (n : Nat) : Nat := if n = 0 then 0 else n.log2 + 1

/-- The least width that can hold `v`: its binary digits, at least one, or its two's complement
digits if it is negative. -/
def bitsFor (v : Int64) : Int :=
  if v < 0 then bitLength (-v.toInt - 1).toNat + 1
  else if v = 0 then 1
  else bitLength v.toInt.toNat

/-- A width below one counts as one. -/
def clampWidth (width : Int) : Int := max width 1

/-! ### Nodes -/

/-- A named wire or register. A signal that combinational logic drives falls back to its reset
value in every cycle in which nothing assigns it; one that is driven at the clock edge takes it on
reset. -/
structure Signal where
  tag : Nat
  name : String
  bits : Int
  reset : Int64
deriving DecidableEq, Repr, Inhabited

def Signal.new (name : String) (width : Int) : Fresh Signal := do
  return { tag := ← fresh, name, bits := clampWidth width, reset := 0 }

/-- A number with a width. -/
structure Literal where
  value : Int64
  bits : Int
deriving DecidableEq, Repr, Inhabited

def Literal.sized (value : Int64) (width : Int) : Literal := ⟨value, clampWidth width⟩

/-- A literal just wide enough for its value. -/
def Literal.fit (value : Int64) : Literal := ⟨value, bitsFor value⟩

/-- An operator. A number outside the table stands for an operator that nothing understands. -/
inductive Op where
  | add
  | sub
  | mul
  | shl
  | shr
  | or
  | xor
  | and
  | eq
  | ne
  | lt
  | le
  | gt
  | ge
  | unknown (code : Int)
deriving DecidableEq, Repr, Inhabited

namespace Op

/-- The operators in the order of their numbers. -/
def table : List Op := [add, sub, mul, shl, shr, or, xor, and, eq, ne, lt, le, gt, ge]

def ofCode (n : Int) : Op :=
  if n < 0 then unknown n else table[n.toNat]?.getD (unknown n)

def symbol : Op → String
  | add => "+"
  | sub => "-"
  | mul => "*"
  | shl => "<<"
  | shr => ">>"
  | or => "|"
  | xor => "^"
  | and => "&"
  | eq => "=="
  | ne => "!="
  | lt => "<"
  | le => "<="
  | gt => ">"
  | ge => ">="
  | unknown _ => "?"

def ofSymbol? (s : String) : Option Op := table.find? (·.symbol = s)

/-- An operator that yields a single truth bit. -/
def isComparison : Op → Bool
  | eq | ne | lt | le | gt | ge => true
  | _ => false

end Op

/-- A hardware value. -/
inductive Value where
  /-- A place where no value stands. -/
  | hole
  | signal (s : Signal)
  | const (tag : Nat) (lit : Literal)
  | binary (tag : Nat) (op : Op) (left right : Value)
  /-- The bits `lo` up to but not including `hi`. -/
  | slice (tag : Nat) (x : Value) (lo hi : Int)
deriving DecidableEq, Repr, Inhabited

namespace Value

/-- A constant that nothing needs to tell apart from an equal one. -/
def ofLiteral (l : Literal) : Value := const 0 l

/-- A constant with a tag of its own. -/
def newConst (l : Literal) : Fresh Value := do
  return const (← fresh) l

def newBinary (op : Op) (left right : Value) : Fresh Value := do
  return binary (← fresh) op left right

def newSlice (x : Value) (lo hi : Int) : Fresh Value := do
  return slice (← fresh) x lo hi

/-- Widen a negative constant to the given width, which keeps its two's complement value. Every
other value stays the node it is; it is zero-extended where it is assigned. -/
def extend (v : Value) (width : Int) : Fresh Value :=
  match v with
  | const _ l => if l.value < 0 && l.bits < width then newConst (.sized l.value width) else pure v
  | _ => pure v

/-- How many bits the amount of a left shift may have before the growth of the result is no longer
counted. -/
def maxShiftBits : Int := 6

/-- The width of a left shift of `l` bits by the value `right`, which has `r` bits: a constant
amount adds itself, any other the largest amount its bits can express. -/
def shlWidth (l : Int) (right : Value) (r : Int) : Int :=
  match right with
  | const _ c =>
    if 0 ≤ c.value then wrap (l + c.value.toInt)
    else wrap (l + Nat.pow 2 (min r maxShiftBits).toNat - 1)
  | _ => wrap (l + Nat.pow 2 (min r maxShiftBits).toNat - 1)

/-- The width of an operator's result from the widths of its operands. -/
def opWidth (op : Op) (l : Int) (right : Value) (r : Int) : Int :=
  match op with
  | .add | .sub => wrap (max l r + 1)
  | .mul => wrap (l + r)
  | .shl => shlWidth l right r
  | .shr => l
  | .or | .xor | .and => max l r
  | _ => 1

def width : Value → Int
  | hole => 0
  | signal s => s.bits
  | const _ l => l.bits
  | binary _ op left right => opWidth op left.width right right.width
  | slice _ _ lo hi => wrap (hi - lo)

def isNatConst : Value → Bool
  | const _ l => 0 ≤ l.value
  | _ => false

/-- Whether a value has a width: no operand is missing, and no amount of a left shift has a
negative width. -/
def measurable : Value → Bool
  | hole => false
  | signal _ => true
  | const _ _ => true
  | binary _ op left right =>
    left.measurable && right.measurable && (op ≠ .shl || right.isNatConst || 0 ≤ right.width)
  | slice _ _ _ _ => true

/-- A value and the values inside it, each before its parts. -/
def walk : Value → List Value
  | hole => []
  | signal s => [signal s]
  | const t l => [const t l]
  | binary t op left right => binary t op left right :: (left.walk ++ right.walk)
  | slice t x lo hi => slice t x lo hi :: x.walk

/-- A value as a compact expression. -/
def text : Value → String
  | hole => "<nil>"
  | signal s => if s.name = "" then "<anon>" else s.name
  | const _ l => toString l.value.toInt
  | binary _ op left right => "(" ++ left.text ++ " " ++ op.symbol ++ " " ++ right.text ++ ")"
  | slice _ x lo hi =>
    if hi = wrap (lo + 1) then s!"{x.text}[{lo}]" else s!"{x.text}[{lo}:{hi}]"

end Value

/-! ### Words -/

/-- The lowest `width` bits of a word. A width outside of 0 to 63 keeps all of them. -/
def truncate (v : UInt64) (width : Int) : UInt64 :=
  if 0 ≤ width ∧ width < 64 then UInt64.ofNat (v.toNat % Nat.pow 2 width.toNat) else v

/-- The word a literal stands for: its two's complement, cut to its width. -/
def Literal.word (l : Literal) : UInt64 := truncate l.value.toUInt64 l.bits

def Signal.resetWord (s : Signal) : UInt64 := truncate s.reset.toUInt64 s.bits

end Sequencer.Circuit
