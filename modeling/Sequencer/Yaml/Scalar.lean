import Sequencer.Yaml.Cursor
import Sequencer.Text.Numeral

/-!
# Reading YAML scalars

A single line break inside a plain or quoted scalar is read as a space; of several the first is
dropped. A block scalar keeps its lines, or folds them in the same way.
-/

namespace Sequencer.Yaml

/-- A scalar that was read. -/
structure Scanned where
  text : List Char
  cursor : Cursor
  /-- Whether a line break was passed behind the text, after which a key may start. -/
  newLine : Bool
deriving Repr, Inhabited

/-! ### Gaps -/

/-- A run of blanks and line breaks inside a scalar. -/
structure Gap where
  /-- The blanks before any line break, the last first. -/
  blanks : List Char
  /-- The first line break, unless it was escaped. -/
  first : Option Char
  /-- The line breaks after it, the last first. -/
  later : List Char
  newLine : Bool
deriving DecidableEq, Repr, Inhabited

namespace Gap

def empty : Gap := ⟨[], none, [], false⟩

/-- The gap that an escaped line break starts. -/
def escaped : Gap := ⟨[], none, [], true⟩

def addBlank (g : Gap) (c : Char) : Gap :=
  if g.newLine then g else { g with blanks := c :: g.blanks }

def addBreak (g : Gap) (c : Char) : Gap :=
  if g.newLine then { g with later := breakChar c :: g.later }
  else ⟨[], some (breakChar c), [], true⟩

/-- What a gap is read as. -/
def text (g : Gap) : List Char :=
  if !g.newLine then g.blanks.reverse
  else
    match g.first with
    | some '\n' => if g.later.isEmpty then [' '] else g.later.reverse
    | some c => c :: g.later.reverse
    | none => g.later.reverse

end Gap

/-- Pass the rest of a gap. After a line break a tab cannot stand in a column before `limit`. -/
def readGap (start : Mark) (limit : Int) :
    (fuel : Nat) → Gap → Cursor → Except Error (Gap × Cursor)
  | 0, g, c => .ok (g, c)
  | fuel + 1, g, c =>
    let x := c.char
    if isBlank x then
      if g.newLine && x = '\t' && (c.mark.column : Int) < limit then
        .error (.scan start c.mark "found a tab character that violates indentation")
      else readGap start limit fuel (g.addBlank x) c.skip
    else if isBreak x then readGap start limit fuel (g.addBreak x) c.skipLine
    else .ok (g, c)

/-! ### Plain scalars -/

/-- The brackets and the comma of flow style. -/
def flowMarks : List Char := [',', '[', ']', '{', '}']

def endsPlain (flow : Bool) (c : Cursor) : Bool :=
  let x := c.char
  let y := c.charAt 1
  endsWord x || (x = ':' && endsWord y)
    || (flow && (flowMarks.contains x || (x = '?' && (y = ' ' || endsLine y))))

/-- Read the characters of a plain scalar up to a blank or its end. `acc` is the text so far, the
last character first. -/
def plainRun (flow : Bool) : (fuel : Nat) → (acc : List Char) → Cursor → List Char × Cursor
  | 0, acc, c => (acc, c)
  | fuel + 1, acc, c =>
    if endsPlain flow c then (acc, c) else plainRun flow fuel (c.char :: acc) c.skip

/-- Read on in a plain scalar whose text so far is `acc` reversed, behind a gap. -/
def plainFrom (flow : Bool) (limit : Int) (start : Mark) :
    (fuel : Nat) → (acc : List Char) → Gap → Cursor → Except Error Scanned
  | 0, acc, g, c => .ok ⟨acc.reverse, c, g.newLine⟩
  | fuel + 1, acc, g, c => do
    if c.atDocumentMark || c.char = '#' || endsPlain flow c then
      return ⟨acc.reverse, c, g.newLine⟩
    let (acc, c) := plainRun flow c.fuel (g.text.reverse ++ acc) c
    if !(isBlank c.char || isBreak c.char) then return ⟨acc.reverse, c, false⟩
    let (g, c) ← readGap start limit c.fuel .empty c
    if !flow && (c.mark.column : Int) < limit then return ⟨acc.reverse, c, g.newLine⟩
    plainFrom flow limit start fuel acc g c

/-- Read a plain scalar. In block style its later lines have to reach column `limit`. -/
def readPlain (flow : Bool) (limit : Int) (c : Cursor) : Except Error Scanned :=
  plainFrom flow limit c.mark c.fuel [] .empty c

/-! ### Quoted scalars -/

/-- The character that an escape letter stands for. Some that need no escape may have one. -/
def escapeChar? (c : Char) : Option Char :=
  if ['\t', ' ', '\''].contains c then some c else escapes.lookup c

/-- The number of hexadecimal digits behind an escape letter. -/
def escapeDigits? (c : Char) : Option Nat :=
  match c with
  | 'x' => some 2
  | 'u' => some 4
  | 'U' => some 8
  | _ => none

def hexValue? (digits : List Char) : Option Nat :=
  digits.foldlM (fun n d => do
    let v ← Text.Numeral.digit? d
    if v < 16 then return n * 16 + v else none) 0

def readEscape (start : Mark) (c : Cursor) : Except Error (Char × Cursor) :=
  let x := c.charAt 1
  match escapeChar? x with
  | some e => .ok (e, c.skip.skip)
  | none =>
    match escapeDigits? x with
    | none => .error (.scan start c.mark "found unknown escape character")
    | some n =>
      let c := c.skip.skip
      match hexValue? ((List.range n).map c.charAt) with
      | none => .error (.scan start c.mark "did not find expected hexdecimal number")
      | some v =>
        if isNoCharacter v then
          .error (.scan start c.mark "found invalid Unicode character escape code")
        else .ok (Char.ofNat v, Nat.repeat Cursor.skip n c)

/-- Read the characters of a quoted scalar up to a gap or the closing quote. The flag tells whether
an escaped line break was passed at the end. -/
def quotedRun (quote : Char) (start : Mark) :
    (fuel : Nat) → (acc : List Char) → Cursor → Except Error (List Char × Cursor × Bool)
  | 0, acc, c => .ok (acc, c, false)
  | fuel + 1, acc, c =>
    let x := c.char
    let y := c.charAt 1
    if endsWord x then .ok (acc, c, false)
    else if x = quote then
      if quote = '\'' && y = '\'' then quotedRun quote start fuel ('\'' :: acc) c.skip.skip
      else .ok (acc, c, false)
    else if quote = '"' && x = '\\' then
      if isBreak y then .ok (acc, c.skip.skipLine, true)
      else do
        let (e, c) ← readEscape start c
        quotedRun quote start fuel (e :: acc) c
    else quotedRun quote start fuel (x :: acc) c.skip

/-- Read on in a quoted scalar whose text so far is `acc` reversed. -/
def quotedFrom (quote : Char) (start : Mark) :
    (fuel : Nat) → (acc : List Char) → Cursor → Except Error Scanned
  | 0, acc, c => .ok ⟨acc.reverse, c, false⟩
  | fuel + 1, acc, c => do
    if c.atDocumentMark then throw (.scan start c.mark "found unexpected document indicator")
    if c.char = endMark then throw (.scan start c.mark "found unexpected end of stream")
    let (acc, c, joined) ← quotedRun quote start c.fuel acc c
    if c.char = quote then return ⟨acc.reverse, c.skip, false⟩
    let (g, c) ← readGap start 0 c.fuel (if joined then .escaped else .empty) c
    quotedFrom quote start fuel (g.text.reverse ++ acc) c

def readQuoted (c : Cursor) : Except Error Scanned := quotedFrom c.char c.mark c.fuel [] c.skip

/-! ### Block scalars -/

/-- What happens to the line breaks at the end of a block scalar. -/
inductive Chomping where
  /-- All are dropped. -/
  | strip
  /-- The first is kept. -/
  | clip
  /-- All are kept. -/
  | keep
deriving DecidableEq, Repr, Inhabited

/-- How a block scalar begins. -/
structure Header where
  /-- Whether line breaks are kept as they are. -/
  literal : Bool
  chomping : Chomping
  /-- The indentation that the header names, zero if it names none. -/
  indentation : Nat
deriving DecidableEq, Repr, Inhabited

def readChomping (c : Cursor) : Option Chomping × Cursor :=
  if c.char = '+' then (some .keep, c.skip)
  else if c.char = '-' then (some .strip, c.skip)
  else (none, c)

def readIndentation (start : Mark) (c : Cursor) : Except Error (Nat × Cursor) :=
  if c.char = '0' then .error (.scan start c.mark "found an indentation indicator equal to 0")
  else if c.char.isDigit then .ok (c.char.toNat - '0'.toNat, c.skip)
  else .ok (0, c)

/-- Read the line on which a block scalar begins. The sign and the digit may come in either order.
-/
def readHeader (c : Cursor) : Except Error (Header × Cursor) := do
  let start := c.mark
  let literal := c.char = '|'
  let (sign, c) := readChomping c.skip
  let (indentation, c) ← readIndentation start c
  let (late, c) := if sign.isNone && indentation ≠ 0 then readChomping c else (none, c)
  let c := c.skipWhile isBlank
  let c := if c.char = '#' then c.skipRest else c
  if !endsLine c.char then
    throw (.scan start c.mark "did not find expected comment or line break")
  return (⟨literal, (sign <|> late).getD .clip, indentation⟩, c.skipLine)

/-- Pass the indentation of a line. If `indent` is zero any number of spaces is indentation. -/
def skipIndent (indent : Nat) (c : Cursor) : Cursor :=
  let spaces := (c.rest.takeWhile (· = ' ')).length
  Nat.repeat Cursor.skip (if indent = 0 then spaces else min spaces (indent - c.mark.column)) c

/-- Pass empty lines and the indentation of the next line. The result has the line breaks and the
widest indentation passed. -/
def blockBreaks (start : Mark) (indent : Nat) :
    (fuel widest : Nat) → (acc : List Char) → Cursor → Except Error (List Char × Nat × Cursor)
  | 0, widest, acc, c => .ok (acc.reverse, widest, c)
  | fuel + 1, widest, acc, c => do
    let c := skipIndent indent c
    let widest := max widest c.mark.column
    if c.char = '\t' && (indent = 0 || c.mark.column < indent) then
      throw (.scan start c.mark "found a tab character where an indentation space is expected")
    if !isBreak c.char then return (acc.reverse, widest, c)
    blockBreaks start indent fuel widest (breakChar c.char :: acc) c.skipLine

/-- What stands between two lines of a block scalar: the line break `first` and those `later`. -/
def joinLines (literal besideIndented : Bool) (first later : List Char) : List Char :=
  if !literal && !besideIndented && first = ['\n'] then (if later.isEmpty then [' '] else later)
  else first ++ later

/-- The lines of a block scalar. `acc` is the text so far reversed, `first` the line break after it
and `later` those after that; `wasIndented` tells whether the last line started with a blank. -/
def blockLines (start : Mark) (literal : Bool) (indent : Nat) :
    (fuel : Nat) → (acc first later : List Char) → (wasIndented : Bool) → Cursor →
    Except Error (List Char × List Char × List Char × Cursor)
  | 0, acc, first, later, _, c => .ok (acc.reverse, first, later, c)
  | fuel + 1, acc, first, later, wasIndented, c =>
    if c.mark.column ≠ indent || c.char = endMark then .ok (acc.reverse, first, later, c)
    else do
      let isIndented := isBlank c.char
      let between := joinLines literal (wasIndented || isIndented) first later
      let acc := c.lineRest.reverse ++ between.reverse ++ acc
      let c := c.skipRest
      let first := if isBreak c.char then [breakChar c.char] else []
      let (later, _, c) ← blockBreaks start indent c.fuel 0 [] c.skipLine
      blockLines start literal indent fuel acc first later isIndented c

/-- Read a block scalar inside a block whose column is `parent`, which is -1 outside of all. -/
def readBlock (parent : Int) (c : Cursor) : Except Error Scanned := do
  let start := c.mark
  let (header, c) ← readHeader c
  let named := if header.indentation = 0 then 0 else header.indentation + parent.toNat
  let (later, widest, c) ← blockBreaks start named c.fuel 0 [] c
  let indent := if named = 0 then max (max widest (parent + 1).toNat) 1 else named
  let (text, first, later, c) ← blockLines start header.literal indent c.fuel [] [] later false c
  let tail := match header.chomping with
    | .strip => []
    | .clip => first
    | .keep => first ++ later
  return ⟨text ++ tail, c, true⟩

end Sequencer.Yaml
