import Sequencer.Text.Utf8

/-!
# Positions in a YAML text

Lines end at a line feed, a carriage return, both together, or one of the Unicode line separators.
The end of the text is seen as a character of its own.
-/

namespace Sequencer.Yaml

open Text

/-! ### Decoding -/

/-- How characters are stored. -/
inductive Encoding where
  | utf8
  | utf16 (bigEndian : Bool)
deriving DecidableEq, Repr, Inhabited

/-- What stands at the start of some bytes. -/
inductive Lead where
  /-- A character and the number of its bytes after the first. -/
  | char (code more : Nat)
  /-- The beginning of a character whose other bytes are missing. -/
  | cut (problem : String)
  | fault (problem : String)
deriving DecidableEq, Repr, Inhabited

/-- The number of bytes after a first byte, the part of the first byte that counts, and the least
character that needs so many bytes. -/
def utf8Shape? (b : UInt8) : Option (Nat × Nat × Nat) :=
  let n := b.toNat
  if n < 0x80 then some (0, n, 0)
  else if n < 0xc0 then none
  else if n < 0xe0 then some (1, n - 0xc0, 0x80)
  else if n < 0xf0 then some (2, n - 0xe0, 0x800)
  else if n < 0xf8 then some (3, n - 0xf0, 0x10000)
  else none

/-- Whether a number is half of a pair of UTF-16 units, or beyond all characters. -/
def isNoCharacter (code : Nat) : Bool := (0xd800 ≤ code && code ≤ 0xdfff) || 0x10ffff < code

def utf8Lead (b : UInt8) (rest : Bytes) : Lead :=
  match utf8Shape? b with
  | none => .fault "invalid leading UTF-8 octet"
  | some (more, start, least) =>
    let tail := rest.take more
    let code := tail.foldl (fun n c => n * 0x40 + payload c) start
    if tail.length < more then .cut "incomplete UTF-8 octet sequence"
    else if !tail.all isContinuation then .fault "invalid trailing UTF-8 octet"
    else if code < least then .fault "invalid length of a UTF-8 sequence"
    else if isNoCharacter code then .fault "invalid Unicode character"
    else .char code more

/-- The number that two bytes stand for. -/
def unit16 (bigEndian : Bool) (a b : UInt8) : Nat :=
  if bigEndian then a.toNat * 0x100 + b.toNat else b.toNat * 0x100 + a.toNat

def utf16Lead (bigEndian : Bool) (a : UInt8) (rest : Bytes) : Lead :=
  match rest with
  | [] => .cut "incomplete UTF-16 character"
  | b :: rest =>
    let high := unit16 bigEndian a b
    if high < 0xd800 || 0xe000 ≤ high then .char high 1
    else if 0xdc00 ≤ high then .fault "unexpected low surrogate area"
    else
      match rest with
      | c :: d :: _ =>
        let low := unit16 bigEndian c d
        if low < 0xdc00 || 0xe000 ≤ low then .fault "expected low surrogate area"
        else .char (0x10000 + (high - 0xd800) * 0x400 + (low - 0xdc00)) 3
      | _ => .cut "incomplete UTF-16 surrogate pair"

def Encoding.lead (e : Encoding) : UInt8 → Bytes → Lead :=
  match e with
  | utf8 => utf8Lead
  | utf16 bigEndian => utf16Lead bigEndian

/-- Whether a character may stand in a text. -/
def isAllowed (code : Nat) : Bool :=
  code = 0x09 || code = 0x0a || code = 0x0d || (0x20 ≤ code && code ≤ 0x7e) || code = 0x85
    || (0xa0 ≤ code && code ≤ 0xfffd) || 0x10000 ≤ code

/-- The characters of a block, and the bytes at its end that are only the beginning of one. -/
def decodeBlock (e : Encoding) (bytes : Bytes) : Except String (List Char × Bytes) :=
  match bytes with
  | [] => .ok ([], [])
  | b :: rest =>
    match e.lead b rest with
    | .fault problem => .error problem
    | .cut _ => .ok ([], b :: rest)
    | .char code more =>
      if isAllowed code then do
        let (cs, left) ← decodeBlock e (rest.drop more)
        return (Char.ofNat code :: cs, left)
      else .error "control characters are not allowed"
termination_by bytes.length
decreasing_by simp only [List.length_drop, List.length_cons]; omega

/-- The text up to the first block with a fault, and the fault. -/
structure Input where
  text : List Char
  fault : Option String
deriving DecidableEq, Repr, Inhabited

def blockSize : Nat := 512

/-- What is wrong with a text that ends with some bytes of a character. -/
def endFault (e : Encoding) : Bytes → Option String
  | [] => none
  | b :: rest =>
    match e.lead b rest with
    | .cut problem => some problem
    | _ => none

/-- Take a text in blocks. The first has `room` for further bytes beside those `left` over from
before. -/
def readBlocks (e : Encoding) (room : Nat) (left rest : Bytes) : Input :=
  match rest with
  | [] => ⟨[], endFault e left⟩
  | b :: bs =>
    match decodeBlock e (left ++ (b :: bs).take room) with
    | .error problem => ⟨[], some problem⟩
    | .ok (cs, left) =>
      let input := readBlocks e (blockSize - left.length) left (bs.drop (room - 1))
      { input with text := cs ++ input.text }
termination_by rest.length
decreasing_by simp only [List.length_drop, List.length_cons]; omega

/-- The characters of a file. A mark at its start tells the encoding. -/
def Input.ofBytes (bytes : Bytes) : Input :=
  match bytes with
  | 0xff :: 0xfe :: rest => readBlocks (.utf16 false) (blockSize - 2) [] rest
  | 0xfe :: 0xff :: rest => readBlocks (.utf16 true) (blockSize - 2) [] rest
  | 0xef :: 0xbb :: 0xbf :: rest => readBlocks .utf8 (blockSize - 3) [] rest
  | rest => readBlocks .utf8 blockSize [] rest

/-! ### Characters -/

/-- What is seen at the end of a text. -/
def endMark : Char := '\x00'

/-- The mark that may stand before a text. -/
def orderMark : Char := '\ufeff'

/-- A character that ends a line. -/
def isBreak (c : Char) : Bool :=
  c = '\n' || c = '\r' || c = '\u0085' || c = '\u2028' || c = '\u2029'

/-- A character that separates words within a line. -/
def isBlank (c : Char) : Bool := c = ' ' || c = '\t'

/-- Whether a line ends here, perhaps with the text. -/
def endsLine (c : Char) : Bool := isBreak c || c = endMark

def endsWord (c : Char) : Bool := isBlank c || endsLine c

/-- The letters of escapes and the characters that they stand for. -/
def escapes : List (Char × Char) :=
  [('0', '\x00'), ('a', '\x07'), ('b', '\x08'), ('t', '\t'), ('n', '\n'), ('v', '\x0b'),
    ('f', '\x0c'), ('r', '\r'), ('e', '\x1b'), ('"', '"'), ('\\', '\\'), ('N', '\u0085'),
    ('_', '\u00a0'), ('L', '\u2028'), ('P', '\u2029')]

/-- What a line break stands for inside a scalar. -/
def breakChar (c : Char) : Char := if c = '\u2028' || c = '\u2029' then c else '\n'

/-! ### Marks and errors -/

/-- A place in a text. Everything is counted from zero. -/
structure Mark where
  line : Nat
  column : Nat
  /-- The characters before the place. -/
  index : Nat
deriving DecidableEq, Repr, Inhabited

/-- Why a text is not YAML. The line is zero if none is named. -/
structure Error where
  line : Nat
  problem : String
deriving DecidableEq, Repr, Inhabited

namespace Error

def message (e : Error) : String :=
  "yaml: " ++ (if e.line = 0 then "" else s!"line {e.line}: ") ++ e.problem

/-- An error inside a token. It names the line on which something starts unless that is the first,
and else the line that was reached unless that is the first. -/
def scan (start reached : Mark) (problem : String) : Error :=
  ⟨if start.line ≠ 0 then start.line + 1
    else if reached.line ≠ 0 then reached.line + 1 else 0, problem⟩

/-- An error in the order of tokens, which names the line before. -/
def parse (start reached : Nat) (problem : String) : Error :=
  ⟨if start ≠ 0 then start else reached, problem⟩

end Error

/-! ### Cursors -/

/-- A place in a text, with what comes after it. -/
structure Cursor where
  rest : List Char
  mark : Mark
  /-- The line breaks passed since the last character that is not blank. -/
  breaks : Nat
deriving Repr, Inhabited

namespace Cursor

def start (text : List Char) : Cursor := ⟨text, ⟨0, 0, 0⟩, 0⟩

/-- A number of steps that no loop over the text exceeds. -/
def fuel (c : Cursor) : Nat := c.rest.length + 4

/-- The character `n` places ahead. -/
def charAt (c : Cursor) (n : Nat) : Char := c.rest.getD n endMark

def char (c : Cursor) : Char := c.charAt 0

def skip (c : Cursor) : Cursor where
  rest := c.rest.tail
  mark := { c.mark with column := c.mark.column + 1, index := c.mark.index + 1 }
  breaks := if isBlank c.char then c.breaks else 0

/-- Pass a line break, where carriage return and line feed together are one. -/
def skipLine (c : Cursor) : Cursor :=
  let n := if c.char = '\r' && c.charAt 1 = '\n' then 2 else if isBreak c.char then 1 else 0
  if n = 0 then c else ⟨c.rest.drop n, ⟨c.mark.line + 1, 0, c.mark.index + n⟩, c.breaks + 1⟩

/-- Pass the characters that satisfy `p`. -/
def skipWhile (p : Char → Bool) (c : Cursor) : Cursor :=
  Nat.repeat skip (c.rest.takeWhile p).length c

/-- The characters up to the end of the line. -/
def lineRest (c : Cursor) : List Char := c.rest.takeWhile fun x => !endsLine x

def skipRest (c : Cursor) : Cursor := c.skipWhile fun x => !endsLine x

/-- Whether a mark that consists of the given character three times stands here. -/
def atMark (c : Cursor) (m : Char) : Bool :=
  c.mark.column = 0 && c.char = m && c.charAt 1 = m && c.charAt 2 = m && endsWord (c.charAt 3)

/-- Whether one of the marks between documents stands here. -/
def atDocumentMark (c : Cursor) : Bool := c.atMark '-' || c.atMark '.'

/-! ### Comments -/

/-- How far a comment is looked for. -/
def commentReach : Nat := 512

/-- The distance to a comment, if only characters that satisfy `p` lie between. The search starts
`n` places ahead. -/
def findComment? (p : Char → Bool) (n : Nat) (c : Cursor) : Option Nat :=
  let place := n + ((c.rest.drop n).takeWhile p).length
  if place < commentReach && c.charAt place = '#' then some place else none

/-- Pass the comment behind a token, if it is on the same line. -/
def skipLineComment (c : Cursor) : Cursor :=
  if c.breaks = 0 && (c.findComment? isBlank 0).isSome then (c.skipWhile isBlank).skipRest else c

/-- Pass blanks and line breaks up to a comment at the given place, and the comment. -/
def skipToComment (index : Nat) : (fuel : Nat) → Cursor → Cursor
  | 0, c => c
  | fuel + 1, c =>
    if index ≤ c.mark.index then c.skipRest
    else skipToComment index fuel (if isBreak c.char then c.skipLine else c.skip)

/-- Pass a comment and those on the next lines, whatever blanks stand before them. -/
def skipComments : (fuel : Nat) → Cursor → Cursor
  | 0, c => c
  | fuel + 1, c =>
    let c := c.skipRest
    if c.char ≠ '\n' && c.char ≠ '\r' then c
    else
      match c.findComment? (fun x => isBlank x || x = '\n' || x = '\r') 1 with
      | none => c
      | some n => skipComments fuel (skipToComment (c.mark.index + n) c.fuel c)

/-- Pass blanks, comments and line breaks up to the next token. The flag tells whether a key may
start at the place; in block style a new line always allows one. Where a key may start a tab cannot
stand in block style. -/
def skipGap (flow : Bool) : (fuel : Nat) → (keyAllowed : Bool) → Cursor → Cursor × Bool
  | 0, keyAllowed, c => (c, keyAllowed)
  | fuel + 1, keyAllowed, c =>
    let c := c.skipWhile fun x => x = ' ' || (x = '\t' && (flow || !keyAllowed))
    let c := if c.char = '#' then skipComments c.fuel c else c
    if isBreak c.char then skipGap flow fuel (keyAllowed || !flow) c.skipLine else (c, keyAllowed)

end Cursor

end Sequencer.Yaml
