import Std.Data.HashMap
import Sequencer.Yaml.Scalar

/-!
# From characters to tokens

A `Layout` is a text that has been turned into tokens up to some place. It knows the columns of the
open blocks and, for each level of brackets, the last token that may turn out to be a **key**: that
is only known when a colon follows it on the same line. A token is handed out when two more have
been read after it and no colon can change what stands before it.

Anchors, aliases, tags and directives are not understood.
-/

namespace Sequencer.Yaml

/-! ### Tokens -/

/-- What a token is. -/
inductive Symbol where
  | streamEnd
  /-- The mark `---`. -/
  | documentStart
  /-- The mark `...`. -/
  | documentEnd
  /-- The start of a sequence in block style. -/
  | sequenceStart
  /-- The start of a mapping in block style. -/
  | mappingStart
  /-- The end of a sequence or mapping in block style. -/
  | blockEnd
  | openBracket
  | closeBracket
  | openBrace
  | closeBrace
  | comma
  /-- The mark of an entry in a block sequence. -/
  | dash
  /-- The place before a key. -/
  | key
  | colon
  /-- A plain scalar can stand for a number, a truth value or nothing; any other is text. -/
  | scalar (plain : Bool) (text : String)
deriving DecidableEq, Repr, Inhabited

/-- A token and the line, counted from zero, on which it starts. -/
structure Token where
  symbol : Symbol
  line : Nat
deriving DecidableEq, Repr, Inhabited

/-- The tokens of a text, and the error behind the last of them. -/
structure Stream where
  tokens : List Token
  error : Error
deriving DecidableEq, Repr, Inhabited

namespace Stream

def peek (s : Stream) : Except Error Token :=
  match s.tokens with
  | t :: _ => .ok t
  | [] => .error s.error

def skip (s : Stream) : Stream := { s with tokens := s.tokens.tail }

end Stream

/-! ### Layouts -/

/-- A token that may turn out to be a key. -/
structure Key where
  possible : Bool
  /-- Whether something else than a key is an error here. -/
  required : Bool
  /-- The number of the token. -/
  number : Nat
  mark : Mark
deriving DecidableEq, Repr, Inhabited

/-- How far from its start the colon of a key may be. -/
def maxKeyLength : Nat := 1024

/-- How deep brackets or blocks may be nested. -/
def maxDepth : Nat := 10000

/-- The tokens of the text before a place, and what they leave open. -/
structure Layout where
  cursor : Cursor
  /-- What is wrong with the text after the characters that could be read. -/
  fault : Option String
  tokens : Array Token
  /-- The columns of the open blocks, the innermost first. -/
  blocks : List Nat
  /-- The last candidate for a key outside of brackets, and for each open bracket inside of it. -/
  keys : Array Key
  /-- For tokens that were candidates for a key, the place in `keys` that they had. -/
  places : Std.HashMap Nat Nat
  keyAllowed : Bool

/-- What goes on with a text. -/
abbrev Scan := StateT Layout (Except Error)

namespace Layout

def start (input : Input) : Layout where
  cursor := .start input.text
  fault := input.fault
  tokens := #[]
  blocks := []
  keys := #[default]
  places := ∅
  keyAllowed := true

/-- Whether the place is inside of brackets. -/
def inFlow (l : Layout) : Bool := 1 < l.keys.size

/-- The column of the innermost block, or -1 outside of all. -/
def indent (l : Layout) : Int :=
  match l.blocks with
  | [] => -1
  | column :: _ => column

def mark (l : Layout) : Mark := l.cursor.mark

/-- The candidate for a key at the innermost level. -/
def lastKey (l : Layout) : Key := l.keys.back?.getD default

def setLastKey (l : Layout) (k : Key) : Layout :=
  { l with keys := l.keys.setIfInBounds (l.keys.size - 1) k }

/-- The error where a key has no colon. -/
def noColon (l : Layout) (k : Key) : Error := .scan k.mark l.mark "could not find expected ':'"

/-- The error about too many open brackets or blocks. -/
def tooDeep (l : Layout) : Error :=
  .scan l.lastKey.mark l.mark s!"exceeded max depth of {maxDepth}"

/-- Put a token in front of the token with the given number. -/
def insert (number : Nat) (symbol : Symbol) (line : Nat) : Scan Unit :=
  modify fun l => { l with tokens := l.tokens.insertIdxIfInBounds number ⟨symbol, line⟩ }

/-- Pass some characters that are a token, behind which a key is allowed or not. -/
def addMark (keyAllowed : Bool) (symbol : Symbol) (length : Nat) : Scan Unit :=
  modify fun l => { l with
    keyAllowed
    cursor := Nat.repeat Cursor.skip length l.cursor
    tokens := l.tokens.push ⟨symbol, l.mark.line⟩ }

/-! ### Keys -/

/-- Whether a candidate can still become a key. One that cannot is given up. -/
def checkKey (place : Nat) : Scan Bool := do
  let l ← get
  let k := l.keys.getD place default
  if !k.possible then return false
  if l.mark.line ≤ k.mark.line && l.mark.index ≤ k.mark.index + maxKeyLength then return true
  if k.required then throw (l.noColon k)
  set { l with keys := l.keys.setIfInBounds place { k with possible := false } }
  return false

/-- Take the candidate at the innermost level away. -/
def forgetKey : Scan Unit :=
  modify fun l =>
    let k := l.lastKey
    { l.setLastKey { k with possible := false } with places := l.places.erase k.number }

/-- Give up the candidate at the innermost level, which may be an error. -/
def dropKey : Scan Unit := do
  let l ← get
  let k := l.lastKey
  if k.possible then
    if k.required then throw (l.noColon k)
    forgetKey

/-- Make the next token a candidate, if a key is allowed. -/
def saveKey : Scan Unit := do
  if (← get).keyAllowed then
    dropKey
    modify fun l =>
      let number := l.tokens.size
      { l.setLastKey ⟨true, !l.inFlow && l.indent = l.mark.column, number, l.mark⟩ with
        places := l.places.insert number (l.keys.size - 1) }

/-! ### Blocks -/

/-- Open a block in a column further right than all open ones. Its token stands in front of the
token with the given number. -/
def openBlock (column number : Nat) (symbol : Symbol) (line : Nat) : Scan Unit := do
  let l ← get
  unless l.inFlow || (column : Int) ≤ l.indent do
    if maxDepth ≤ l.blocks.length then throw l.tooDeep
    set { l with blocks := column :: l.blocks }
    insert number symbol line

/-- Close the blocks in columns further right than the given one. -/
def closeBlocks (column : Int) (line : Nat) : Scan Unit :=
  modify fun l =>
    if l.inFlow then l
    else
      let closed := l.blocks.takeWhile fun (c : Nat) => column < c
      { l with
        blocks := l.blocks.drop closed.length
        tokens := l.tokens ++ (closed.map fun _ => Token.mk .blockEnd line).toArray }

/-! ### Tokens -/

/-- Close all blocks. -/
def finish : Scan Unit := do
  closeBlocks (-1) (← get).mark.line
  dropKey

/-- Add the end of the text, which stands on a line of its own. -/
def addEnd : Scan Unit := do
  modify fun l =>
    let m := l.mark
    if m.column = 0 then l
    else { l with cursor := { l.cursor with mark := { m with line := m.line + 1, column := 0 } } }
  finish
  addMark false .streamEnd 0

def addDocumentMark (symbol : Symbol) : Scan Unit := do
  finish
  addMark false symbol 3

def addOpening (symbol : Symbol) : Scan Unit := do
  saveKey
  modify fun l => { l with keys := l.keys.push ⟨false, false, l.tokens.size, l.mark⟩ }
  let l ← get
  if maxDepth < l.keys.size - 1 then throw l.tooDeep
  addMark true symbol 1

def addClosing (symbol : Symbol) : Scan Unit := do
  dropKey
  modify fun l =>
    if l.inFlow then { l with places := l.places.erase l.lastKey.number, keys := l.keys.pop } else l
  addMark false symbol 1

def addComma : Scan Unit := do
  dropKey
  addMark true .comma 1

/-- Check that a mark of block style may stand here, and open its block. -/
def startEntry (symbol : Symbol) (what : String) : Scan Unit := do
  let l ← get
  unless l.inFlow do
    unless l.keyAllowed do
      throw (.scan l.mark l.mark s!"{what} are not allowed in this context")
    openBlock l.mark.column l.tokens.size symbol l.mark.line

def addDash : Scan Unit := do
  startEntry .sequenceStart "block sequence entries"
  dropKey
  addMark true .dash 1

/-- Add the mark of a key that needs no colon on its line. -/
def addKey : Scan Unit := do
  startEntry .mappingStart "mapping keys"
  dropKey
  addMark (!(← get).inFlow) .key 1

def addColon : Scan Unit := do
  if ← checkKey ((← get).keys.size - 1) then
    let k := (← get).lastKey
    insert k.number .key k.mark.line
    openBlock k.mark.column k.number .mappingStart k.mark.line
    forgetKey
    addMark false .colon 1
  else
    startEntry .mappingStart "mapping values"
    addMark (!(← get).inFlow) .colon 1

def addScalar (plain : Bool) (s : Scanned) : Scan Unit :=
  modify fun l => { l with
    cursor := s.cursor
    keyAllowed := s.newLine
    tokens := l.tokens.push ⟨.scalar plain (String.ofList s.text), l.mark.line⟩ }

def addFlowScalar (plain : Bool) : Scan Unit := do
  saveKey
  let l ← get
  addScalar plain
    (← if plain then readPlain l.inFlow (l.indent + 1) l.cursor else readQuoted l.cursor)

def addBlockScalar : Scan Unit := do
  dropKey
  let l ← get
  addScalar false (← readBlock l.indent l.cursor)

/-- The characters that no plain scalar starts with. -/
def indicators : List Char := flowMarks ++ "-?:#&*!|>'\"%@`".toList

def startsPlain (l : Layout) : Bool :=
  let x := l.cursor.char
  let y := l.cursor.charAt 1
  (!endsWord x && !indicators.contains x) || (x = '-' && !isBlank y)
    || (!l.inFlow && (x = '?' || x = ':') && !endsWord y)

def addToken : Scan Unit := do
  let l ← get
  let x := l.cursor.char
  let separated := endsWord (l.cursor.charAt 1)
  if x = '[' then addOpening .openBracket
  else if x = '{' then addOpening .openBrace
  else if x = ']' then addClosing .closeBracket
  else if x = '}' then addClosing .closeBrace
  else if x = ',' then addComma
  else if x = '-' && separated then addDash
  else if x = '?' && (l.inFlow || separated) then addKey
  else if x = ':' && (l.inFlow || separated) then addColon
  else if (x = '|' || x = '>') && !l.inFlow then addBlockScalar
  else if x = '\'' || x = '"' then addFlowScalar false
  else if l.startsPlain then addFlowScalar true
  else throw (.scan l.mark l.mark "found character that cannot start any token")

/-- Check that `n` characters can be read, or what is left of a text without a fault. -/
def need (n : Nat) : Scan Unit := do
  let l ← get
  if let some problem := l.fault then
    if l.cursor.rest.length < n then throw ⟨0, problem⟩

/-- Go on to the next token, and add it with the blocks that end before it. A comment behind it
belongs to its line, except behind the mark of a sequence entry. -/
def advance : Scan Unit := do
  let l ← get
  let (cursor, keyAllowed) := l.cursor.skipGap l.inFlow l.cursor.fuel l.keyAllowed
  set { l with cursor, keyAllowed }
  closeBlocks cursor.mark.column l.mark.line
  need 4
  if cursor.char = endMark then addEnd
  else if cursor.mark.column = 0 && cursor.char = '%' then
    finish
    throw (.scan cursor.mark cursor.mark "found unknown directive name")
  else if cursor.atMark '-' then addDocumentMark .documentStart
  else if cursor.atMark '.' then addDocumentMark .documentEnd
  else
    addToken
    need 1
    modify fun l =>
      if l.tokens.back?.any (·.symbol = .dash) then l
      else { l with cursor := l.cursor.skipLineComment }

/-! ### Streams -/

/-- Hand out the token with the given number if it is ready, and go on to the next one if not. -/
def next (number : Nat) : Scan (Option Token) := do
  let l ← get
  if number + 2 < l.tokens.size then
    let isKey ← (l.places.get? number).elim (pure false) checkKey
    if !isKey then return (← get).tokens.getD number default
  advance
  return none

/-- Hand out tokens after those that were given before. -/
def run : (fuel : Nat) → (given : Array Token) → Layout → Stream
  | 0, given, _ => ⟨given.toList, default⟩
  | fuel + 1, given, l =>
    match next given.size l with
    | .error e => ⟨given.toList, e⟩
    | .ok (none, l) => run fuel given l
    | .ok (some t, l) =>
      if t.symbol = .streamEnd then ⟨(given.push t).toList, default⟩ else run fuel (given.push t) l

end Layout

/-- The tokens of a text. Each character is the reason for at most four tokens, and each token is
read once and handed out once. -/
def Stream.ofInput (input : Input) : Stream :=
  let l := Layout.start input
  l.run (8 * l.cursor.fuel) #[]

end Sequencer.Yaml
