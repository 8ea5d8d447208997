import Sequencer.Yaml.Layout

/-!
# From tokens to a document

Only the first document of a text is read, and behind it one token is looked at. Nothing may stand
where a value does: then the value is **absent**. A single entry in brackets, `[a: 1]`, is a mapping
of its own.
-/

namespace Sequencer.Yaml

/-! ### Nodes -/

inductive Node where
  /-- A plain scalar can stand for a number, a truth value or nothing; a quoted or block scalar is
  always text. -/
  | scalar (line : Nat) (plain : Bool) (text : String)
  | sequence (line : Nat) (items : List Node)
  | mapping (line : Nat) (entries : List (Node × Node))
deriving Repr, Inhabited

namespace Node

def line : Node → Nat
  | scalar line _ _ => line
  | sequence line _ => line
  | mapping line _ => line

def absent (line : Nat) : Node := scalar line true ""

/-- Whether two keys of a mapping are the same key. Only the texts of scalars are compared. -/
def sameKey : Node → Node → Bool
  | scalar _ _ a, scalar _ _ b => a = b
  | sequence _ _, sequence _ _ => true
  | mapping _ _, mapping _ _ => true
  | _, _ => false

def text : Node → String
  | scalar _ _ t => t
  | _ => ""

end Node

/-! ### Reading -/

/-- What reads from the next token on. -/
abbrev Reader := StateT Stream (Except Error)

namespace Reader

variable {α : Type}

def peek : Reader Token := do (← get).peek

def skip : Reader Unit := modify Stream.skip

/-- The error at a token that is not one of those that continue what started on the given line. -/
def unexpected (start : Nat) (t : Token) (expected : String) : Reader α :=
  throw (.parse start t.line s!"did not find expected {expected}")

/-- Read until there is nothing more. What was read before is given backwards. -/
def many (next : List α → Reader (Option α)) : (fuel : Nat) → (before : List α) → Reader (List α)
  | 0, _ => do throw (← get).error
  | fuel + 1, before => do
    let some a ← next before | return before.reverse
    many next fuel (a :: before)

/-- The symbols behind an entry of a block mapping. -/
def entryEnds : List Symbol := [.key, .colon, .blockEnd]

/-- Whether another entry follows within brackets. There are commas between the entries. -/
def goesOn (start : Nat) (closing : Symbol) (expected : String) (first : Bool) : Reader Bool := do
  let t ← peek
  unless first || t.symbol = closing do
    if t.symbol ≠ .comma then unexpected start t expected
    skip
  if (← peek).symbol ≠ closing then return true
  skip
  return false

section

variable (node : (block loose : Bool) → Reader Node)

/-- Read a node of a block, which is absent in front of the given symbols. -/
def blockNode (ends : List Symbol) (loose : Bool) (line : Nat) : Reader Node := do
  if ends.contains (← peek).symbol then return .absent (line + 1)
  node true loose

/-- Read a node within brackets, which is absent in front of the given symbols. -/
def flowNode (ends : List Symbol) : Reader Node := do
  let t ← peek
  if ends.contains t.symbol then return .absent (t.line + 1)
  node false false

def blockItem (start : Nat) : Reader (Option Node) := do
  let t ← peek
  skip
  match t.symbol with
  | .dash => blockNode node [.dash, .blockEnd] false t.line
  | .blockEnd => return none
  | _ => unexpected start t "'-' indicator"

/-- Read an item of a sequence in the column of its mapping. It ends with its last entry. -/
def looseItem : Reader (Option Node) := do
  let t ← peek
  if t.symbol ≠ .dash then return none
  skip
  blockNode node (.dash :: entryEnds) false t.line

def blockEntry (start : Nat) : Reader (Option (Node × Node)) := do
  let t ← peek
  skip
  match t.symbol with
  | .key =>
    let key ← blockNode node entryEnds true t.line
    let t ← peek
    if t.symbol ≠ .colon then return (key, Node.absent (t.line + 1))
    skip
    return (key, ← blockNode node entryEnds true t.line)
  | .blockEnd => return none
  | _ => unexpected start t "key"

/-- Read the value behind a key within brackets. -/
def flowValue (ends : List Symbol) : Reader Node := do
  let t ← peek
  if t.symbol ≠ .colon then return .absent (t.line + 1)
  skip
  flowNode node ends

/-- Read an item of a sequence in brackets. Behind an absent key one token is passed over. -/
def flowItem (start : Nat) (before : List Node) : Reader (Option Node) := do
  unless ← goesOn start .closeBracket "',' or ']'" before.isEmpty do return none
  let t ← peek
  if t.symbol ≠ .key then return ← node false false
  skip
  let next ← peek
  let absent := [.colon, .comma, .closeBracket].contains next.symbol
  if absent then skip
  let key ← if absent then pure (.absent (next.line + 1)) else node false false
  return Node.mapping (t.line + 1) [(key, ← flowValue node [.comma, .closeBracket])]

def flowEntry (start : Nat) (before : List (Node × Node)) : Reader (Option (Node × Node)) := do
  unless ← goesOn start .closeBrace "',' or '\x7d'" before.isEmpty do return none
  if (← peek).symbol = .key then
    skip
    let key ← flowNode node [.colon, .comma, .closeBrace]
    return (key, ← flowValue node [.comma, .closeBrace])
  let key ← node false false
  return (key, Node.absent ((← peek).line + 1))

end

/-- Read a node. A block may start with the node, or, as the value of a mapping, a sequence in the
column of the mapping. -/
def node : (fuel : Nat) → (block loose : Bool) → Reader Node
  | 0, _, _ => do throw (← get).error
  | fuel + 1, block, loose => do
    let t ← peek
    let sequence (item : List Node → Reader (Option Node)) : Reader Node :=
      return .sequence (t.line + 1) (← many item fuel [])
    let mapping (entry : List (Node × Node) → Reader (Option (Node × Node))) : Reader Node :=
      return .mapping (t.line + 1) (← many entry fuel [])
    if t.symbol = .dash && loose then return ← sequence fun _ => looseItem (node fuel)
    skip
    match t.symbol, block with
    | .scalar plain text, _ => return .scalar (t.line + 1) plain text
    | .openBracket, _ => sequence (flowItem (node fuel) t.line)
    | .openBrace, _ => mapping (flowEntry (node fuel) t.line)
    | .sequenceStart, true => sequence fun _ => blockItem (node fuel) t.line
    | .mappingStart, true => mapping fun _ => blockEntry (node fuel) t.line
    | _, _ => unexpected t.line t "node content"

/-- The node of the first document. There is none in a text without tokens. -/
def document : Reader (Option Node) := do
  -- Every level of a node passes a token.
  let fuel := (← get).tokens.length + 1
  let t ← peek
  if t.symbol = .streamEnd then return none
  if t.symbol = .documentStart then skip
  let next ← peek
  let absent := t.symbol = .documentStart &&
    [.documentStart, .documentEnd, .streamEnd].contains next.symbol
  let root ← if absent then pure (Node.absent (next.line + 1)) else node fuel true false
  let _ ← peek
  return root

end Reader

/-- The node of the first document in a text. -/
def readDocument (input : Input) : Except Error (Option Node) :=
  Reader.document.run' (.ofInput input)

end Sequencer.Yaml
