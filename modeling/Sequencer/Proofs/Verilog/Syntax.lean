import Sequencer.Proofs.Verilog.Identifiers

/-!
# How modules are read

A text is read by the grammar of the language, and by nothing that the writer knows. The comments at
its top are skipped and the rest is cut into tokens. In a block that is evaluated all the time an
assignment has the sign `=` and at a clock edge `<=`; there the first branch is the reset.
-/

namespace Sequencer.Verilog

open Circuit

/-! ### Tokens -/

/-- A character that ends a word: a blank, or a token by itself. -/
def isApart : Char → Bool
  | ' ' | '\t' | '\n' | '(' | ')' | '[' | ']' | ':' | ';' | ',' | '@' | '\'' => true
  | _ => false

def isBlank : Char → Bool
  | ' ' | '\t' | '\n' => true
  | _ => false

/-- The word that has been read so far, if there is one. -/
def ended : List Char → List (List Char)
  | [] => []
  | word => [word]

/-- The tokens of a text that stands behind a part of a word. -/
def lex (word : List Char) : List Char → List (List Char)
  | [] => ended word
  | c :: cs =>
    if isApart c then ended word ++ (if isBlank c then [] else [[c]]) ++ lex [] cs
    else lex (word ++ [c]) cs

/-- The tokens of a text. -/
def tokens (s : String) : List (List Char) := lex [] s.toList

/-- What follows the comments at the top of a text. The flag is set inside of a comment. -/
def behindComments : Bool → List Char → List Char
  | true, c :: cs => behindComments (c ≠ '\n') cs
  | false, '/' :: '/' :: cs => behindComments true cs
  | _, cs => cs

/-! ### Readers -/

/-- A reader of tokens. -/
abbrev Reader := StateT (List (List Char)) Option

namespace Reader

variable {α : Type}

def words (ws : List String) : List (List Char) := ws.map String.toList

/-- Whether some words come next. -/
def ahead (ws : List String) (ts : List (List Char)) : Bool := (words ws).isPrefixOf ts

def starts (ws : List String) : Reader Bool := fun ts => some (ahead ws ts, ts)

/-- Read some words. -/
def expect (ws : List String) : Reader Unit := fun ts =>
  if ahead ws ts then some ((), ts.drop ws.length) else none

/-- Read what some words introduce, if they come next. -/
def optional (ws : List String) (r : Reader α) : Reader (Option α) := do
  if ← starts ws then
    expect ws
    let a ← r
    return some a
  else return none

/-- Read as many of a kind as there are. -/
def many (r : Reader α) : Nat → Reader (List α)
  | 0, _ => none
  | n + 1, ts =>
    match r ts with
    | none => some ([], ts)
    | some (a, ts) => (List.cons a <$> many r n) ts

/-- Read one token. -/
def token (f : List Char → Option α) : Reader α
  | [] => none
  | t :: ts => (f t).map (·, ts)

/-- Read what stands between `begin` and `end`. -/
def block (r : Reader α) : Reader α := do
  expect ["begin"]
  let a ← r
  expect ["end"]
  return a

/-- Read what stands behind a sign, up to a semicolon. -/
def given (sign : String) (r : Reader α) : Reader α := do
  expect [sign]
  let a ← r
  expect [";"]
  return a

/-! ### Expressions -/

instance (c : Char) : Decidable (IsLetter c) := inferInstanceAs (Decidable (_ ∨ _))

instance (c : Char) : Decidable (IsDigit c) := inferInstanceAs (Decidable (_ ∧ _))

/-- A name that is no keyword. -/
def name : Reader String := token fun t =>
  if t.head?.any (IsLetter ·) && t.all (fun c => IsLetter c ∨ IsDigit c) &&
      !(words keywords).contains t then
    some (String.ofList t)
  else none

def natural? (t : List Char) : Option Nat :=
  if t ≠ [] && t.all Char.isDigit then some (Nat.ofDigitChars 10 t 0) else none

/-- A sized decimal number of at most 64 bits. -/
def number : Reader Number := do
  let width ← token natural?
  expect ["'"]
  let value ← token fun t => if t.head? = some 'd' then natural? t.tail else none
  if value < UInt64.size then return ⟨width, .ofNat value⟩ else failure

def operators : List (String × Op) :=
  [("+", .add), ("-", .sub), ("*", .mul), ("<<", .shl), (">>", .shr), ("|", .or), ("^", .xor),
    ("&", .and), ("==", .eq), ("!=", .ne), ("<", .lt), ("<=", .le), (">", .gt), (">=", .ge)]

def operator : Reader Op := token fun t => (operators.find? (·.1.toList = t)).map Prod.snd

/-- A name, a bit of it, or the bits from a high to a low one. -/
def operand : Reader Expr := do
  let x ← name
  if ← starts ["["] then
    expect ["["]
    let high ← token natural?
    let low ← optional [":"] (token natural?)
    expect ["]"]
    return low.elim (.bit x high) fun low => .part x high low
  else return .name x

/-- An expression. Every operator has its own brackets. -/
def expr : Nat → Reader Expr
  | 0 => failure
  | n + 1 => do
    if ← starts ["("] then
      expect ["("]
      let left ← expr n
      let op ← operator
      let right ← expr n
      expect [")"]
      return .binary op left right
    else (do
      let k ← number
      return .number k) <|> operand

/-! ### Statements -/

def arm (body : Reader (List Stmt)) : Reader (Number × List Stmt) := do
  let k ← number
  expect [":"]
  let ss ← block body
  return (k, ss)

/-- A statement, where `sign` is the sign of an assignment and `body` reads the blocks inside. -/
def stmt (sign : String) (n : Nat) (body : Reader (List Stmt)) : Reader Stmt := do
  if ← starts ["if"] then
    expect ["if", "("]
    let test ← expr n
    expect [")"]
    let yes ← block body
    let no ← optional ["else"] (block body)
    return .branch test yes no
  else if ← starts ["case"] then
    expect ["case", "("]
    let test ← expr n
    expect [")"]
    let arms ← many (arm body) n
    let other ← optional ["default", ":"] (block body)
    expect ["endcase"]
    return .select test arms other
  else
    let target ← name
    let value ← given sign (expr n)
    return .assign target value

def stmts (sign : String) : Nat → Reader (List Stmt)
  | 0 => failure
  | n + 1 => many (stmt sign n (stmts sign n)) n

/-! ### Modules -/

/-- The number of bits of a name, from what stands in front of it. -/
def range : Reader Int := do
  if ← starts ["["] then
    expect ["["]
    let high ← token natural?
    expect [":", "0", "]"]
    return high + 1
  else return 1

/-- A name and its number of bits. -/
def declared : Reader (Int × String) := do
  let width ← range
  let ident ← name
  return (width, ident)

/-- A port behind the clock and the reset. -/
def port : Reader PortDecl := do
  expect [","]
  let direction ← token fun t =>
    if t = "input".toList then some .input else if t = "output".toList then some .output else none
  let isReg ← optional ["reg"] (return ())
  let d ← declared
  return ⟨direction, isReg.isSome, d.1, d.2⟩

def decl (n : Nat) : Reader Decl := do
  if ← starts ["assign"] then
    expect ["assign"]
    let ident ← name
    let value ← given "=" number
    return .constant ident value
  else if ← starts ["reg"] then
    expect ["reg"]
    let d ← declared
    let start ← given "=" number
    return .reg d.1 d.2 start
  else
    expect ["wire"]
    let d ← declared
    let value ← given "=" (expr n)
    return .wire d.1 d.2 value

/-- What a statement sets a name to on reset. -/
def reset? : Stmt → Option (String × Number)
  | .assign x (.number k) => some (x, k)
  | _ => none

/-- The block at the clock edge: one branch for the reset, and one for all other edges. -/
def atEdge (n : Nat) : Reader Block := do
  expect ["begin", "if", "(", "sys_rst", ")"]
  let resets ← block (stmts "<=" n)
  let numbers ← (resets.mapM reset? : Option _)
  expect ["else"]
  let body ← block (stmts "<=" n)
  expect ["end"]
  return ⟨numbers, body⟩

/-- What a block that is evaluated all the time begins with. -/
def alwaysWords : List String := ["always", "@", "(", "*", ")"]

/-- What a block at the clock edge begins with. -/
def edgeWords : List String := ["always", "@", "(", "posedge", "sys_clk", ")"]

/-- A module up to its last word. -/
def wholeModule (n : Nat) : Reader Module := do
  expect ["module"]
  let ident ← name
  expect ["(", "input", "sys_clk", ",", "input", "sys_rst"]
  let ports ← many port n
  expect [")", ";"]
  let decls ← many (decl n) n
  let comb ← optional alwaysWords (block (stmts "=" n))
  let sync ← optional edgeWords (atEdge n)
  expect ["endmodule"]
  return ⟨ident, "", ports, decls, comb.map (⟨[], ·⟩), sync⟩

end Reader

/-- Read a module from all the tokens that there are. -/
def Module.ofTokens? (ts : List (List Char)) : Option Module :=
  ((Reader.wholeModule ts.length ts).filter (·.2.isEmpty)).map Prod.fst

/-- Read the text of a module. What its comments say is no part of it. -/
def Module.read (text : String) : Option Module :=
  ofTokens? (lex [] (behindComments false text.toList))

end Sequencer.Verilog
