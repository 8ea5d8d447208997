import Sequencer.Token.Basic

/-!
# Programs

The syntax tree of a program text: a sequence of statements, each with the positions that
diagnostics refer to. Which of these programs can be turned into hardware is decided later.
-/

namespace Sequencer.Program

/-! ### Operators -/

/-- An operator between two operands that yields a number. -/
inductive BinaryOp where
  | add
  | sub
  | mul
  | div
  | mod
  | shl
  | shr
  | or
  | xor
  | and
deriving DecidableEq, Repr, Inhabited

def BinaryOp.token : BinaryOp → Token.Kind
  | add => .plus
  | sub => .minus
  | mul => .star
  | div => .slash
  | mod => .percent
  | shl => .shl
  | shr => .shr
  | or => .pipe
  | xor => .caret
  | and => .amp

inductive CompareOp where
  | eq
  | ne
  | lt
  | le
  | gt
  | ge
deriving DecidableEq, Repr, Inhabited

def CompareOp.token : CompareOp → Token.Kind
  | eq => .eq
  | ne => .notEq
  | lt => .lt
  | le => .ltEq
  | gt => .gt
  | ge => .gtEq

/-- An operator that joins truth values. -/
inductive BoolOp where
  | and
  | or
deriving DecidableEq, Repr, Inhabited

def BoolOp.token : BoolOp → Token.Kind
  | and => .kwAnd
  | or => .kwOr

inductive UnaryOp where
  | neg
  | pos
  | invert
  | not
deriving DecidableEq, Repr, Inhabited

def UnaryOp.token : UnaryOp → Token.Kind
  | neg => .minus
  | pos => .plus
  | invert => .tilde
  | not => .kwNot

/-! ### Expressions -/

inductive Expr where
  | name (pos : Position) (ident : String)
  /-- An integer literal with its value and its spelling. -/
  | int (pos : Position) (value : Int64) (raw : String)
  | bool (pos : Position) (value : Bool)
  | binary (opPos : Position) (op : BinaryOp) (left right : Expr)
  /-- A comparison chain: the first operand, then each operator with its position and right-hand
  operand. -/
  | compare (first : Expr) (links : List (CompareOp × Position × Expr))
  /-- Operands joined by `and` or by `or`; the position is that of the first operator. -/
  | boolOp (opPos : Position) (op : BoolOp) (first : Expr) (others : List Expr)
  | unary (opPos : Position) (op : UnaryOp) (operand : Expr)
  | call (func : Expr) (lparen : Position) (args : List Expr) (rparen : Position)
  | attr (object : Expr) (field : String) (fieldPos : Position)
  | list (lbracket : Position) (elements : List Expr) (rbracket : Position)
  | yield (pos : Position) (value : Option Expr)
deriving Repr, Inhabited

def Expr.pos : Expr → Position
  | name pos _ => pos
  | int pos _ _ => pos
  | bool pos _ => pos
  | binary _ _ left _ => left.pos
  | compare first _ => first.pos
  | boolOp _ _ first _ => first.pos
  | unary opPos _ _ => opPos
  | call func _ _ _ => func.pos
  | attr object _ _ => object.pos
  | list lbracket _ _ => lbracket
  | yield pos _ => pos

/-- What an expression is, in the words of the messages about it. -/
def Expr.describe : Expr → String
  | name _ ident => "name " ++ ident
  | int .. => "integer literal"
  | bool .. => "boolean literal"
  | binary _ op _ _ => "operator " ++ op.token.name
  | compare .. => "comparison"
  | boolOp _ op _ _ => "boolean operator " ++ op.token.name
  | unary _ op _ => "unary operator " ++ op.token.name
  | call .. => "call"
  | attr _ field _ => "attribute ." ++ field
  | list .. => "list literal"
  | yield .. => "yield"

/-! ### Statements -/

structure Param where
  name : String
  pos : Position
deriving DecidableEq, Repr, Inhabited

inductive Stmt where
  | funcDef (pos : Position) (name : String) (namePos : Position) (params : List Param)
      (body : List Stmt)
  /-- An assignment of one value to one or more targets; the position is that of the first `=`. -/
  | assign (target : Expr) (others : List Expr) (opPos : Position) (value : Expr)
  | expr (value : Expr)
  /-- A conditional; without an `else` branch, and after an `else` whose block is missing,
  `orElse` is empty. An `elif` is a conditional as the only statement of `orElse`. -/
  | cond (pos : Position) (test : Expr) (body : List Stmt) (orElse : List Stmt)
  | loop (pos : Position) (test : Expr) (body : List Stmt)
  | each (pos : Position) (target : Expr) (iter : Expr) (body : List Stmt)
  | ret (pos : Position) (result : Option Expr)
  | pass (pos : Position)
  | brk (pos : Position)
  | cont (pos : Position)
deriving Repr, Inhabited

def Stmt.pos : Stmt → Position
  | funcDef pos _ _ _ _ => pos
  | assign target _ _ _ => target.pos
  | expr value => value.pos
  | cond pos _ _ _ => pos
  | loop pos _ _ => pos
  | each pos _ _ _ => pos
  | ret pos _ => pos
  | pass pos => pos
  | brk pos => pos
  | cont pos => pos

structure Module where
  body : List Stmt
deriving Repr, Inhabited

/-- Where a program starts; an empty one starts at the first character. -/
def Module.pos (m : Module) : Position :=
  match m.body with
  | [] => ⟨1, 1⟩
  | s :: _ => s.pos

end Sequencer.Program
