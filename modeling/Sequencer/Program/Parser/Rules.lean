import Sequencer.Program.Basic
import Sequencer.Token.Lexer

/-!
# The rules of the grammar

A recursive-descent parser. It always delivers a tree and reads to the end of the text: where the
grammar is violated it complains, puts the literal `0` for a missing expression, and goes on at the
next line after a broken statement.

A **parser** is the unread tokens together with the complaints so far. It has one function for each
rule. All that such a function does is to look at the current token, to use it up, to complain, and
to call others; `Steps.ofRule` writes every function down in these steps.

A parse is **incomplete** when a complaint was made at the end of the text, or about a block whose
header is the last line: more text may still complete it.
-/

namespace Sequencer.Program

/-- The unread tokens before the end of the text, and what went wrong so far. -/
structure Parser where
  rest : List Token
  /-- Where the text ends. -/
  finish : Position
  complaints : List Diagnostic
  incomplete : Bool
deriving Repr

namespace Parser

open Token (Kind)

def start (l : Lexed) : Parser :=
  { rest := l.tokens, finish := l.finish, complaints := [], incomplete := false }

def endToken (p : Parser) : Token := ⟨.endOfInput, "", p.finish⟩

def cur (p : Parser) : Token := p.rest.headD p.endToken

/-- The token after the current one. -/
def peek (p : Parser) : Token := p.rest.tail.headD p.endToken

def kind (p : Parser) : Token.Kind := p.cur.kind

def pos (p : Parser) : Position := p.cur.pos

/-- The number of unread tokens. -/
def size (p : Parser) : Nat := p.rest.length

def advance (p : Parser) : Parser := { p with rest := p.rest.tail }

/-- Record a complaint. One at the end of the text makes the parse incomplete. -/
def complain (p : Parser) (pos : Position) (c : Complaint) : Parser :=
  { p with
    complaints := p.complaints ++ [⟨pos, c⟩]
    incomplete := p.incomplete || p.kind = .endOfInput }

/-- A missing block is the last thing in the text when only closing blocks follow. -/
def complainMissingBlock (p : Parser) : Parser :=
  let cut := p.kind = .dedent && (p.peek.kind = .dedent || p.peek.kind = .endOfInput)
  { p with incomplete := p.incomplete || cut }.complain p.pos .missingBlock

@[simp] theorem size_complain (p : Parser) (pos : Position) (c : Complaint) :
    (p.complain pos c).size = p.size := rfl

@[simp] theorem kind_complain (p : Parser) (pos : Position) (c : Complaint) :
    (p.complain pos c).kind = p.kind := rfl

theorem size_advance_le (p : Parser) : p.advance.size ≤ p.size := by
  simp [size, advance]

theorem size_advance_lt {p : Parser} (h : p.kind ≠ .endOfInput) : p.advance.size < p.size := by
  unfold kind cur at h
  unfold size advance
  cases hr : p.rest with
  | nil => simp [hr, endToken] at h
  | cons t ts => simp

/-! ### Operators -/

/-- The operators of a level of precedence, from `1` for products up to `6` for `|`. -/
def binaryOp? (level : Nat) (k : Token.Kind) : Option BinaryOp :=
  match level, k with
  | 1, .star => some .mul
  | 1, .slash => some .div
  | 1, .percent => some .mod
  | 2, .plus => some .add
  | 2, .minus => some .sub
  | 3, .shl => some .shl
  | 3, .shr => some .shr
  | 4, .amp => some .and
  | 5, .caret => some .xor
  | 6, .pipe => some .or
  | _, _ => none

/-- The relational operator that a token spells. -/
def compareOp? : Token.Kind → Option CompareOp
  | .eq => some .eq
  | .notEq => some .ne
  | .lt => some .lt
  | .ltEq => some .le
  | .gt => some .gt
  | .gtEq => some .ge
  | _ => none

/-- The operator before an operand that a token spells. -/
def signOp? : Token.Kind → Option UnaryOp
  | .minus => some .neg
  | .plus => some .pos
  | .tilde => some .invert
  | _ => none

theorem ne_end_of_binaryOp? {level : Nat} {k : Token.Kind} {op : BinaryOp}
    (h : binaryOp? level k = some op) : k ≠ .endOfInput := by
  rintro rfl
  simp [binaryOp?] at h

theorem ne_end_of_compareOp? {k : Token.Kind} {op : CompareOp} (h : compareOp? k = some op) :
    k ≠ .endOfInput := by
  rintro rfl
  simp [compareOp?] at h

theorem ne_end_of_signOp? {k : Token.Kind} {op : UnaryOp} (h : signOp? k = some op) :
    k ≠ .endOfInput := by
  rintro rfl
  simp [signOp?] at h

/-- The operator that joins the operands of a level. -/
def logicalOp : (level : Nat) → BoolOp
  | 0 => .and
  | _ => .or

/-- What a target that cannot be assigned is called; nothing for one that can. -/
def unassignable? : Expr → Option String
  | .name .. => none
  | .attr .. => none
  | .int .. => some "literal"
  | .bool .. => some "literal"
  | .list .. => some "literal"
  | .call .. => some "function call"
  | .yield .. => some "yield expression"
  | _ => some "expression"

/-! ### Rules -/

/-- The rules of the grammar, with what a function of the parser gets besides the parser. -/
inductive Rule where
  | primary
  | postfixTail (e : Expr)
  | postfixExpr
  | unary
  | binaryTail (level : Nat) (left : Expr)
  | binary (level : Nat)
  | comparisonTail
  | comparison
  | logicalTail (level : Nat)
  /-- An expression with `not` in front, or with operands of `and` or `or`, at one level each. -/
  | logical (level : Nat)
  | exprList (closing : Kind)
  | exprOrYield
  | assignTail
  | exprOrAssign
  | simpleBody
  | simple
  | params
  /-- The rest of a broken line. -/
  | skipLine
  | block
  | suite
  /-- A conditional, or nothing at the end of the text. -/
  | cond
  | stmt
  | stmts (inBlock : Bool)

abbrev Rule.expr : Rule := logical 2

abbrev Rule.Result : Rule → Type
  | .comparisonTail => List (CompareOp × Position × Expr)
  | .logicalTail _ | .exprList _ => List Expr
  | .assignTail => List Expr × Expr
  | .exprOrAssign | .simpleBody | .simple => Stmt
  | .params => List Param
  | .skipLine => Unit
  | .block | .suite | .stmts _ => List Stmt
  | .cond | .stmt => Option Stmt
  | _ => Expr

/-! ### Steps -/

/-- What a function of the parser does, one step after the other. -/
inductive Steps (α : Type) where
  | done (a : α)
  /-- Look at the current token. -/
  | look (next : Token → Steps α)
  /-- Use up the current token. -/
  | advance (next : Steps α)
  | complain (pos : Position) (c : Complaint) (next : Steps α)
  /-- Complain about a missing block. -/
  | missingBlock (next : Steps α)
  | call (r : Rule) (next : r.Result → Steps α)

namespace Steps

variable {α : Type}

/-- Use up the current token, which should be of the given kind. -/
def expect (wanted : Kind) (next : Steps α) : Steps α :=
  look fun t =>
    if t.kind = wanted then advance next
    else complain t.pos (.expected wanted t) (advance next)

def endLine (next : Steps α) : Steps α :=
  look fun t =>
    if t.kind = .newline then advance next
    else complain t.pos (.expectedLineEnd t) (call .skipLine fun _ => next)

def checkLoopElse (next : Steps α) : Steps α :=
  look fun t => if t.kind = .kwElse then complain t.pos .loopElse next else next

def checkTargets (next : Steps α) : List Expr → Steps α
  | [] => next
  | t :: ts =>
    match unassignable? t with
    | none => checkTargets next ts
    | some what => complain t.pos (.notAssignable what) (checkTargets next ts)

def integer (t : Token) : Steps Expr :=
  match Text.Numeral.signed t.lexeme.toList with
  | .ok v => done (.int t.pos v t.lexeme)
  | .error e => complain t.pos (.badInteger t.lexeme e) (done (.int t.pos 0 t.lexeme))

/-! The steps of each function, from the current token on. -/

def primary (t : Token) : Steps Expr :=
  match t.kind with
  | .ident => advance (done (.name t.pos t.lexeme))
  | .int => advance (integer t)
  | .kwTrue => advance (done (.bool t.pos true))
  | .kwFalse => advance (done (.bool t.pos false))
  | .lparen => advance (call .expr fun e => expect .rparen (done e))
  | .lbracket =>
    advance (call (.exprList .rbracket) fun es =>
      look fun u => expect .rbracket (done (.list t.pos es u.pos)))
  | k =>
    complain t.pos (.notAnExpression k)
      (if k.endsLine then done (.int t.pos 0 "0") else advance (done (.int t.pos 0 "0")))

def postfixTail (e : Expr) (t : Token) : Steps Expr :=
  match t.kind with
  | .dot =>
    advance (look fun u =>
      if u.kind = .ident then advance (call (.postfixTail (.attr e u.lexeme u.pos)) done)
      else complain u.pos .missingAttributeName (done e))
  | .lparen =>
    advance (call (.exprList .rparen) fun args =>
      look fun u => expect .rparen (call (.postfixTail (.call e t.pos args u.pos)) done))
  | _ => done e

def unary (t : Token) : Steps Expr :=
  match signOp? t.kind with
  | some op => advance (call .unary fun e => done (.unary t.pos op e))
  | none => call .postfixExpr done

def binaryTail (level : Nat) (left : Expr) (t : Token) : Steps Expr :=
  match binaryOp? (level + 1) t.kind with
  | some op =>
    advance (call (.binary level) fun right =>
      call (.binaryTail level (.binary t.pos op left right)) done)
  | none => done left

def binary : Nat → Steps Expr
  | 0 => call .unary done
  | level + 1 => call (.binary level) fun left => call (.binaryTail level left) done

def comparisonTail (t : Token) : Steps (List (CompareOp × Position × Expr)) :=
  match compareOp? t.kind with
  | some op =>
    advance (call (.binary 6) fun right =>
      call .comparisonTail fun links => done ((op, t.pos, right) :: links))
  | none => done []

def logicalTail (level : Nat) (t : Token) : Steps (List Expr) :=
  if t.kind = (logicalOp level).token then
    advance (call (.logical level) fun e => call (.logicalTail level) fun es => done (e :: es))
  else done []

def logical : Nat → Steps Expr
  | 0 => look fun t =>
    if t.kind = .kwNot then advance (call (.logical 0) fun e => done (.unary t.pos .not e))
    else call .comparison done
  | level + 1 =>
    call (.logical level) fun first => look fun t => call (.logicalTail level) fun others =>
      done (if others.isEmpty then first else .boolOp t.pos (logicalOp level) first others)

def exprList (closing : Kind) (t : Token) : Steps (List Expr) :=
  if t.kind = closing || t.kind = .endOfInput then done []
  else
    call .expr fun e => look fun u =>
      if u.kind = .comma then advance (call (.exprList closing) fun es => done (e :: es))
      else done [e]

def exprOrYield (t : Token) : Steps Expr :=
  if t.kind = .kwYield then
    advance (look fun u => if u.kind.endsLine || u.kind = .assign then done (.yield t.pos none)
      else call .expr fun e => done (.yield t.pos (some e)))
  else call .expr done

def simpleBody (t : Token) : Steps Stmt :=
  match t.kind with
  | .kwReturn =>
    advance (look fun u => if u.kind = .newline then done (.ret t.pos none)
      else call .expr fun e => done (.ret t.pos (some e)))
  | .kwPass => advance (done (.pass t.pos))
  | .kwBreak => advance (done (.brk t.pos))
  | .kwContinue => advance (done (.cont t.pos))
  | _ => call .exprOrAssign done

def params (t : Token) : Steps (List Param) :=
  if t.kind = .ident then
    advance (look fun u =>
      if u.kind = .comma then advance (call .params fun ps => done (⟨t.lexeme, t.pos⟩ :: ps))
      else done [⟨t.lexeme, t.pos⟩])
  else done []

def skipLine (t : Token) : Steps Unit :=
  if t.kind.endsLine then if t.kind = .newline then advance (done ()) else done ()
  else advance (call .skipLine done)

def block (t : Token) : Steps (List Stmt) :=
  if t.kind = .newline then
    advance (look fun u =>
      if u.kind = .indent then advance (call (.stmts true) fun ss => expect .dedent (done ss))
      else missingBlock (done []))
  else call .simple fun s => done [s]

def cond (t : Token) : Steps (Option Stmt) :=
  if t.kind = .endOfInput then done none
  else
    advance (call .expr fun test => call .suite fun body => look fun u => if u.kind = .kwElif then
        call .cond fun s => done (some (.cond t.pos test body s.toList))
      else if u.kind = .kwElse then
        advance (call .suite fun orElse => done (some (.cond t.pos test body orElse)))
      else done (some (.cond t.pos test body [])))

def stmt (t : Token) : Steps (Option Stmt) :=
  match t.kind with
  | .kwDef =>
    advance (look fun u => if u.kind = .ident then
        advance (expect .lparen (call .params fun ps => expect .rparen (call .suite fun body =>
          done (some (.funcDef t.pos u.lexeme u.pos ps body)))))
      else complain u.pos .missingFunctionName (call .skipLine fun _ => done none))
  | .kwIf => call .cond done
  | .kwWhile =>
    advance (call .expr fun test => call .suite fun body =>
      checkLoopElse (done (some (.loop t.pos test body))))
  | .kwFor =>
    advance (call .postfixExpr fun target => expect .kwIn (call .expr fun iter =>
      call .suite fun body => checkLoopElse (done (some (.each t.pos target iter body)))))
  | .indent =>
    complain t.pos .unexpectedIndent (advance (call .skipLine fun _ => done none))
  | .kwElif | .kwElse =>
    complain t.pos (.strayClause t.lexeme) (call .skipLine fun _ => done none)
  | _ => call .simple fun s => done (some s)

def stmts (inBlock : Bool) (t : Token) : Steps (List Stmt) :=
  if t.kind = .endOfInput then done []
  else if inBlock && t.kind = .dedent then done []
  else if t.kind = .newline then advance (call (.stmts inBlock) done)
  else call .stmt fun s => call (.stmts inBlock) fun ss => done (s.toList ++ ss)

def ofRule : (r : Rule) → Steps r.Result
  | .primary => look primary
  | .postfixTail e => look (postfixTail e)
  | .postfixExpr => call .primary fun e => call (.postfixTail e) done
  | .unary => look unary
  | .binaryTail level left => look (binaryTail level left)
  | .binary level => binary level
  | .comparisonTail => look comparisonTail
  | .comparison =>
    call (.binary 6) fun first => call .comparisonTail fun links =>
      done (if links.isEmpty then first else .compare first links)
  | .logicalTail level => look (logicalTail level)
  | .logical level => logical level
  | .exprList closing => look (exprList closing)
  | .exprOrYield => look exprOrYield
  | .assignTail =>
    call .exprOrYield fun e => look fun t =>
      if t.kind = .assign then advance (call .assignTail fun r => done (e :: r.1, r.2))
      else done ([], e)
  | .exprOrAssign =>
    call .exprOrYield fun first => look fun t =>
      if t.kind = .assign then
        advance (call .assignTail fun r =>
          checkTargets (done (.assign first r.1 t.pos r.2)) (first :: r.1))
      else done (.expr first)
  | .simpleBody => look simpleBody
  | .simple => call .simpleBody fun s => endLine (done s)
  | .params => look params
  | .skipLine => look skipLine
  | .block => look block
  | .suite => expect .colon (call .block done)
  | .cond => look cond
  | .stmt => look stmt
  | .stmts inBlock => look (stmts inBlock)

end Steps

/-- Calls go down in this order as long as no token is used up. Calls of one function, at one level
of precedence, have one place in it. -/
def Rule.order : Rule → Nat
  | .skipLine => 0
  | .params => 1
  | .primary => 2
  | .postfixTail _ => 3
  | .postfixExpr => 4
  | .unary => 5
  | .binary level => 2 * level + 6
  | .binaryTail level _ => 2 * level + 7
  | .comparisonTail => 19
  | .comparison => 20
  | .logical level => 2 * level + 21
  | .logicalTail level => 2 * level + 22
  | .exprList _ => 26
  | .exprOrYield => 27
  | .assignTail => 28
  | .exprOrAssign => 29
  | .simpleBody => 30
  | .simple => 31
  | .block => 32
  | .suite => 33
  | .cond => 34
  | .stmt => 35
  | .stmts _ => 36


end Parser

end Sequencer.Program
