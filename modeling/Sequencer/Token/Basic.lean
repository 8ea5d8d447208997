/-!
# Tokens

Line ends and changes of indentation are tokens of their own; line breaks inside brackets, blank
lines and comments leave no token behind.
-/

namespace Sequencer

/-- A place in a program text. Lines count from one, and so do the columns of characters; the end
of an empty text is in column zero. -/
structure Position where
  line : Nat
  column : Nat
deriving DecidableEq, Repr, Inhabited

/-- A position as it starts a diagnostic. -/
def Position.toText (p : Position) : String :=
  s!"{p.line}:{p.column}"

namespace Token

inductive Kind where
  | illegal
  | endOfInput
  | newline
  | indent
  | dedent
  | ident
  | int
  | kwDef
  | kwIf
  | kwElif
  | kwElse
  | kwWhile
  | kwFor
  | kwIn
  | kwYield
  | kwReturn
  | kwPass
  | kwBreak
  | kwContinue
  | kwTrue
  | kwFalse
  | kwAnd
  | kwOr
  | kwNot
  | assign
  | plus
  | minus
  | star
  | slash
  | percent
  | shl
  | shr
  | pipe
  | caret
  | amp
  | tilde
  | eq
  | notEq
  | lt
  | ltEq
  | gt
  | gtEq
  | comma
  | dot
  | colon
  | lparen
  | rparen
  | lbracket
  | rbracket
deriving DecidableEq, Repr, Inhabited

namespace Kind

def name : Kind → String
  | illegal => "Illegal"
  | endOfInput => "EOF"
  | newline => "Newline"
  | indent => "Indent"
  | dedent => "Dedent"
  | ident => "Ident"
  | int => "Int"
  | kwDef => "Def"
  | kwIf => "If"
  | kwElif => "Elif"
  | kwElse => "Else"
  | kwWhile => "While"
  | kwFor => "For"
  | kwIn => "In"
  | kwYield => "Yield"
  | kwReturn => "Return"
  | kwPass => "Pass"
  | kwBreak => "Break"
  | kwContinue => "Continue"
  | kwTrue => "True"
  | kwFalse => "False"
  | kwAnd => "And"
  | kwOr => "Or"
  | kwNot => "Not"
  | assign => "Assign"
  | plus => "Plus"
  | minus => "Minus"
  | star => "Star"
  | slash => "Slash"
  | percent => "Percent"
  | shl => "Shl"
  | shr => "Shr"
  | pipe => "Pipe"
  | caret => "Caret"
  | amp => "Amp"
  | tilde => "Tilde"
  | eq => "Eq"
  | notEq => "NotEq"
  | lt => "Lt"
  | ltEq => "LtEq"
  | gt => "Gt"
  | gtEq => "GtEq"
  | comma => "Comma"
  | dot => "Dot"
  | colon => "Colon"
  | lparen => "LParen"
  | rparen => "RParen"
  | lbracket => "LBracket"
  | rbracket => "RBracket"

def all : List Kind :=
  [illegal, endOfInput, newline, indent, dedent, ident, int, kwDef, kwIf, kwElif, kwElse, kwWhile,
    kwFor, kwIn, kwYield, kwReturn, kwPass, kwBreak, kwContinue, kwTrue, kwFalse, kwAnd, kwOr,
    kwNot, assign, plus, minus, star, slash, percent, shl, shr, pipe, caret, amp, tilde, eq, notEq,
    lt, ltEq, gt, gtEq, comma, dot, colon, lparen, rparen, lbracket, rbracket]

def code (k : Kind) : Nat := all.idxOf k

def ofCode? (n : Int) : Option Kind :=
  if n < 0 then none else all[n.toNat]?

/-- The name of the kind with the given number; a number without a kind shows as itself. -/
def nameOfCode (n : Int) : String :=
  match ofCode? n with
  | some k => k.name
  | none => s!"Kind({n})"

/-- A relational operator, which may be chained as in `a < b < c`. -/
def isComparison : Kind → Bool
  | eq | notEq | lt | ltEq | gt | gtEq => true
  | _ => false

def endsLine : Kind → Bool
  | newline | endOfInput => true
  | _ => false

end Kind

def keywords : List (String × Kind) :=
  [("def", .kwDef), ("if", .kwIf), ("elif", .kwElif), ("else", .kwElse), ("while", .kwWhile),
    ("for", .kwFor), ("in", .kwIn), ("yield", .kwYield), ("return", .kwReturn), ("pass", .kwPass),
    ("break", .kwBreak), ("continue", .kwContinue), ("True", .kwTrue), ("False", .kwFalse),
    ("and", .kwAnd), ("or", .kwOr), ("not", .kwNot)]

/-- The kind of a word: a keyword, or else an identifier. -/
def kindOfWord (word : String) : Kind :=
  (keywords.lookup word).getD .ident

end Token

/-- A token with its spelling and the position where it starts. The tokens that mark line ends by
the end of the text, and changes of indentation, have an empty spelling. -/
structure Token where
  kind : Token.Kind
  lexeme : String
  pos : Position
deriving DecidableEq, Repr, Inhabited

end Sequencer
