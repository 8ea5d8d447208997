import Sequencer.Text.Numeral
import Sequencer.Text.Quoted
import Sequencer.Token.Basic

/-!
# Diagnostics

What can be wrong with the form of a program text, and how it is reported. Reading never stops at
the first complaint: a text has one list of diagnostics, those about its tokens first.
-/

namespace Sequencer

/-- What is wrong with a program text at some place. -/
inductive Complaint where
  /-- A character that starts no token. -/
  | unexpectedCharacter (lexeme : String)
  /-- A line indented less than its block, but to no enclosing level. -/
  | unalignedDedent
  /-- A token other than the one the grammar wants. -/
  | expected (wanted : Token.Kind) (found : Token)
  /-- Something after the end of a statement. -/
  | expectedLineEnd (found : Token)
  | missingFunctionName
  | missingAttributeName
  | missingBlock
  | unexpectedIndent
  /-- An `elif` or `else` that continues no `if`. -/
  | strayClause (word : String)
  /-- An `else` after the body of a loop. -/
  | loopElse
  /-- An assignment to something that is neither a name nor an attribute. -/
  | notAssignable (what : String)
  | badInteger (lexeme : String) (reason : Text.Numeral.Error)
  /-- A token that starts no expression. -/
  | notAnExpression (kind : Token.Kind)
deriving DecidableEq, Repr

def Complaint.message : Complaint → String
  | unexpectedCharacter lexeme => "unexpected character " ++ Text.quote lexeme
  | unalignedDedent => "unindent does not match any outer indentation level"
  | expected wanted found =>
    s!"expected {wanted.name}, got {found.kind.name} ({Text.quote found.lexeme})"
  | expectedLineEnd found =>
    s!"expected end of line, got {found.kind.name} ({Text.quote found.lexeme})"
  | missingFunctionName => "expected function name after 'def'"
  | missingAttributeName => "expected identifier after '.'"
  | missingBlock => "expected an indented block"
  | unexpectedIndent => "unexpected indent"
  | strayClause word => s!"'{word}' without matching 'if'"
  | loopElse => "'else' clause on a loop is not supported"
  | notAssignable what => "cannot assign to " ++ what
  | badInteger lexeme reason =>
    let literal := Text.quote lexeme
    s!"invalid integer literal {literal}: strconv.ParseInt: parsing {literal}: {reason.message}"
  | notAnExpression kind => "unexpected token in expression: " ++ kind.name

/-- A complaint about a place in the text. -/
structure Diagnostic where
  pos : Position
  complaint : Complaint
deriving DecidableEq, Repr

def Diagnostic.message (d : Diagnostic) : String :=
  s!"{d.pos.toText}: {d.complaint.message}"

end Sequencer
