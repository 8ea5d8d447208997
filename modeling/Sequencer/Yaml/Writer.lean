import Sequencer.Text.Quoted
import Sequencer.Yaml.Cursor
import Sequencer.Yaml.Resolve

/-!
# Writing YAML scalars

A text is written plain if it reads back as the same text, and otherwise in single quotes, in double
quotes with escapes, or as a literal block.
-/

namespace Sequencer.Yaml

open Text

/-! ### What would be misread -/

/-- The words that older readers take for truth values. -/
def oldTruths : List String :=
  ["y", "Y", "yes", "Yes", "YES", "on", "On", "ON", "n", "N", "no", "No", "NO", "off", "Off", "OFF"]

/-- Whether a text is groups of `:` and a number below 60, and then perhaps a fraction. There must
be a group, unless one was `found` before. -/
def isSixties : (fuel : Nat) → (found : Bool) → List Char → Bool
  | 0, _, _ => false
  | fuel + 1, found, cs =>
    match cs with
    | [] => found
    | [':', a] => a.isDigit
    | ':' :: a :: b :: rest =>
      if !a.isDigit then false
      else if a < '6' && b.isDigit then isSixties fuel true rest
      else isSixties fuel true (b :: rest)
    | '.' :: rest => found && rest.all fun c => c.isDigit || c = '_'
    | _ => false

/-- Whether older readers take a text for a number in base 60. -/
def isBase60 (s : String) : Bool :=
  let (_, cs) := splitSign s.toList
  match cs with
  | c :: rest =>
    c.isDigit
      && isSixties (rest.length + 1) false (rest.dropWhile fun x => x.isDigit || x = '_')
  | [] => false

def readsAsText (s : String) : Bool :=
  Meaning.ofPlain s = .string && !isBase60 s && !oldTruths.contains s

/-! ### Characters -/

/-- Whether a character can be written as it is. -/
def isShown (c : Char) : Bool :=
  let n := c.toNat
  n = 0x0a || (0x20 ≤ n && n ≤ 0x7e) || (0xa0 ≤ n && n ≤ 0xfffd && n ≠ 0xfeff)

/-- The escape of a character in double quotes. -/
def escapeOf (c : Char) : List Char :=
  match escapes.find? (·.2 = c) with
  | some (letter, _) => [letter]
  | none =>
    let n := c.toNat
    let digits (count : Nat) := (hexDigits count n).map Char.toUpper
    if n ≤ 0xff then 'x' :: digits 2
    else if n ≤ 0xffff then 'u' :: digits 4
    else 'U' :: digits 8

/-- A text in double quotes. If an order mark stands at its start, every character is escaped. -/
def doubleQuoted (s : String) : String :=
  let cs := s.toList
  let all := cs.head? = some orderMark
  String.ofList ('"' :: cs.flatMap (fun c =>
    if all || !isShown c || isBreak c || c = '"' || c = '\\' then '\\' :: escapeOf c else [c])
    ++ ['"'])

/-- The column in which the lines of a text are continued. -/
def textIndent : Nat := 4

/-- Indent each line that is not empty, where the flag tells whether a line starts here. -/
def indentLines (lineStart : Bool) : List Char → List Char
  | [] => []
  | c :: rest =>
    if isBreak c then breakChar c :: indentLines true rest
    else if lineStart then List.replicate textIndent ' ' ++ c :: indentLines false rest
    else c :: indentLines false rest

def singleQuoted (s : String) : String :=
  let body := (indentLines false s.toList).flatMap fun c => if c = '\'' then ['\'', '\''] else [c]
  String.ofList ('\'' :: body ++ ['\''])

/-! ### Styles -/

def blankNext : List Char → Bool
  | [] => true
  | c :: _ => isBlank c

/-- The characters that mark something else than text at its start. -/
def startMarks : List Char := ['{', '}'] ++ "#,[]&*!|>'\"%@`".toList

/-- Whether the first character of a text is the mark of something else. -/
def startsMarked : List Char → Bool
  | [] => false
  | c :: rest =>
    if c = '?' || c = ':' || c = '-' then blankNext rest else startMarks.contains c

/-- Whether a colon before a blank or a hash after one stands inside a text. -/
def hasMarks (afterBlank : Bool) : List Char → Bool
  | [] => false
  | c :: rest =>
    (c = ':' && blankNext rest) || (c = '#' && afterBlank) || hasMarks (isBlank c || isBreak c) rest

/-- Whether characters `p` and `q` ever stand next to each other. -/
def hasPair (p q : Char → Bool) : List Char → Bool
  | a :: b :: rest => (p a && q b) || hasPair p q (b :: rest)
  | _ => false

/-- Whether a text cannot be shown without escapes. -/
def needsEscapes (cs : List Char) : Bool := cs.any fun c => c ≠ '\t' && !isShown c

def plainAllowed (cs : List Char) : Bool :=
  let edge (c : Option Char) := (c.map fun x => x = ' ' || isBreak x).getD false
  !(edge cs.head? || edge cs.getLast? || cs.any isBreak || cs.contains '\t' || needsEscapes cs
    || startsMarked cs || hasMarks false cs.tail
    || cs.take 3 = ['-', '-', '-'] || cs.take 3 = ['.', '.', '.'])

/-- Whether a text may be written in single quotes. -/
def singleAllowed (cs : List Char) : Bool :=
  !(hasPair isBreak (· = ' ') cs || hasPair (· = ' ') isBreak cs || cs.contains '\t'
    || needsEscapes cs)

def blockAllowed (cs : List Char) : Bool :=
  !(cs.getLast? = some ' ' || hasPair (· = ' ') isBreak cs || needsEscapes cs)

/-- The sign that says what becomes of the line breaks at the end of a block. -/
def chompingSign (cs : List Char) : String :=
  match cs.reverse with
  | [] => "-"
  | [c] => if isBreak c then "+" else "-"
  | c :: d :: _ => if !isBreak c then "-" else if isBreak d then "+" else ""

/-- A text as a literal block. A line break at its start takes the place of the one behind the
header. -/
def literalBlock (s : String) : String :=
  let cs := s.toList
  let startsWith (p : Char → Bool) := (cs.head?.map p).getD false
  "|" ++ (if startsWith fun x => x = ' ' || isBreak x then toString textIndent else "")
    ++ chompingSign cs ++ (if startsWith isBreak then "" else "\n")
    ++ String.ofList (indentLines true cs)

/-- A text as a scalar in block style. Only a block that ends its last line has a line break at its
end. -/
def scalarText (s : String) : String :=
  let cs := s.toList
  if cs.contains '\n' then if blockAllowed cs then literalBlock s else doubleQuoted s
  else if !readsAsText s then doubleQuoted s
  else if plainAllowed cs then s
  else if singleAllowed cs then singleQuoted s
  else doubleQuoted s

end Sequencer.Yaml
