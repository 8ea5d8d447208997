import Sequencer.Diagnostic

/-!
# From text to tokens

A **lexer** holds the unread part of a program text together with what the part already read has
left open. `Lexer.run` delivers every token before the end of the text. A NUL ends the text, and a
word or a number that runs up to a NUL takes what follows into its spelling.
-/

namespace Sequencer

/-! ### Cursors -/

/-- The unread part of a text and the position of its first character. At the end of the text the
position is that of the last character, or column zero of a new line after a line break. -/
structure Cursor where
  rest : List Char
  pos : Position
deriving DecidableEq, Repr

namespace Cursor

/-- The position of the character after `c`, or of the end if none follows. -/
def after (p : Position) (c : Char) (rest : List Char) : Position :=
  let p := if c = '\n' then ⟨p.line + 1, 0⟩ else p
  if rest.isEmpty then p else ⟨p.line, p.column + 1⟩

def start (text : List Char) : Cursor :=
  ⟨text, if text.isEmpty then ⟨1, 0⟩ else ⟨1, 1⟩⟩

def advance : Cursor → Cursor
  | ⟨[], p⟩ => ⟨[], p⟩
  | ⟨c :: rest, p⟩ => ⟨rest, after p c rest⟩

def advanceBy (c : Cursor) : Nat → Cursor
  | 0 => c
  | n + 1 => c.advance.advanceBy n

@[simp] theorem rest_advance (c : Cursor) : c.advance.rest = c.rest.tail := by
  rcases c with ⟨_ | _, _⟩ <;> rfl

@[simp] theorem rest_advanceBy (c : Cursor) (n : Nat) : (c.advanceBy n).rest = c.rest.drop n := by
  induction n generalizing c with
  | zero => rfl
  | succ n ih => simp [advanceBy, ih, List.drop_tail]

/-- The characters passed and the one in front are part of the text. -/
theorem length_lt_of_rest_advanceBy {c : Cursor} {n : Nat} {x : Char} {xs : List Char}
    (h : (c.advanceBy n).rest = x :: xs) : xs.length + n < c.rest.length := by
  have := congrArg List.length h
  simp only [rest_advanceBy, List.length_drop, List.length_cons] at this
  omega

end Cursor

namespace Token

/-! ### Character classes -/

/-- The character that ends a text. -/
def nul : Char := Char.ofNat 0

def isDigit (c : Char) : Bool := '0' ≤ c && c ≤ '9'

def isHexDigit (c : Char) : Bool :=
  isDigit c || ('a' ≤ c && c ≤ 'f') || ('A' ≤ c && c ≤ 'F')

def isWordStart (c : Char) : Bool := c = '_' || Text.isLetter c

def isWordChar (c : Char) : Bool := isWordStart c || isDigit c

/-- White space within a line: blank, tab, carriage return, form feed. -/
def isSpace (c : Char) : Bool := c = ' ' || c = '\t' || c = '\r' || c = Char.ofNat 12

/-- The letter between `0` and the digits of a literal that is not decimal. -/
def isBaseMark (c : Char) : Bool :=
  c = 'x' || c = 'X' || c = 'o' || c = 'O' || c = 'b' || c = 'B'

/-! ### Lengths -/

/-- The number of characters before the next token or line break: white space, a joined line end
(a backslash right before a line break), and a comment. -/
def gap : List Char → Nat
  | '\\' :: '\n' :: cs => gap cs + 2
  | c :: cs =>
    if isSpace c then gap cs + 1
    else if c = '#' then (cs.takeWhile fun d => d ≠ '\n' && d ≠ nul).length + 1
    else 0
  | [] => 0

/-- The width of the white space at the start of a line. A tab goes to the next multiple of eight;
carriage returns and form feeds have no width. -/
def indentWidth (blanks : List Char) : Nat :=
  blanks.foldl (fun w c => if c = ' ' then w + 1 else if c = '\t' then (w / 8 + 1) * 8 else w) 0

/-- The number of characters of a number literal after its first digit `c`. -/
def numberTail (c : Char) (cs : List Char) : Nat :=
  match cs with
  | m :: ds =>
    if c = '0' && isBaseMark m then (ds.takeWhile fun d => isHexDigit d || d = '_').length + 1
    else (cs.takeWhile fun d => isDigit d || d = '_').length
  | [] => 0

/-- The operator or bracket that starts with `c`, if any, and the number of its characters after
the first. The longest operator wins. -/
def symbol? (c : Char) (cs : List Char) : Option (Kind × Nat) :=
  match c with
  | ',' => some (.comma, 0)
  | '.' => some (.dot, 0)
  | ':' => some (.colon, 0)
  | '(' => some (.lparen, 0)
  | ')' => some (.rparen, 0)
  | '[' => some (.lbracket, 0)
  | ']' => some (.rbracket, 0)
  | '+' => some (.plus, 0)
  | '-' => some (.minus, 0)
  | '*' => some (.star, 0)
  | '/' => some (.slash, 0)
  | '%' => some (.percent, 0)
  | '|' => some (.pipe, 0)
  | '^' => some (.caret, 0)
  | '&' => some (.amp, 0)
  | '~' => some (.tilde, 0)
  | '!' => if cs.head? = some '=' then some (.notEq, 1) else none
  | '=' => if cs.head? = some '=' then some (.eq, 1) else some (.assign, 0)
  | '<' =>
    if cs.head? = some '=' then some (.ltEq, 1)
    else if cs.head? = some '<' then some (.shl, 1)
    else some (.lt, 0)
  | '>' =>
    if cs.head? = some '=' then some (.gtEq, 1)
    else if cs.head? = some '>' then some (.shr, 1)
    else some (.gt, 0)
  | _ => none

/-! ### Single tokens -/

/-- The spelling of a word or number of `n` characters at the front of `text`. One that runs up to
a NUL takes the rest of the text along. -/
def run (text : List Char) (n : Nat) : List Char :=
  if (text.drop n).head? = some nul then text else text.take n

/-- The token at the front of the text `c :: cs`, with the number of its characters after the
first. -/
def front (pos : Position) (c : Char) (cs : List Char) : Token × Nat :=
  if isDigit c then
    let n := numberTail c cs
    (⟨.int, String.ofList (run (c :: cs) (n + 1)), pos⟩, n)
  else if isWordStart c then
    let n := (cs.takeWhile isWordChar).length
    let word := String.ofList (run (c :: cs) (n + 1))
    (⟨kindOfWord word, word, pos⟩, n)
  else
    match symbol? c cs with
    | some (kind, n) => (⟨kind, String.ofList ((c :: cs).take (n + 1)), pos⟩, n)
    | none => (⟨.illegal, String.ofList [c], pos⟩, 0)

def complaints (t : Token) : List Diagnostic :=
  if t.kind = .illegal then [⟨t.pos, .unexpectedCharacter t.lexeme⟩] else []

end Token

/-! ### The whole text -/

/-- The tokens of a text before its end, the complaints about them, and the position of the
end. -/
structure Lexed where
  tokens : List Token
  diagnostics : List Diagnostic
  finish : Position
deriving DecidableEq, Repr

def Lexed.cons (tokens : List Token) (diagnostics : List Diagnostic) (l : Lexed) : Lexed :=
  { l with tokens := tokens ++ l.tokens, diagnostics := diagnostics ++ l.diagnostics }

/-- A text that is being read. -/
structure Lexer where
  cursor : Cursor
  /-- The widths of the open indented blocks, innermost first. -/
  indents : List Nat
  /-- The number of unclosed brackets. -/
  depth : Nat
  /-- The kind of the last token, initially as after a line end. -/
  last : Token.Kind
  /-- Whether the indentation of the current line is still to be looked at. -/
  lineStart : Bool
deriving DecidableEq, Repr

namespace Lexer

def start (text : List Char) : Lexer :=
  { cursor := .start text, indents := [], depth := 0, last := .newline, lineStart := true }

/-- The indentation tokens of a line of the given width at `pos`, with the blocks then open. -/
def indentTokens (indents : List Nat) (width : Nat) (pos : Position) :
    List Token × List Diagnostic × List Nat :=
  if indents.headD 0 < width then ([⟨.indent, "", pos⟩], [], width :: indents)
  else
    let open_ := indents.dropWhile (width < ·)
    let closed := (indents.takeWhile (width < ·)).map fun _ => (⟨.dedent, "", pos⟩ : Token)
    if open_.headD 0 = width then (closed, [], open_)
    else (closed ++ [⟨.illegal, "", pos⟩], [⟨pos, .unalignedDedent⟩], open_)

/-- The tokens at the end of the text: one that ends an unfinished line, then one for each open
block. Inside brackets the text is cut short and nothing is closed. -/
def finalTokens (s : Lexer) (pos : Position) : List Token :=
  if s.depth > 0 then []
  else
    (if s.last = .newline then [] else [⟨.newline, "", pos⟩])
      ++ s.indents.map fun _ => ⟨.dedent, "", pos⟩

def depthAfter (depth : Nat) : Token.Kind → Nat
  | .lparen | .lbracket => depth + 1
  | .rparen | .rbracket => depth - 1
  | _ => depth

/-- The kind of the last of some tokens read after one of kind `last`. -/
def lastKind (last : Token.Kind) (tokens : List Token) : Token.Kind :=
  (tokens.getLast?.map Token.kind).getD last

/-- A line is blank if nothing but a comment or the end of the text stands after its
indentation. -/
def isBlankAt (rest : List Char) : Bool :=
  match rest with
  | [] => true
  | c :: _ => c = '\n' || c = '#' || c = Token.nul

/-- Read the rest of the text. -/
def run (s : Lexer) : Lexed :=
  if s.lineStart then
    let blanks := s.cursor.rest.takeWhile Token.isSpace
    let cursor := s.cursor.advanceBy blanks.length
    if isBlankAt cursor.rest then run { s with cursor, lineStart := false }
    else
      let (tokens, diagnostics, indents) :=
        indentTokens s.indents (Token.indentWidth blanks) cursor.pos
      (run { s with cursor, indents, lineStart := false, last := lastKind s.last tokens }).cons
        tokens diagnostics
  else
    let cursor := s.cursor.advanceBy (Token.gap s.cursor.rest)
    match h : cursor.rest with
    | [] => ⟨s.finalTokens cursor.pos, [], cursor.pos⟩
    | c :: cs =>
      have : cs.length + Token.gap s.cursor.rest < s.cursor.rest.length :=
        Cursor.length_lt_of_rest_advanceBy h
      if c = Token.nul then ⟨s.finalTokens cursor.pos, [], cursor.pos⟩
      else if c = '\n' then
        if s.depth > 0 then run { s with cursor := cursor.advance }
        else if s.last = .newline then run { s with cursor := cursor.advance, lineStart := true }
        else
          (run { s with cursor := cursor.advance, lineStart := true, last := .newline }).cons
            [⟨.newline, "\n", cursor.pos⟩] []
      else
        let (token, n) := Token.front cursor.pos c cs
        (run { s with
          cursor := cursor.advanceBy (n + 1)
          depth := depthAfter s.depth token.kind
          last := token.kind }).cons [token] token.complaints
termination_by 2 * s.cursor.rest.length + (if s.lineStart then 1 else 0)
decreasing_by
  all_goals simp_all only [Cursor.rest_advanceBy, Cursor.rest_advance, List.length_drop,
    List.length_tail, if_true, if_false, Bool.false_eq_true, Bool.not_eq_true]
  all_goals omega

end Lexer

/-- The tokens of a program text. -/
def lex (text : List Char) : Lexed := (Lexer.start text).run

end Sequencer
