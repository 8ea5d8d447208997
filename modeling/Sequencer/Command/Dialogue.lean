import Sequencer.Command.Basic

/-!
# Dialogues

`repl` compiles functions as they are entered. A dialogue takes one line at a time and **reacts** to
it. An entry goes on while its program is incomplete; one whose first line ends in a colon goes on
until a blank line.
-/

namespace Sequencer.Command

open Text

def version : String := "0.1.0"

/-- An entry that has been begun. -/
structure Entry where
  text : List Char
  /-- Whether it goes on until a blank line. -/
  block : Bool
deriving DecidableEq, Repr, Inhabited

structure Dialogue where
  settings : Project.Settings
  /-- The last design that was compiled. -/
  last : Option Design
  /-- The entry so far. -/
  pending : Option Entry

/-- What a dialogue answers to a line. -/
structure Reaction where
  stdout : String
  stderr : String
  /-- How the dialogue goes on, if it does. -/
  next : Option Dialogue

namespace Dialogue

def start (settings : Project.Settings) : Dialogue := ⟨settings, none, none⟩

def banner : String :=
  s!"fsmc {version}. Enter a function; :verilog prints the last one, :quit exits.\n"

def prompt (d : Dialogue) : String := if d.pending.isSome then "  ... " else "fsmc> "

def farewell : String := "\n"

/-- A character in lower case, as far as the words for commands need it. -/
def lower (c : Char) : Char := if c = 'İ' then 'i' else c.toLower

/-- The reaction that prints something and waits for the next entry. -/
def say (d : Dialogue) (stdout stderr : String) : Reaction :=
  ⟨stdout, stderr, some { d with pending := none }⟩

def command (d : Dialogue) (word : String) : Reaction :=
  if word = ":quit" || word = ":q" then ⟨"", "", none⟩
  else if word = ":verilog" || word = ":v" then
    match d.last with
    | none => d.say "nothing compiled yet\n" ""
    | some design =>
      match verilogOf d.settings "" design with
      | .ok text => d.say text ""
      | .error e => d.say "" (e.message ++ "\n")
  else d.say "unknown command. Type :verilog or :quit.\n" ""

def entry (d : Dialogue) (text : List Char) : Reaction :=
  match trim text with
  | [] => d.say "" ""
  | ':' :: rest => d.command (String.ofList (':' :: rest.map lower))
  | _ =>
    match (compileText d.settings text).result with
    | .ok design => { d with last := some design }.say design.listing ""
    | .error e => d.say "" (e.message ++ "\n")

/-- Whether an entry has to go on. -/
def isOpen (e : Entry) : Bool := e.block || (Program.parse e.text).incomplete

def feed (d : Dialogue) (line : List Char) : Reaction :=
  let begun := d.pending.getD ⟨[], false⟩
  if begun.block && (trim line).isEmpty then d.entry begun.text
  else
    let opens := d.pending.isNone && (trim line).getLast? = some ':'
    let e : Entry := ⟨begun.text ++ line ++ ['\n'], begun.block || opens⟩
    if isOpen e then ⟨"", "", some { d with pending := some e }⟩ else d.entry e.text

/-- What a whole dialogue prints to both outputs. -/
def run (d : Dialogue) : List (List Char) → String × String
  | [] => (d.prompt ++ farewell, "")
  | line :: lines =>
    let r := d.feed line
    match r.next with
    | none => (d.prompt ++ r.stdout, r.stderr)
    | some d' =>
      let (out, err) := d'.run lines
      (d.prompt ++ r.stdout ++ out, r.stderr ++ err)

end Dialogue

/-! ### Lines -/

/-- The most bytes that are read as one line. What is left of a longer line counts as the next. -/
def lineBuffer : Nat := 4096

/-- The first line of an input and the rest, if there is any. -/
def nextLine? (bytes : Bytes) : Option (Bytes × Bytes) :=
  if bytes.isEmpty then none
  else
    let line := (bytes.take lineBuffer).takeWhile (· ≠ 0x0a)
    let dropReturn := if line.getLast? = some 0x0d then line.dropLast else line
    if line.length = lineBuffer then some (dropReturn, bytes.drop dropReturn.length)
    else if line.length = bytes.length then some (line, [])
    else some (dropReturn, bytes.drop (line.length + 1))

/-- The lines of an input, at most `fuel` of them. -/
def linesWithin : (fuel : Nat) → Bytes → List (List Char)
  | 0, _ => []
  | fuel + 1, bytes =>
    match nextLine? bytes with
    | none => []
    | some (line, rest) => decode line :: linesWithin fuel rest

def inputLines (bytes : Bytes) : List (List Char) := linesWithin (bytes.length + 1) bytes

/-! ### The command -/

/-- Read the flags of `repl` and the project. -/
def openDialogue (codec : Project.Codec) (args : List String) : Step Dialogue := do
  let (project, _) ← flagsOf "repl" [projectFlag] (fun _ v _ => .ok v) args ""
  let s ← loadProject codec project
  return .start s

/-- The command `repl` on an input that is known from the start. -/
def repl (codec : Project.Codec) (args : List String) (input : Bytes) : Step Unit := do
  let d ← openDialogue codec args
  let (out, err) := d.run (inputLines input)
  Step.print (Dialogue.banner ++ out)
  Step.report err

end Sequencer.Command
