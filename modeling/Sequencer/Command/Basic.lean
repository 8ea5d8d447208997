import Sequencer.Command.Disk
import Sequencer.Design
import Sequencer.Project.Basic
import Sequencer.Simulation.Bench
import Sequencer.Verilog.Emit

/-!
# Commands

What the commands have in common: how they fail, how they read their flags, project and source, and
how they compile.
-/

namespace Sequencer.Command

open Circuit Lowering Text

/-! ### Flags -/

/-- What a flag takes. -/
inductive FlagKind where
  /-- Nothing, or a truth value. -/
  | switch
  | text
  | number (default : Int64)
  /-- Something that the command reads itself. -/
  | value
deriving DecidableEq, Repr, Inhabited

structure Flag where
  name : String
  kind : FlagKind
  usage : String
deriving DecidableEq, Repr, Inhabited

/-! ### Help -/

/-- What a flag takes, in its help. -/
def FlagKind.word : FlagKind → String
  | switch => ""
  | text => " string"
  | number _ => " int"
  | value => " value"

/-- The help of a flag. The help of a switch of one letter is on the same line. -/
def Flag.help (f : Flag) : String :=
  let head := "  -" ++ f.name ++ f.kind.word
  let default := match f.kind with
    | .number n => if n = 0 then "" else s!" (default {n.toInt})"
    | _ => ""
  head ++ (if head.length ≤ 4 then "\t" else "\n    \t") ++ f.usage ++ default ++ "\n"

/-- The help of a command, whose flags are listed in the order of their names. -/
def helpOf (command : String) (flags : List Flag) : String :=
  s!"Usage of {command}:\n"
    ++ String.join ((flags.mergeSort fun a b => a.name ≤ b.name).map Flag.help)

/-! ### Reading -/

inductive FlagError where
  | helpRequested
  | badForm (word : String)
  | undefined (name : String)
  | missingValue (name : String)
  | badSwitch (name value : String)
  | badValue (name value why : String)
deriving DecidableEq, Repr, Inhabited

def FlagError.message : FlagError → String
  | helpRequested => "flag: help requested"
  | badForm word => "bad flag syntax: " ++ word
  | undefined name => "flag provided but not defined: -" ++ name
  | missingValue name => "flag needs an argument: -" ++ name
  | badSwitch name value => s!"invalid boolean value {quote value} for -{name}: parse error"
  | badValue name value why => s!"invalid value {quote value} for flag -{name}: {why}"

def truthWords : List (String × Bool) :=
  [("1", true), ("t", true), ("T", true), ("true", true), ("TRUE", true), ("True", true),
    ("0", false), ("f", false), ("F", false), ("false", false), ("FALSE", false), ("False", false)]

def flagNumber (value : String) : Except String Int64 :=
  match Numeral.signed value.toList with
  | .ok n => .ok n
  | .error .malformed => .error "parse error"
  | .error .tooLarge => .error "value out of range"

/-- How a command takes note of a flag with its value. A value can be refused with a reason. -/
abbrev Note (σ : Type) := Flag → String → σ → Except String σ

/-- A word as a flag: its name, and the value behind an equals sign. -/
inductive Word where
  | argument
  | endOfFlags
  | badForm
  | flag (name : String) (value : Option String)
deriving DecidableEq, Repr, Inhabited

def Word.ofChars (cs : List Char) : Word :=
  let split (cs : List Char) : Word :=
    match cs with
    | [] => .badForm
    | '-' :: _ => .badForm
    | '=' :: _ => .badForm
    | _ =>
      let name := cs.takeWhile (· ≠ '=')
      match cs.drop name.length with
      | _ :: value => .flag (String.ofList name) (some (String.ofList value))
      | [] => .flag (String.ofList name) none
  match cs with
  | ['-', '-'] => .endOfFlags
  | '-' :: '-' :: rest => split rest
  | '-' :: c :: rest => split (c :: rest)
  | _ => .argument

def noteSwitch {σ : Type} (note : Note σ) (f : Flag) (value : Option String) (s : σ) :
    Except FlagError σ :=
  let text := value.getD "true"
  match truthWords.lookup text with
  | none => .error (.badSwitch f.name text)
  | some b => (note f (if b then "true" else "false") s).mapError (.badValue f.name text)

/-- Read flags up to the first argument. -/
def readFlags {σ : Type} (flags : List Flag) (note : Note σ) :
    (args : List String) → σ → Except FlagError (σ × List String)
  | [], s => .ok (s, [])
  | word :: args, s =>
    match Word.ofChars word.toList with
    | .argument => .ok (s, word :: args)
    | .endOfFlags => .ok (s, args)
    | .badForm => .error (.badForm word)
    | .flag name value =>
      match flags.find? (·.name = name) with
      | none => .error (if name = "help" || name = "h" then .helpRequested else .undefined name)
      | some f =>
        if f.kind = .switch then do
          let s ← noteSwitch note f value s
          readFlags flags note args s
        else
          match value, args with
          | some v, args => do
            let s ← (note f v s).mapError (.badValue name v)
            readFlags flags note args s
          | none, v :: args => do
            let s ← (note f v s).mapError (.badValue name v)
            readFlags flags note args s
          | none, [] => .error (.missingValue name)

/-! ### Commands -/

inductive Failure where
  | flags (e : FlagError)
  | missingInput (command : String)
  | file (e : FileError)
  | project (path : String) (e : Project.Error)
  | parsing (count : Nat)
  | compilation
  | verilog (e : Verilog.Fault)
  | simulation (e : Simulation.Fault)
  | output (e : FileError)
deriving Repr

def Failure.message : Failure → String
  | flags e => e.message
  | missingInput command => command ++ ": missing input file"
  | file e => e.message
  | project path e => path ++ ": " ++ e.message
  | parsing count => s!"parsing failed with {count} errors"
  | compilation => "compilation failed"
  | verilog e => e.message
  | simulation e => e.message
  | output e => "failed to write output: " ++ e.message

abbrev Step := ExceptT Failure Script

namespace Step

def print (text : String) : Step Unit := Script.print text (.done (.ok ()))

def report (text : String) : Step Unit := Script.report text (.done (.ok ()))

/-- Read a file that may be unusable. -/
def tryLoad (path : String) : Step (Except FileError Bytes) :=
  Script.load path fun r => .done (.ok r)

def load (path : String) : Step Bytes := do
  match ← tryLoad path with
  | .ok content => return content
  | .error e => throw (.file e)

def save (path : String) (content : Bytes) : Step Unit :=
  Script.save path content fun r => .done (r.mapError Failure.output)

end Step

/-- Read the flags of a command. If that fails the reason and the help are shown. -/
def flagsOf {σ : Type} (command : String) (flags : List Flag) (note : Note σ) (args : List String)
    (s : σ) : Step (σ × List String) :=
  match readFlags flags note args s with
  | .ok r => return r
  | .error e => do
    Step.report ((if e = .helpRequested then "" else e.message ++ "\n") ++ helpOf command flags)
    throw (.flags e)

def projectFlag : Flag := ⟨"config", .text, "project file"⟩

/-- The settings in a project file. Without one there are none. -/
def loadProject (codec : Project.Codec) (path : String) : Step Project.Settings := do
  if path = "" then return .empty
  let bytes ← Step.load path
  match codec.load bytes with
  | .ok s => return s
  | .error e => throw (.project path e)

/-- The result of a compilation, and its progress messages. -/
structure Compiled where
  result : Except Fault Design
  messages : List String

/-- Take a program that may have been read further, in the scope of a project. -/
def compileWith (s : Project.Settings) (f : Options → Build Design) : Compiled :=
  let (options, supply) := s.options firstTag
  let (result, shop) := f options (.new supply)
  ⟨result, shop.messages⟩

/-- Compile a program text in the scope of a project. -/
def compileText (s : Project.Settings) (text : List Char) : Compiled :=
  compileWith s (Sequencer.compile text)

/-- Show what is wrong with a file, and fail. -/
def rejectProgram {α : Type} (path : String) (e : Fault) : Step α := do
  match e with
  | .malformed ds =>
    Step.report (String.join (ds.map fun d => s!"{path}:{d.message}\n"))
    throw (.parsing ds.length)
  | _ =>
    Step.report s!"{path}:{e.message}\n"
    throw .compilation

/-- A design as Verilog. The project can name the module. -/
def verilogOf (s : Project.Settings) (digest : String) (d : Design) :
    Except Verilog.Fault String := do
  let name := if s.module = "" then d.name else s.module
  let m ← Verilog.ofFragment name digest d.ports d.fragment
  return m.render

end Sequencer.Command
