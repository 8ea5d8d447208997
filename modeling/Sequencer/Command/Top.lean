import Sequencer.Command.Build
import Sequencer.Command.Dialogue
import Sequencer.Command.Inspect
import Sequencer.Project.Reader

/-!
# The command line

The first word is the command, the others are for it. A command that fails says why and ends with
status 1.
-/

namespace Sequencer.Command

open Text

/-- The overview of all commands. -/
def usage : String := "fsmc compiles a restricted Python function into an FSM in Verilog

Usage:
  fsmc build [-o out.v] [-config fsmc.yaml] [-force] [-v] <file.py>
  fsmc dump [-config fsmc.yaml] <file.py>
  fsmc sim [-config fsmc.yaml] [-cycles N] [-input rx=1,2,3] <file.py>
  fsmc repl [-config fsmc.yaml]

Commands:
  build    Compile a source file into a Verilog module
  dump     Print the syntax tree, abstract states and registers
  sim      Run the compiled machine against always-ready I/O
  repl     Compile functions interactively
  version  Print the fsmc version

Flags (build):
  -o       Output file (default: project output, else <input>.v)
  -config  YAML project file with scope constants and I/O resources
  -force   Rewrite the output even if its source digest is unchanged
  -v       Trace compilation to stderr
"

inductive Request where
  | overview (status : UInt32)
  | version
  | unknown (word : String)
  /-- A command that only needs files. -/
  | work (step : Step Unit)
  | dialogue (args : List String)

/-- What the words of a command line ask for. -/
def Request.ofArgs (codec : Project.Codec) : List String → Request
  | [] => .overview 1
  | word :: args =>
    match word with
    | "build" => .work (build codec args)
    | "dump" => .work (dump codec args)
    | "sim" => .work (sim codec args)
    | "repl" => .dialogue args
    | "help" | "-h" | "--help" => .overview 0
    | "version" | "--version" => .version
    | _ => .unknown word

/-- Run a step and say why it fails, if it does. The result is the exit status. -/
def conclude (s : Step Unit) : Script UInt32 := do
  match ← s.run with
  | .ok () => return 0
  | .error e => .report s!"error: {e.message}\n" (.done 1)

/-- Answer a request that does not need a dialogue. -/
def answer : Request → Script UInt32
  | .overview status => .print usage (.done status)
  | .version => .print s!"fsmc {version}\n" (.done 0)
  | .unknown word => .report s!"unknown command: {word}\n" (.print usage (.done 1))
  | .work s => conclude s
  | .dialogue _ => .done 0

/-- Run a command line on an input that is known from the start. The result is the exit status. -/
def runWith (codec : Project.Codec) (args : List String) (input : Bytes) : Script UInt32 :=
  match Request.ofArgs codec args with
  | .dialogue args => conclude (repl codec args input)
  | r => answer r

/-- Run a command line with project files in YAML. -/
def runArgs (args : List String) (input : Bytes) : Script UInt32 := runWith Project.yaml args input

end Sequencer.Command
