import Sequencer.Command.Basic
import Sequencer.Digest.Stamp

/-!
# Building

`build` compiles a source file into a Verilog file. The output carries the digest of the source and
the settings; if it is there already nothing is done, unless that is forced.
-/

namespace Sequencer.Command

open Text

structure BuildFlags where
  output : String
  project : String
  force : Bool
  verbose : Bool
deriving DecidableEq, Repr, Inhabited

namespace BuildFlags

/-- What is taken without flags. -/
def start : BuildFlags := ⟨"", "", false, false⟩

def flags : List Flag :=
  [⟨"o", .text, "output file (default: <input>.v)"⟩, projectFlag,
    ⟨"force", .switch, "rewrite unchanged output"⟩, ⟨"v", .switch, "trace compilation"⟩]

def note (f : Flag) (value : String) (b : BuildFlags) : Except String BuildFlags :=
  match f.name with
  | "o" => .ok { b with output := value }
  | "config" => .ok { b with project := value }
  | "force" => .ok { b with force := value = "true" }
  | _ => .ok { b with verbose := value = "true" }

end BuildFlags

/-- A path without its extension, which starts at the last dot of its last step. -/
def dropExtension (path : String) : String :=
  let back := path.toList.reverse
  let last := back.takeWhile (· ≠ '/')
  let ext := last.takeWhile (· ≠ '.')
  if ext.length = last.length then path else String.ofList (back.drop (ext.length + 1)).reverse

/-- Where the output goes: where the flags say, or the project, or next to the source. -/
def outputPath (b : BuildFlags) (s : Project.Settings) (input : String) : String :=
  if b.output ≠ "" then b.output
  else if s.output ≠ "" then s.output
  else dropExtension input ++ ".v"

/-- The digest of everything that an output depends on. -/
def digestOf (codec : Project.Codec) (source : Bytes) (s : Project.Settings) : String :=
  Digest.digest [source, codec.write s]

/-- Whether the file at a path is stamped with the digest. -/
def isUpToDate (path digest : String) : Step Bool := do
  match ← Step.tryLoad path with
  | .error _ => return false
  | .ok bytes =>
    match Digest.readStamp bytes with
    | .ok d => return d = digest
    | .error _ => return false

/-- Show a progress message if that is wanted. -/
def trace (verbose : Bool) (message : String) : Step Unit :=
  if verbose then Step.report s!"fsmc: {message}\n" else return ()

def writeOutput (verbose : Bool) (s : Project.Settings) (input output digest : String)
    (source : Bytes) : Step Unit := do
  let c := compileText s (decode source)
  c.messages.forM (trace verbose)
  match c.result with
  | .error e => rejectProgram input e
  | .ok d =>
    match verilogOf s digest d with
    | .error e => throw (.verilog e)
    | .ok text =>
      Step.save output (encode text)
      trace verbose
        s!"wrote {output} ({d.states.length} states, {d.registers.length} registers)"

/-- Build the output of a source file, unless it is up to date. -/
def buildFile (codec : Project.Codec) (b : BuildFlags) (input : String) : Step Unit := do
  let s ← loadProject codec b.project
  let output := outputPath b s input
  let source ← Step.load input
  let digest := digestOf codec source s
  let upToDate ← if b.force then pure false else isUpToDate output digest
  if upToDate then trace b.verbose s!"{output} is up to date"
  else writeOutput b.verbose s input output digest source

def build (codec : Project.Codec) (args : List String) : Step Unit := do
  let (b, args) ← flagsOf "build" BuildFlags.flags BuildFlags.note args .start
  match args with
  | [] => throw (.missingInput "build")
  | input :: _ => buildFile codec b input

end Sequencer.Command
