import Sequencer.Command.Top

/-!
# The program

Runs scripts and dialogues on the real files, inputs and outputs.
-/

namespace Sequencer.Command

def longNameCode : UInt32 := 36

/-- What stands behind a failed use of a file. -/
def problemOf (e : IO.Error) : FileProblem :=
  match e with
  | .noFileOrDirectory .. | .noSuchThing .. => .notFound
  | .inappropriateType .. => .isDirectory
  | .resourceExhausted .. => .noSpace
  | .invalidArgument _ code _ => if code = longNameCode then .nameTooLong else .invalidPath
  | _ => .notDirectory

/-- Use a file. Only the given action notices a directory, and only writing a lack of room. -/
def useFile {α : Type} (action path : String) (x : IO α) : IO (Except FileError α) := do
  try
    return .ok (← x)
  catch e =>
    let problem := problemOf e
    let action := match problem with
      | .isDirectory => action
      | .noSpace => "write"
      | _ => "open"
    return .error ⟨action, path, problem⟩

def Script.perform {α : Type} : Script α → IO α
  | .done a => return a
  | .load path next => do
    let r ← useFile "read" path (IO.FS.readBinFile path)
    (next (r.map fun content => content.toList)).perform
  | .save path content next => do
    let r ← useFile "open" path (IO.FS.writeBinFile path ⟨content.toArray⟩)
    (next r).perform
  | .print text next => do
    IO.print text
    next.perform
  | .report text next => do
    IO.eprint text
    next.perform

/-- Hold a dialogue until it ends. -/
partial def Dialogue.hold (d : Dialogue) : IO Unit := do
  IO.print d.prompt
  let line ← (← IO.getStdin).getLine
  match inputLines (Text.encode line) with
  | [] => IO.print Dialogue.farewell
  | line :: _ =>
    let r := d.feed line
    IO.print r.stdout
    IO.eprint r.stderr
    match r.next with
    | none => return ()
    | some d => d.hold

def converse (args : List String) : IO UInt32 := do
  match ← (openDialogue Project.yaml args).run.perform with
  | .ok d =>
    IO.print Dialogue.banner
    d.hold
    return 0
  | .error e =>
    IO.eprint s!"error: {e.message}\n"
    return 1

end Sequencer.Command

open Sequencer.Command in
def main (args : List String) : IO UInt32 :=
  match Request.ofArgs Sequencer.Project.yaml args with
  | .dialogue args => converse args
  | r => (answer r).perform
