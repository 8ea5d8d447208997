import Sequencer.Command.Basic
import Sequencer.Program.Outline

/-!
# Looking at a program

`dump` prints the tree of a program and its design; `sim` runs the design against resources that are
always ready.
-/

namespace Sequencer.Command

open Circuit Lowering Simulation Text

/-! ### Input values -/

/-- The values under each name, the names in order of first sight. -/
abbrev Inputs := List (String × List UInt64)

/-- Why a text gives no values. -/
inductive InputError where
  | badForm (text : String)
  | badValue (name value : String) (why : Numeral.Error)
deriving DecidableEq, Repr

def InputError.message : InputError → String
  | badForm text => "expected name=v1,v2,..., got " ++ quote text
  | badValue name value why =>
    s!"input {name}: strconv.ParseUint: parsing {quote value}: {why.message}"

namespace Inputs

def add (name : String) (v : UInt64) : Inputs → Inputs
  | [] => [(name, [v])]
  | (n, vs) :: rest => if n = name then (n, vs ++ [v]) :: rest else (n, vs) :: add name v rest

/-- Add the values of some fields, up to one that is none. Empty fields are passed over. -/
def addFields (name : String) : List (List Char) → Inputs → Option InputError × Inputs
  | [], i => (none, i)
  | field :: fields, i =>
    let value := trim field
    if value.isEmpty then addFields name fields i
    else
      match Numeral.unsigned value with
      | .error why => (some (.badValue name (String.ofList value) why), i)
      | .ok v => addFields name fields (i.add name (UInt64.ofNat v))

def splitCommas (cs : List Char) : List (List Char) :=
  cs.foldr (fun c acc =>
    match acc with
    | [] => [[c]]
    | part :: rest => if c = ',' then [] :: part :: rest else (c :: part) :: rest) [[]]

/-- Add the values in a text. Values in front of a bad one are kept. -/
def set (text : String) (i : Inputs) : Option InputError × Inputs :=
  let cs := text.toList
  let name := cs.takeWhile (· ≠ '=')
  match cs.drop name.length with
  | [] => (some (.badForm text), i)
  | _ :: list =>
    if name.isEmpty then (some (.badForm text), i)
    else addFields (String.ofList name) (splitCommas list) i

/-- All values as one text, the names in order. -/
def text (i : Inputs) : String :=
  " ".intercalate ((i.mergeSort fun a b => a.1 ≤ b.1).map fun (name, vs) =>
    name ++ "=" ++ ",".intercalate (vs.map fun v => toString v.toNat))

end Inputs

variable (codec : Project.Codec)

/-! ### Dumping -/

/-- Print the tree of a program, then its design. -/
def dumpFile (project input : String) : Step Unit := do
  let s ← loadProject codec project
  let source ← Step.load input
  match readProgram (decode source) with
  | .error e => rejectProgram input e
  | .ok m =>
    Step.print m.outline
    match (compileWith s (Design.ofModule m)).result with
    | .error e => rejectProgram input e
    | .ok d => Step.print ("\n" ++ d.listing)

def dump (args : List String) : Step Unit := do
  let (project, args) ← flagsOf "dump" [projectFlag] (fun _ v _ => .ok v) args ""
  match args with
  | [] => throw (.missingInput "dump")
  | input :: _ => dumpFile codec project input

/-! ### Simulating -/

structure SimFlags where
  project : String
  cycles : Int64
  inputs : Inputs
deriving DecidableEq, Repr, Inhabited

namespace SimFlags

/-- How many cycles a run takes at most if nothing is said. -/
def defaultCycles : Int64 := 1000

/-- What is taken without flags. -/
def start : SimFlags := ⟨"", defaultCycles, []⟩

def flags : List Flag :=
  [projectFlag, ⟨"cycles", .number defaultCycles, "maximum number of clock cycles"⟩,
    ⟨"input", .value, "values delivered by a source, as name=v1,v2,... (repeatable)"⟩]

def note (f : Flag) (value : String) (s : SimFlags) : Except String SimFlags :=
  match f.name with
  | "config" => .ok { s with project := value }
  | "cycles" => (flagNumber value).map fun cycles => { s with cycles }
  | _ =>
    match s.inputs.set value with
    | (none, inputs) => .ok { s with inputs }
    | (some e, _) => .error e.message

end SimFlags

/-- The design of a fragment with a bench around it, ready to run. -/
def setUp (d : Design) (inputs : Inputs) : Except Simulation.Fault Rig := do
  let sim ← Simulator.new d.fragment
  let bench ← Bench.new d.resources inputs
  match bench.drive sim with
  | (.ok (), sim) => return ⟨bench, sim⟩
  | (.error e, _) => throw e

/-- How a run ended: after how many cycles, in which state, and with which registers. -/
def summary (d : Design) (limit : Int) (sim : Simulator) : String :=
  let verb := if (sim.cycle : Int) < limit then "idle" else "stopped"
  let state := (sim.get d.machine.state).toNat
  s!"{verb} after {sim.cycle} cycles in state S{state}\n"
    ++ String.join (d.registers.map fun r =>
      let value := (sim.get r.storage).toNat
      s!"  {r.name} = {value}\n")

def simulate (d : Design) (inputs : Inputs) (limit : Int) : Step Unit := do
  match setUp d inputs with
  | .error e => throw (.simulation e)
  | .ok rig =>
    let (r, rig) := rig.run limit
    Step.print (String.join (r.transfers.map (·.text ++ "\n")))
    match r.fault with
    | some e => throw (.simulation e)
    | none => Step.print (summary d limit rig.sim)

/-- Compile a source file and run its design. -/
def simFile (f : SimFlags) (input : String) : Step Unit := do
  let s ← loadProject codec f.project
  let source ← Step.load input
  match (compileText s (decode source)).result with
  | .error e => rejectProgram input e
  | .ok d => simulate d f.inputs f.cycles.toInt

def sim (args : List String) : Step Unit := do
  let (f, args) ← flagsOf "sim" SimFlags.flags SimFlags.note args .start
  match args with
  | [] => throw (.missingInput "sim")
  | input :: _ => simFile codec f input

end Sequencer.Command
