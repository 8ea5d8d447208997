import Sequencer.Lowering.Build
import Sequencer.Program.Basic

/-!
# Input and output

A program talks to the outside through **resources**. Sinks and sources are channels with a
handshake: a transfer takes place in a cycle in which both strobe and acknowledge are raised. Other
devices can bring their own sequences of states.
-/

namespace Sequencer

open Circuit Lowering

/-- The direction of a port, seen from the module. -/
inductive Direction where
  | input
  | output
deriving DecidableEq, Repr, Inhabited

def Direction.text : Direction → String
  | input => "input"
  | output => "output"

/-- A signal that crosses the boundary of the module. -/
structure Port where
  signal : Signal
  direction : Direction
deriving DecidableEq, Repr, Inhabited

/-- The signals of a handshake. -/
structure Channel where
  name : String
  data : Signal
  stb : Signal
  ack : Signal
deriving DecidableEq, Repr, Inhabited

def Channel.new (name : String) (width : Int) : Fresh Channel := do
  return {
    name
    data := ← Signal.new (name ++ "_data") width
    stb := ← Signal.new (name ++ "_stb") 1
    ack := ← Signal.new (name ++ "_ack") 1 }

/-- How the arguments of a call are evaluated in its scope. -/
structure Lowerer where
  value : Program.Expr → Build Value
  register : Program.Expr → Build RegisterId

/-- An endpoint with a sequence of its own. -/
structure Device where
  name : String
  /-- What the device is called where only channels can be used. -/
  kind : String
  ports : List Port
  sequence : Lowerer → List Program.Expr → Build Block

/-- An endpoint that a program can use in a `yield`. -/
inductive Resource where
  | sink (c : Channel)
  | source (c : Channel)
  | device (d : Device)

namespace Resource

/-- The name under which a program calls the resource. -/
def name : Resource → String
  | sink c => c.name
  | source c => c.name
  | device d => d.name

def ports : Resource → List Port
  | sink c => [⟨c.data, .output⟩, ⟨c.stb, .output⟩, ⟨c.ack, .input⟩]
  | source c => [⟨c.data, .input⟩, ⟨c.stb, .input⟩, ⟨c.ack, .output⟩]
  | device d => d.ports

/-- A raised one-bit signal. -/
def high : Value := .ofLiteral (.sized 1 1)

/-- Present a value until it is acknowledged. -/
def send (c : Channel) (v : Value) : Build Block := do
  let label ← Build.ofFresh fresh
  let data ← Build.ofFresh (v.extend c.data.bits)
  let waiting ← Build.ofFresh (Value.newBinary .eq (.signal c.ack) (.ofLiteral (.sized 0 1)))
  return .single ⟨label,
    [.assign c.stb high, .assign c.data data, .branch waiting [goto label] none]⟩

/-- Wait for a value and capture it. -/
def receive (c : Channel) (r : RegisterId) : Build Block := do
  let label ← Build.ofFresh fresh
  let load ← Build.load r (.signal c.data)
  return .single ⟨label,
    [.assign c.ack high, .branch (.signal c.stb) [load] (some [goto label])]⟩

/-- The states of one transaction with the given arguments. -/
def sequence (r : Resource) (lowerer : Lowerer) (args : List Program.Expr) : Build Block :=
  match r with
  | sink c =>
    match args with
    | [arg] => do send c (← lowerer.value arg)
    | _ => throw (.argument c.name args.length 1)
  | source c =>
    match args with
    | [arg] => do receive c (← lowerer.register arg)
    | _ => throw (.argument c.name args.length 1)
  | device d => d.sequence lowerer args

end Resource

end Sequencer
