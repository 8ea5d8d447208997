import Sequencer.Lowering.Stmt
import Sequencer.Program.Parser.Run

/-!
# Designs

A **design** is a function compiled to hardware. `compile` takes a program text to its design; since
register sources are only known when the whole function has been read, loads are resolved at the
end.
-/

namespace Sequencer

open Circuit Lowering

/-- A compiled function. -/
structure Design where
  name : String
  machine : Machine
  bank : Bank
  /-- The registers that the program declares, finalized. -/
  registers : List Register
  /-- The load logic of the registers, then the machine. -/
  fragment : Fragment
  resources : List Resource

namespace Design

/-- The states in machine order, with loads resolved and transitions still by label. -/
def states (d : Design) : List State := d.machine.states

/-- The ports of all resources, in order. -/
def ports (d : Design) : List Port := d.resources.flatMap Resource.ports

def finalizeAll : List RegisterId → Build Unit
  | [] => return ()
  | id :: ids => do
    let w ← get
    match ← Build.ofFresh (w.bank.finalize id) with
    | .error e => throw (.register none e)
    | .ok bank =>
      modify fun w => { w with bank }
      finalizeAll ids

/-- Resolve the loads in the states from number `i` on. -/
def resolveAll (b : Bank) (i : Nat) : List State → Except Fault (List State)
  | [] => .ok []
  | s :: ss =>
    match mapLeaves b.resolveLoad s.body with
    | .error e => .error (.register (some i) e)
    | .ok body => do
      let ss ← resolveAll b (i + 1) ss
      return { s with body } :: ss

def onlyFunction (m : Program.Module) : Except Fault (String × List Program.Stmt) :=
  match m.body with
  | [.funcDef _ name _ _ body] => .ok (name, body)
  | [_] => .error (.unsupported m.pos .notAFunction)
  | body => .error (.unsupported m.pos (.topLevelCount body.length))

/-- The machine of some states, or why there is none. -/
def realize (states : List State) : Build (Machine × Fragment) := do
  match ← Build.ofFresh (Machine.realize (states.map some)) with
  | .error e => throw (.machine e)
  | .ok machine =>
    match machine.fragment with
    | .error e => throw (.machine e)
    | .ok fragment => return (machine, fragment)

/-- The design of a function whose body has been compiled to the given states. -/
def assemble (name : String) (states : List State) (resources : List Resource) : Build Design := do
  let w ← get
  Build.note s!"{name}: {states.length} states, {w.declared.length} registers"
  finalizeAll w.declared
  let w ← get
  let states ← Build.ofExcept (resolveAll w.bank 0 states)
  let (machine, transitions) ← realize states
  let registers := w.declared.filterMap fun id => w.bank.registers[id]?
  let fragment := Fragment.merge (registers.map w.bank.lower ++ [transitions])
  if let some m := fragment.firstMarker? then throw (.unresolved name m)
  return { name, machine, bank := w.bank, registers, fragment, resources }

def ofModule (m : Program.Module) (o : Options) : Build Design := do
  let (name, body) ← Build.ofExcept (onlyFunction m)
  let env ← Build.ofExcept o.env
  let block ← (fun w => let (r, s) := lowerStmts .empty body ⟨env, w⟩; (r, s.shop) : Build Block)
  assemble name block.states o.resources

def registerListing (d : Design) (r : Register) : String :=
  let sel := r.selector.getD default
  s!"register {r.name}: {r.storage.bits} bits, selector {sel.name} ({sel.bits} bits)\n"
    ++ String.join ((d.bank.sourceValues r).mapIdx fun i v => s!"  {i + 1}: {v.text}\n")

/-- The states and registers of a design as text. -/
def listing (d : Design) : String :=
  s!"function {d.name}: {d.states.length} states\n"
    ++ String.join (d.states.mapIdx fun i s =>
      s!"S{i}:\n" ++ Circuit.listing d.machine.describe 1 s.body)
    ++ String.join (d.registers.map d.registerListing)

end Design

/-- Read a program text, or say everything that is wrong with its form. -/
def readProgram (text : List Char) : Except Fault Program.Module :=
  let r := Program.parse text
  if r.diagnostics.isEmpty then .ok r.module else .error (.malformed r.diagnostics)

def compile (text : List Char) (o : Options) : Build Design := do
  let m ← Build.ofExcept (readProgram text)
  Design.ofModule m o

end Sequencer
