import Sequencer.Handshake
import Sequencer.Simulation.Simulator

/-!
# Test benches

A bench plays the far side of every channel of a design: sinks are always ready, and sources present
the values of a queue one after another until it is empty.
-/

namespace Sequencer.Simulation

open Circuit

/-- A completed handshake. -/
structure Transfer where
  cycle : Nat
  resource : String
  /-- Seen from the design. -/
  direction : Direction
  value : UInt64
deriving DecidableEq, Repr, Inhabited

def Transfer.text (t : Transfer) : String :=
  let arrow := match t.direction with
    | .output => "->"
    | .input => "<-"
  s!"cycle {t.cycle}: {t.resource} {arrow} {t.value.toNat}"

/-- A source and the values it has yet to deliver. -/
structure Feed where
  channel : Channel
  queue : List UInt64
deriving DecidableEq, Repr, Inhabited

/-- The far side of every channel. -/
structure Bench where
  sinks : List Channel
  feeds : List Feed
deriving DecidableEq, Repr, Inhabited

namespace Bench

/-- Put the far sides of some resources together. -/
def ofResources (inputs : List (String × List UInt64)) : List Resource → Except Fault Bench
  | [] => .ok ⟨[], []⟩
  | .device d :: _ => .error (.noModel d.name d.kind)
  | .sink c :: rest => do
    let b ← ofResources inputs rest
    return { b with sinks := c :: b.sinks }
  | .source c :: rest => do
    let b ← ofResources inputs rest
    return { b with feeds := ⟨c, (inputs.lookup c.name).getD []⟩ :: b.feeds }

/-- The far side of some resources, where `inputs` gives the values that sources deliver. -/
def new (resources : List Resource) (inputs : List (String × List UInt64)) :
    Except Fault Bench := do
  let b ← ofResources inputs resources
  match inputs.find? fun i => !resources.any (·.name = i.1) with
  | some i => throw (.unknownInput i.1)
  | none => return b

/-- Present the next value of a source, if there is one. -/
def driveFeed (f : Feed) : Simulator.Action Unit :=
  match f.queue with
  | [] => Simulator.set f.channel.stb 0
  | v :: _ => do
    Simulator.set f.channel.data v
    Simulator.set f.channel.stb 1

/-- Drive every input of the design. -/
def drive (b : Bench) : Simulator.Action Unit := do
  b.sinks.forM fun c => Simulator.set c.ack 1
  b.feeds.forM driveFeed

/-- Whether a handshake completes in this cycle. -/
def strobed (σ : Valuation) (c : Channel) : Bool := σ.get c.stb = 1 && σ.get c.ack = 1

/-- The transfers of some channels in this cycle. -/
def transfersOf (direction : Direction) (cycle : Nat) (σ : Valuation) (cs : List Channel) :
    List Transfer :=
  (cs.filter (strobed σ)).map fun c => ⟨cycle, c.name, direction, σ.get c.data⟩

/-- The transfers that complete in this cycle, those of sinks first. -/
def transfers (b : Bench) (cycle : Nat) (σ : Valuation) : List Transfer :=
  transfersOf .output cycle σ b.sinks ++ transfersOf .input cycle σ (b.feeds.map Feed.channel)

/-- Drop the values that sources deliver in this cycle, up to a source that has none. -/
def advance (σ : Valuation) : List Feed → Option Fault × List Feed
  | [] => (none, [])
  | f :: fs =>
    if strobed σ f.channel then
      match f.queue with
      | [] => (some (.emptyQueue f.channel.name), f :: fs)
      | _ :: queue =>
        let (e, fs) := advance σ fs
        (e, { f with queue } :: fs)
    else
      let (e, fs) := advance σ fs
      (e, f :: fs)

end Bench

/-- A simulator with a bench around it. -/
structure Rig where
  bench : Bench
  sim : Simulator
deriving Repr, Inhabited

namespace Rig

/-- What a run did: its transfers, and why it ended early, if it failed. -/
structure Report where
  transfers : List Transfer
  fault : Option Fault
deriving Repr, Inhabited

/-- Take at most `n` clock edges. A cycle is **idle** when no register changes and no transfer
completes; after an idle cycle nothing can happen any more, and the run ends. -/
def runFor : (n : Nat) → Rig → Report × Rig
  | 0, r => (⟨[], none⟩, r)
  | n + 1, r =>
    let moved := r.bench.transfers r.sim.cycle r.sim.values
    match Bench.advance r.sim.values r.bench.feeds with
    | (some e, feeds) => (⟨[], some e⟩, { r with bench := { r.bench with feeds } })
    | (none, feeds) =>
      let bench := { r.bench with feeds }
      match Simulator.step r.sim with
      | (.error e, sim) => (⟨[], some e⟩, ⟨bench, sim⟩)
      | (.ok changed, sim) =>
        match bench.drive sim with
        | (.error e, sim) => (⟨moved, some e⟩, ⟨bench, sim⟩)
        | (.ok (), sim) =>
          if !changed && moved.isEmpty then (⟨moved, none⟩, ⟨bench, sim⟩)
          else
            let (report, r) := runFor n ⟨bench, sim⟩
            ({ report with transfers := moved ++ report.transfers }, r)

/-- Clock the design until it goes idle or `limit` clock edges have passed since reset. -/
def run (limit : Int) (r : Rig) : Report × Rig := runFor (limit - r.sim.cycle).toNat r

end Rig

end Sequencer.Simulation
