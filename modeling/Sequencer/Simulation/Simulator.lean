import Sequencer.Simulation.Eval

/-!
# The simulator

Between clock edges the combinational logic is **settled**: its block is run, each time from the
reset values of the signals it drives, until a pass changes nothing. At a clock edge the other block
is run once on the values before the edge. An action that fails leaves the simulator as it was at
the point of failure.
-/

namespace Sequencer.Simulation

open Circuit

/-- A fragment with the current value of its signals. -/
structure Simulator where
  fragment : Fragment
  /-- The signals that combinational logic drives. -/
  combDriven : List Signal
  /-- The signals that change at clock edges only. -/
  syncDriven : List Signal
  values : Valuation
  /-- The clock edges since the last reset. -/
  cycle : Nat
deriving Repr, Inhabited

namespace Simulator

/-- Something done to a simulator. -/
abbrev Action := ExceptT Fault (StateM Simulator)

/-- The limit on the passes over the combinational logic. -/
def maxPasses : Nat := 16

/-- The reset values of some signals, as writes. -/
def resets (signals : List Signal) : List Write := signals.map fun s => (s, s.resetWord)

/-- The writes of one pass over the combinational logic. A signal that nothing assigns falls back
to its reset value. -/
def combWrites (s : Simulator) : Except Fault (List Write) := do
  let ws ← exec s.values s.fragment.comb
  return resets s.combDriven ++ ws

/-- At most `n` passes over the combinational logic, the last of which has to change nothing. -/
def settleWithin : (n : Nat) → Action Unit
  | 0 => fun s => (.error .unsettled, s)
  | n + 1 => fun s =>
    match s.combWrites with
    | .error e => (.error e, s)
    | .ok ws =>
      if s.values.changes ws then settleWithin n { s with values := s.values.override ws }
      else (.ok (), s)

/-- Let the combinational logic come to rest. -/
def settle : Action Unit := settleWithin maxPasses

/-- Go back to the reset values and to cycle zero. Inputs keep their values. -/
def reset : Action Unit := fun s =>
  settle { s with values := s.values.override (resets s.syncDriven), cycle := 0 }

/-- Drive an input. -/
def set (sig : Signal) (v : UInt64) : Action Unit := fun s =>
  if sig ∈ s.combDriven ∨ sig ∈ s.syncDriven then (.error (.driven sig), s)
  else settle { s with values := s.values.set sig (truncate v sig.bits) }

/-- Take a clock edge. The result tells whether any signal changed at the edge. -/
def step : Action Bool := fun s =>
  match exec s.values s.fragment.sync with
  | .error e => (.error e, s)
  | .ok ws =>
    let changed := s.values.changes ws
    match settle { s with values := s.values.override ws, cycle := s.cycle + 1 } with
    | (.ok (), s) => (.ok changed, s)
    | (.error e, s) => (.error e, s)

def get (s : Simulator) (sig : Signal) : UInt64 := s.values.get sig

def new (f : Fragment) : Except Fault Simulator :=
  match f.firstMarker? with
  | some m => .error (.unresolved m)
  | none =>
    let combDriven := targets f.comb
    let syncDriven := targets f.sync
    match syncDriven.find? (· ∈ combDriven) with
    | some s => .error (.bothDomains s)
    | none =>
      match reset { fragment := f, combDriven, syncDriven, values := .empty, cycle := 0 } with
      | (.ok (), s) => .ok s
      | (.error e, _) => .error e

end Simulator

end Sequencer.Simulation
