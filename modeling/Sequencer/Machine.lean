import Sequencer.Circuit.Stmt

/-!
# State machines

A machine is an ordered list of states whose bodies name their successors by label. Realizing it
numbers the states in list order; the first one is the reset state, and of the transitions executed
in a cycle the last wins.
-/

namespace Sequencer

open Circuit

/-- One state: a label of its own and what is done in it. -/
structure State where
  label : StateId
  body : List Stmt
deriving Repr, Inhabited

namespace State

/-- Put a statement in front. A transition placed first is the default that conditional ones
override. -/
def prepend (s : State) (stmt : Stmt) : State := { s with body := stmt :: s.body }

/-- Put statements at the end. -/
def append (s : State) (stmts : List Stmt) : State := { s with body := s.body ++ stmts }

end State

/-- The transition to a state. -/
def goto (target : StateId) : Stmt := .marker (.goto target)

/-- A realized machine. -/
structure Machine where
  states : List State
  /-- The number of the current state. -/
  state : Signal
  /-- The number of the next state. -/
  next : Signal
deriving Repr, Inhabited

namespace Machine

/-- Why a list of states is no machine, or a machine no hardware. -/
inductive Error where
  | missingState (position : Nat)
  | duplicateState (first second : Nat)
  /-- A transition in the numbered state to a state outside the list. -/
  | unknownState (inState : Nat)
deriving DecidableEq, Repr

def Error.message : Error → String
  | missingState i => s!"fsm: state {i} is nil"
  | duplicateState i j => s!"fsm: state listed twice (positions {i} and {j})"
  | unknownState i => s!"state {i}: fsm: transition to a state outside the machine"

def indexIn (states : List State) (label : StateId) : Option Nat :=
  states.findIdx? (·.label = label)

/-- Check that the states are all there and all different, from `seen` on. -/
def collect (seen : List State) : List (Option State) → Except Error (List State)
  | [] => .ok seen
  | none :: _ => .error (.missingState seen.length)
  | some s :: rest =>
    match indexIn seen s.label with
    | some i => .error (.duplicateState i seen.length)
    | none => collect (seen ++ [s]) rest

/-- The least width that holds the numbers of `n` states. -/
def stateBits (n : Nat) : Int := bitsFor (Int64.ofNat (n - 1))

/-- Number the states in list order. -/
def realize (states : List (Option State)) : Fresh (Except Error Machine) :=
  match collect [] states with
  | .error e => return .error e
  | .ok states => do
    let state ← Signal.new "state" (stateBits states.length)
    let next ← Signal.new "next_state" (stateBits states.length)
    return .ok { states, state, next }

def index? (m : Machine) (label : StateId) : Option Nat := indexIn m.states label

/-- The literal that stands for a state in the signals of the machine. -/
def code (m : Machine) (i : Nat) : Literal := .sized (Int64.ofNat i) m.state.bits

/-- Replace a transition by an assignment of the number of its target. -/
def lowerTransition (m : Machine) (inState : Nat) (s : Stmt) : Except Error Stmt :=
  match s with
  | .marker (.goto target) =>
    match m.index? target with
    | some i => .ok (.assign m.next (.ofLiteral (m.code i)))
    | none => .error (.unknownState inState)
  | s => .ok s

def arms (m : Machine) (i : Nat) : List State → Except Error (List (Literal × List Stmt))
  | [] => .ok []
  | s :: rest => do
    let body ← mapLeaves (m.lowerTransition i) s.body
    let rest ← m.arms (i + 1) rest
    return (m.code i, body) :: rest

/-- The hardware of a machine. One without states needs none. -/
def fragment (m : Machine) : Except Error Fragment :=
  if m.states.isEmpty then .ok .empty
  else do
    let arms ← m.arms 0 m.states
    return {
      comb := [.assign m.next (.signal m.state), .select (.signal m.state) arms none]
      sync := [.assign m.state (.signal m.next)] }

/-- A marker with the number of the state it leads to. -/
def describe (m : Machine) : Marker → String
  | .goto target =>
    match m.index? target with
    | some i => s!"goto S{i}"
    | none => "goto <unknown>"
  | marker => marker.bare

end Machine

end Sequencer
