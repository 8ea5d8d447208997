import Sequencer.Diagnostic
import Sequencer.Machine
import Sequencer.Register

/-!
# Designs under construction

What has been made so far while a program is compiled. All of it survives a fault, so that the
progress messages can be shown.
-/

namespace Sequencer.Lowering

open Circuit

/-! ### Faults -/

/-- A construct outside the part of the language that can become hardware. -/
inductive Unsupported where
  | topLevelCount (statements : Nat)
  | notAFunction
  | exprForm (description : String)
  | intrinsicAsValue (intrinsic : String)
  | resourceAsValue (name : String)
  | operator (name : String)
  | callOf (description : String)
  | resourceOutsideYield (name : String)
  | callTo (name : String)
  | registerInExpression
  | registerWidth (width : Int)
  | sliceBounds (lo hi width : Int)
  | intrinsic (name : String)
  | nameNotConstant (name : String)
  | exprNotConstant (description : String)
  | shiftCount (count : Int)
  | nestedFunction
  | returnStatement
  | passStatement
  | breakStatement
  | continueStatement
  | assignmentTo (description : String)
  | storeInto (description : String)
  | notARegister (name : String)
  | emptyBranch
  | emptyLoop
  | loopTarget (description : String)
  | zeroStep
  | tooManyIterations (limit : Nat)
  | iterationOver (description : String)
  | expressionStatement
  | yieldOfOther
  | yieldOfCallTo (description : String)
  | notAResource (name : String)
  | registerNameExpected (description : String)
deriving DecidableEq, Repr

def Unsupported.message : Unsupported → String
  | topLevelCount n =>
    s!"module with {n} top-level statements; exactly one function definition is required"
  | notAFunction => "top-level statement other than a function definition"
  | exprForm d => d ++ " in expression"
  | intrinsicAsValue i => s!"intrinsic {i} used as a value"
  | resourceAsValue name => s!"I/O resource {Text.quote name} used as a value"
  | operator name => "operator " ++ name
  | callOf d => "call of " ++ d
  | resourceOutsideYield name =>
    s!"I/O resource {Text.quote name} called outside a yield statement"
  | callTo name => "call to " ++ Text.quote name
  | registerInExpression => "Register() must be assigned directly to one or more names"
  | registerWidth w => s!"register width {w}"
  | sliceBounds lo hi w => s!"bit slice [{lo}:{hi}] of a {w}-bit value"
  | intrinsic name => "intrinsic " ++ name
  | nameNotConstant name => s!"{Text.quote name} is not a compile-time integer"
  | exprNotConstant d => d ++ " is not a compile-time integer"
  | shiftCount n => s!"shift count {n}"
  | nestedFunction => "nested function definition"
  | returnStatement => "return statement"
  | passStatement => "pass statement"
  | breakStatement => "break statement"
  | continueStatement => "continue statement"
  | assignmentTo d => s!"assignment to {d}: only register.store can be assigned"
  | storeInto d => "store into " ++ d
  | notARegister name => s!"{Text.quote name} is not a register"
  | emptyBranch => "if branch without any state-producing statement"
  | emptyLoop => "while body without any state-producing statement"
  | loopTarget d => "for loop target " ++ d
  | zeroStep => "range() step of zero"
  | tooManyIterations limit => s!"loop unrolls to more than {limit} iterations"
  | iterationOver d =>
    s!"iteration over {d}: only list literals and range() can be unrolled"
  | expressionStatement => "expression statement"
  | yieldOfOther => "yield of something other than an I/O call"
  | yieldOfCallTo d => "yield of a call to " ++ d
  | notAResource name => s!"{Text.quote name} is not an I/O resource"
  | registerNameExpected d => d ++ " where a register name is expected"

/-- How many arguments a call takes. -/
inductive Arity where
  | exactly (count : Int)
  | twoOrThree
  | oneToThree
deriving DecidableEq, Repr

def Arity.message : Arity → String
  | exactly n => if n = 1 then "exactly 1 argument" else s!"exactly {n} arguments"
  | twoOrThree => "2 or 3 arguments"
  | oneToThree => "1 to 3 arguments"

/-- What is wrong with a name. -/
inductive ScopeIssue where
  | notDefined
  | loopVariable
  | alreadyBound
deriving DecidableEq, Repr

/-- What is wrong with a name, in words that follow it. -/
def ScopeIssue.message : ScopeIssue → String
  | notDefined => "is not defined"
  | loopVariable => "is a loop variable and cannot be reassigned"
  | alreadyBound => "is already bound and cannot be a loop variable"

/-- Why a program is not compiled. -/
inductive Fault where
  /-- The text is malformed. -/
  | malformed (diagnostics : List Diagnostic)
  | unsupported (pos : Position) (what : Unsupported)
  | arity (pos : Position) (func : String) (given : Nat) (wanted : Arity)
  | scope (pos : Position) (name : String) (issue : ScopeIssue)
  /-- A name of the enclosing scope is bound more than once. -/
  | boundTwice (name : String)
  /-- A resource was called with the wrong number of arguments. -/
  | argument (resource : String) (given : Nat) (wanted : Int)
  /-- A resource refused a call for a reason of its own. -/
  | device (message : String)
  /-- An operation on a register was refused, perhaps while resolving a numbered state. -/
  | register (inState : Option Nat) (error : Register.Error)
  | machine (error : Machine.Error)
  /-- A marker is left in the hardware of a function. -/
  | unresolved (function : String) (marker : Marker)
  /-- A value without a width was to be sliced. -/
  | unmeasurable
  /-- A loop variable other than the innermost was to be unbound. -/
  | unbalanced (name : String)
deriving DecidableEq, Repr

def Fault.message : Fault → String
  | malformed ds => "\n".intercalate (ds.map Diagnostic.message)
  | unsupported pos what => s!"{pos.toText}: unsupported: {what.message}"
  | arity pos func given wanted =>
    s!"{pos.toText}: {func}() takes {wanted.message} ({given} given)"
  | scope pos name issue => s!"{pos.toText}: {Text.quote name} {issue.message}"
  | boundTwice name => s!"scope: {Text.quote name} is bound more than once"
  | argument resource given wanted =>
    s!"{resource}() takes exactly {wanted} argument(s) ({given} given)"
  | device message => message
  | register none e => e.message
  | register (some i) e => s!"state {i}: {e.message}"
  | machine e => e.message
  | unresolved function m => s!"compile {function}: {unresolvedMessage m}"
  | unmeasurable => "value without a width"
  | unbalanced name => "compiler: unbalanced loop variable " ++ Text.quote name

/-! ### Building -/

/-- What has been made so far. -/
structure Workshop where
  /-- The next unused tag. -/
  supply : Nat
  bank : Bank
  /-- The registers that the program declares, in order. -/
  declared : List RegisterId
  /-- The progress messages, newest first. -/
  log : List String
deriving Repr, Inhabited

/-- An empty workshop that hands out tags from `supply` on. -/
def Workshop.new (supply : Nat) : Workshop :=
  { supply, bank := .empty, declared := [], log := [] }

def Workshop.messages (w : Workshop) : List String := w.log.reverse

/-- A construction step, which can fail and changes the workshop. -/
abbrev Build := ExceptT Fault (StateM Workshop)

namespace Build

/-- A step that only takes tags. -/
def ofFresh {α : Type} (x : Fresh α) : Build α :=
  fun w => let (a, supply) := x w.supply; (.ok a, { w with supply })

/-- A step that only may fail. -/
def ofExcept {α : Type} (x : Except Fault α) : Build α := fun w => (x, w)

/-- A step on the registers. -/
def onBank {α : Type} (f : Bank → Except Register.Error (α × Bank)) : Build α :=
  fun w =>
    match f w.bank with
    | .ok (a, bank) => (.ok a, { w with bank })
    | .error e => (.error (.register none e), w)

def note (message : String) : Build Unit := fun w => (.ok (), { w with log := message :: w.log })

def newRegister (name : String) (width : Int) (ownPool : Option Pool) : Build RegisterId := do
  let r ← ofFresh (Register.new name width ownPool)
  onBank fun b => .ok (b.add r)

def register (id : RegisterId) : Build Register :=
  onBank fun b => (b.get id).map (·, b)

/-- Record a load of a value into a register. -/
def load (id : RegisterId) (v : Value) : Build Stmt := do
  return .marker (← onBank fun b => b.load id v)

def newState (body : List Stmt) : Build State := do
  return ⟨← ofFresh fresh, body⟩

end Build

/-- The states that a piece of program compiles to, in order, and those of them from which control
goes on to whatever follows. The first state is where control enters. -/
structure Block where
  states : List State
  exits : List StateId
deriving Repr, Inhabited

namespace Block

def empty : Block := ⟨[], []⟩

/-- One state, from which control goes on. -/
def single (s : State) : Block := ⟨[s], [s.label]⟩

/-- The label of the first state. -/
def entry? (b : Block) : Option StateId := b.states.head?.map State.label

/-- Put a transition to `target` in front of the body of every listed state. It is the default
that the transitions already there override. -/
def connect (states : List State) (exits : List StateId) (target : StateId) : List State :=
  exits.foldl (fun ss x => ss.map fun s => if s.label = x then s.prepend (goto target) else s)
    states

/-- One block after another. A block without states changes nothing. -/
def andThen (a b : Block) : Block :=
  match b.entry? with
  | none => a
  | some entry => ⟨connect a.states a.exits entry ++ b.states, b.exits⟩

end Block

end Sequencer.Lowering
