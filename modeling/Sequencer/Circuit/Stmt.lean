import Sequencer.Circuit.Value

/-!
# Statements and fragments

A fragment of hardware is two blocks of statements: one is evaluated all the time, the other takes
effect at each clock edge. While a design is being built, a block also holds **markers**:
transitions to states without a number, and loads of registers whose sources are not all known.
-/

namespace Sequencer.Circuit

/-- The label that tells a state of a machine from all others. -/
abbrev StateId := Nat

/-- The place of a register in its bank. -/
abbrev RegisterId := Nat

/-- The number of a source value in its pool. -/
abbrev SourceId := Int

/-- A statement that is only known later. -/
inductive Marker where
  /-- Go to a state in the next cycle. -/
  | goto (target : StateId)
  /-- Load a register from a source. -/
  | load (register : RegisterId) (source : SourceId)
deriving DecidableEq, Repr, Inhabited

/-- What a marker is called in messages. -/
def Marker.kind : Marker → String
  | goto _ => "*fsm.NextState"
  | load _ _ => "*register.Load"

inductive Stmt where
  /-- A place where no statement stands. -/
  | hole
  | assign (target : Signal) (value : Value)
  | branch (test : Value) (yes : List Stmt) (no : Option (List Stmt))
  /-- Run the first arm whose literal equals the test, or else `other`. -/
  | select (test : Value) (arms : List (Literal × List Stmt)) (other : Option (List Stmt))
  | marker (m : Marker)
deriving Repr, Inhabited

/-! ### Walking -/

mutual

/-- A statement and the statements inside it, containers before their bodies. -/
def Stmt.walk : Stmt → List Stmt
  | .branch test yes no => .branch test yes no :: (walk yes ++ walkOption no)
  | .select test arms other => .select test arms other :: (walkArms arms ++ walkOption other)
  | s => [s]

/-- The statements of a block and those inside them. -/
def walk : List Stmt → List Stmt
  | [] => []
  | s :: ss => s.walk ++ walk ss

def walkOption : Option (List Stmt) → List Stmt
  | none => []
  | some ss => walk ss

def walkArms : List (Literal × List Stmt) → List Stmt
  | [] => []
  | (_, body) :: arms => walk body ++ walkArms arms

end

def Stmt.marker? : Stmt → Option Marker
  | .marker m => some m
  | _ => none

def firstMarker? (ss : List Stmt) : Option Marker := (walk ss).findSome? Stmt.marker?

/-- The signals that a block assigns, in the order of their first assignments. -/
def targets (ss : List Stmt) : List Signal :=
  ((walk ss).filterMap fun
    | .assign t _ => some t
    | _ => none).foldl (fun seen t => if t ∈ seen then seen else seen ++ [t]) []

/-! ### Changing leaves -/

section Leaves

variable {m : Type → Type} [Monad m] (f : Stmt → m Stmt)

mutual

/-- Apply `f` to every leaf, a statement that is not a container, in the order of walking. -/
def Stmt.mapLeaves : Stmt → m Stmt
  | .branch test yes no => do
    let yes ← mapLeaves yes
    let no ← mapLeavesOption no
    return .branch test yes no
  | .select test arms other => do
    let arms ← mapLeavesArms arms
    let other ← mapLeavesOption other
    return .select test arms other
  | .hole => f .hole
  | .assign target value => f (.assign target value)
  | .marker m => f (.marker m)

/-- Apply `f` to the leaves of a block. -/
def mapLeaves : List Stmt → m (List Stmt)
  | [] => return []
  | s :: ss => do
    let s ← s.mapLeaves
    let ss ← mapLeaves ss
    return s :: ss

def mapLeavesOption : Option (List Stmt) → m (Option (List Stmt))
  | none => return none
  | some ss => do
    let ss ← mapLeaves ss
    return some ss

def mapLeavesArms : List (Literal × List Stmt) → m (List (Literal × List Stmt))
  | [] => return []
  | (l, body) :: arms => do
    let body ← mapLeaves body
    let arms ← mapLeavesArms arms
    return (l, body) :: arms

end

end Leaves

/-! ### Fragments -/

/-- A unit of hardware. -/
structure Fragment where
  /-- Evaluated all the time. -/
  comb : List Stmt
  /-- Committed at the clock edge. -/
  sync : List Stmt
deriving Repr, Inhabited

namespace Fragment

def empty : Fragment := ⟨[], []⟩

/-- Put fragments together in order. -/
def merge (fs : List Fragment) : Fragment :=
  ⟨fs.flatMap Fragment.comb, fs.flatMap Fragment.sync⟩

/-- Apply `fn` to the leaves of both blocks. -/
def mapLeaves {m : Type → Type} [Monad m] (fn : Stmt → m Stmt) (f : Fragment) : m Fragment := do
  let comb ← Circuit.mapLeaves fn f.comb
  let sync ← Circuit.mapLeaves fn f.sync
  return ⟨comb, sync⟩

def firstMarker? (f : Fragment) : Option Marker :=
  Circuit.firstMarker? f.comb <|> Circuit.firstMarker? f.sync

end Fragment

/-- The message about a marker that was left in a fragment. -/
def unresolvedMessage (m : Marker) : String := "unresolved placeholder: " ++ m.kind

/-! ### Listings -/

/-- One line of a listing, indented by two blanks for each level. -/
def listingLine (level : Nat) (text : String) : String :=
  String.ofList (List.replicate (2 * level) ' ') ++ text ++ "\n"

/-- A marker by its kind alone. -/
def Marker.bare (m : Marker) : String := "<" ++ m.kind ++ ">"

mutual

def Stmt.listing (describe : Marker → String) (level : Nat) : Stmt → String
  | .hole => listingLine level "<unknown <nil>>"
  | .assign target value => listingLine level ((Value.signal target).text ++ " = " ++ value.text)
  | .branch test yes no =>
    listingLine level ("if " ++ test.text ++ ":") ++ listing describe (level + 1) yes
      ++ (if (no.getD []).isEmpty then "" else listingLine level "else:")
      ++ listingOption describe (level + 1) no
  | .select test arms other =>
    listingLine level ("case " ++ test.text ++ ":") ++ listingArms describe (level + 1) arms
      ++ (if (other.getD []).isEmpty then "" else listingLine (level + 1) "default:")
      ++ listingOption describe (level + 2) other
  | .marker m => listingLine level (describe m)

def listing (describe : Marker → String) (level : Nat) : List Stmt → String
  | [] => ""
  | s :: ss => s.listing describe level ++ listing describe level ss

def listingOption (describe : Marker → String) (level : Nat) : Option (List Stmt) → String
  | none => ""
  | some ss => listing describe level ss

def listingArms (describe : Marker → String) (level : Nat) : List (Literal × List Stmt) → String
  | [] => ""
  | (l, body) :: arms =>
    listingLine level (toString l.value.toInt ++ ":") ++ listing describe (level + 1) body
      ++ listingArms describe level arms

end

end Sequencer.Circuit
