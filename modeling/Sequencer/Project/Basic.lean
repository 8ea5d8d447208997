import Sequencer.Lowering.Env
import Sequencer.Text.Utf8

/-!
# Projects

A project names the constants and the resources that a function is compiled with. A project without
flaws gives a usable scope. How it is stored is left to a `Codec`.
-/

namespace Sequencer.Project

open Circuit Lowering

/-- A resource that a project declares. -/
structure ResourceEntry where
  name : String
  kind : String
  width : Int
deriving DecidableEq, Repr, Inhabited

structure Settings where
  /-- The name of the module, or nothing for the name of the function. -/
  module : String
  /-- The output file, or nothing. -/
  output : String
  /-- The constants, each once. -/
  scope : List (String × Int64)
  resources : List ResourceEntry
deriving DecidableEq, Repr, Inhabited

def Settings.empty : Settings := ⟨"", "", [], []⟩

/-! ### Flaws -/

/-- Why something cannot be named so. -/
inductive NameFlaw where
  | empty
  | notIdentifier
  | keyword
  | builtIn
deriving DecidableEq, Repr, Inhabited

def NameFlaw.message : NameFlaw → String
  | empty => "empty name"
  | notIdentifier => "not an identifier"
  | keyword => "is a keyword"
  | builtIn => "shadows an intrinsic"

/-- What a name is declared as. -/
inductive Role where
  | constant
  | resource
deriving DecidableEq, Repr, Inhabited

def Role.text : Role → String
  | constant => "scope constant"
  | resource => "resource"

inductive Flaw where
  | badName (role : Role) (name : String) (why : NameFlaw)
  | declaredTwice (role : Role) (name : String) (before : Role)
  | unknownKind (name kind : String)
  | badWidth (name : String) (width : Int)
deriving DecidableEq, Repr, Inhabited

/-- The kind of resource that a design sends to. -/
def sinkKind : String := "sink"

/-- The kind of resource that a design receives from. -/
def sourceKind : String := "source"

def maxWidth : Int := 64

def Flaw.message : Flaw → String
  | badName role name why => s!"{role.text} {Text.quote name}: {why.message}"
  | declaredTwice role name before =>
    s!"{role.text} {Text.quote name}: already declared as {before.text}"
  | unknownKind name kind =>
    s!"resource {Text.quote name}: unknown kind {Text.quote kind} (want {sinkKind} or {sourceKind})"
  | badWidth name width => s!"resource {Text.quote name}: width {width} out of range 1..{maxWidth}"

def isIdentifier (name : String) : Bool :=
  match name.toList with
  | [] => false
  | c :: cs => (c.isAlpha || c = '_') && cs.all fun c => c.isAlphanum || c = '_'

def nameFlaw? (name : String) : Option NameFlaw :=
  if name = "" then some .empty
  else if !isIdentifier name then some .notIdentifier
  else if Token.kindOfWord name ≠ .ident then some .keyword
  else if (intrinsics.lookup name).isSome then some .builtIn
  else none

/-- The flaws of a declaration under the names `seen` before, and the names seen after it. -/
def reserve (seen : List (String × Role)) (role : Role) (name : String) :
    List Flaw × List (String × Role) :=
  match nameFlaw? name with
  | some why => ([.badName role name why], seen)
  | none =>
    match seen.lookup name with
    | some before => ([.declaredTwice role name before], seen)
    | none => ([], (name, role) :: seen)

def constantFlaws (seen : List (String × Role)) : List String → List Flaw × List (String × Role)
  | [] => ([], seen)
  | name :: names =>
    let (flaws, seen) := reserve seen .constant name
    let (more, seen) := constantFlaws seen names
    (flaws ++ more, seen)

/-- The flaws of a resource other than those of its name. -/
def ResourceEntry.flaws (r : ResourceEntry) : List Flaw :=
  (if r.kind = sinkKind ∨ r.kind = sourceKind then [] else [.unknownKind r.name r.kind])
    ++ (if 1 ≤ r.width ∧ r.width ≤ maxWidth then [] else [.badWidth r.name r.width])

def resourceFlaws (seen : List (String × Role)) : List ResourceEntry → List Flaw
  | [] => []
  | r :: rs =>
    let (flaws, seen) := reserve seen .resource r.name
    flaws ++ r.flaws ++ resourceFlaws seen rs

def Settings.flaws (s : Settings) : List Flaw :=
  let (flaws, seen) := constantFlaws [] ((sortedByName s.scope).map Prod.fst)
  flaws ++ resourceFlaws seen s.resources

/-! ### What a project describes -/

def ResourceEntry.build? (r : ResourceEntry) : Fresh (Option Resource) := do
  if r.kind = sinkKind then return some (.sink (← Channel.new r.name r.width))
  else if r.kind = sourceKind then return some (.source (← Channel.new r.name r.width))
  else return none

def Settings.buildResources (s : Settings) : Fresh (List Resource) := do
  let rs ← s.resources.mapM ResourceEntry.build?
  return rs.filterMap id

/-- The scope that a project describes. -/
def Settings.options (s : Settings) : Fresh Options := do
  return { scope := s.scope, values := [], resources := ← s.buildResources }

/-! ### Project files -/

/-- Why a file is no project. -/
inductive Error where
  /-- The file cannot be read at all. -/
  | malformed (message : String)
  | mistyped (message : String)
  | flawed (flaws : List Flaw)
deriving DecidableEq, Repr, Inhabited

def Error.message : Error → String
  | malformed message => message
  | mistyped message => message
  | flawed flaws => "\n".intercalate (flaws.map Flaw.message)

/-- A library for project files, which is not a part of this program: what a file says, which is
nothing without a document, and the canonical text of settings. -/
structure Codec where
  read : Text.Bytes → Except Error (Option Settings)
  write : Settings → Text.Bytes

/-- The settings in a project file. -/
def Codec.load (codec : Codec) (bytes : Text.Bytes) : Except Error Settings := do
  let s := (← codec.read bytes).getD .empty
  match s.flaws with
  | [] => return s
  | flaws => throw (.flawed flaws)

end Sequencer.Project
