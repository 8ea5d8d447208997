import Sequencer.Project.Basic
import Sequencer.Yaml.Document
import Sequencer.Yaml.Writer

/-!
# Projects in YAML

A project file is a YAML mapping. All places where a value has the wrong type are reported together;
only a file without any is looked at for flaws.
-/

namespace Sequencer.Project

open Yaml

/-! ### Type errors -/

/-- What a value is read into. -/
inductive Target where
  | string
  | constant
  | width
  | scope
  | resources
  | resource
  | settings
deriving DecidableEq, Repr, Inhabited

def Target.text : Target → String
  | string => "string"
  | constant => "int64"
  | width => "int"
  | scope => "map[string]int64"
  | resources => "[]config.Resource"
  | resource => "config.Resource"
  | settings => "config.Config"

inductive TypeError where
  | scalar (line : Nat) (meaning : Meaning) (text : String) (target : Target)
  | sequence (line : Nat) (target : Target)
  | mapping (line : Nat) (target : Target)
  | unknownField (line : Nat) (name : String) (target : Target)
  | duplicateKey (line : Nat) (key : String) (before : Nat)
deriving DecidableEq, Repr, Inhabited

/-- A text cut to its first bytes if it is long. -/
def excerpt (s : String) : String :=
  let bytes := Text.encode s
  if 10 < bytes.length then String.ofList (Text.decode (bytes.take 7)) ++ "..." else s

def TypeError.message : TypeError → String
  | scalar line meaning text target =>
    s!"line {line}: cannot unmarshal {meaning.tag} `{excerpt text}` into {target.text}"
  | sequence line target => s!"line {line}: cannot unmarshal !!seq into {target.text}"
  | mapping line target => s!"line {line}: cannot unmarshal !!map into {target.text}"
  | unknownField line name target => s!"line {line}: field {name} not found in type {target.text}"
  | duplicateKey line key before =>
    s!"line {line}: mapping key {Text.quote key} already defined at line {before}"

/-! ### Values -/

/-- A value that was read, if there is one, with the type errors on the way. -/
abbrev Decoded (α : Type) := List TypeError × Option α

/-- What a scalar stands for. -/
def meaningOf (plain : Bool) (text : String) : Meaning :=
  if plain then .ofPlain text else .string

/-- Report a node of the wrong type. An absent value is no error. -/
def mistyped {α : Type} (target : Target) : Node → Decoded α
  | .scalar line plain text =>
    match meaningOf plain text with
    | .nothing => ([], none)
    | m => ([.scalar line m text target], none)
  | .sequence line _ => ([.sequence line target], none)
  | .mapping line _ => ([.mapping line target], none)

/-- The keys that were there before, as errors. -/
def duplicates : List (Node × Node) → List TypeError
  | [] => []
  | (k, _) :: rest =>
    (rest.filterMap fun (other, _) =>
      if k.sameKey other then some (.duplicateKey other.line other.text k.line) else none)
      ++ duplicates rest

/-- Read the entries of a mapping, unless a key stands there twice. -/
def withEntries {α : Type} (entries : List (Node × Node)) (f : Decoded α) : Decoded α :=
  match duplicates entries with
  | [] => f
  | errors => (errors, none)

def decodeText (n : Node) : Decoded String :=
  match n with
  | .scalar _ plain text =>
    if meaningOf plain text = .nothing then ([], none) else ([], some text)
  | .mapping _ entries => withEntries entries (mistyped .string n)
  | .sequence .. => mistyped .string n

def minInt64 : Int := -9223372036854775808

def maxInt64 : Int := 9223372036854775807

/-- The 64-bit integer of a float, toward zero. Below the range, and right above it, it is the least
integer. -/
def truncated? (d : Double) : Option Int64 :=
  let n := d.truncate
  if maxInt64 + 1 < n then none
  else some (Int64.ofInt (if minInt64 ≤ n ∧ n ≤ maxInt64 then n else minInt64))

/-- The 64-bit integer that a scalar stands for. -/
def integerOf? : Meaning → Option Int64
  | .int n => if minInt64 ≤ n ∧ n ≤ maxInt64 then some (Int64.ofInt n) else none
  | .float d => truncated? d
  | .infinite true => some (Int64.ofInt minInt64)
  | _ => none

def decodeInt (target : Target) (n : Node) : Decoded Int64 :=
  match n with
  | .scalar _ plain text =>
    match integerOf? (meaningOf plain text) with
    | some v => ([], some v)
    | none => mistyped target n
  | .mapping _ entries => withEntries entries (mistyped target n)
  | .sequence .. => mistyped target n

/-! ### The parts of a project -/

/-- Read the constants. A constant without a value is zero; one without a name is left out. -/
def decodeConstants : List (Node × Node) → Decoded (List (String × Int64))
  | [] => ([], some [])
  | (k, v) :: rest =>
    let (keyErrors, key) := decodeText k
    let (errors, value) : Decoded (Option (String × Int64)) :=
      match key with
      | none => (keyErrors, none)
      | some name =>
        let (valueErrors, value) := decodeInt .constant v
        (keyErrors ++ valueErrors, some (some (name, value.getD 0)))
    let (more, constants) := decodeConstants rest
    (errors ++ more, some (((value.bind id).toList) ++ constants.getD []))

def decodeScope (n : Node) : Decoded (List (String × Int64)) :=
  match n with
  | .mapping _ entries => withEntries entries (decodeConstants entries)
  | _ => mistyped .scope n

/-- Read the fields of a mapping one after another into `value`. -/
def decodeFields {α : Type} (field : String → Option (α → Node → List TypeError × α))
    (target : Target) (value : α) : List (Node × Node) → List TypeError × α
  | [] => ([], value)
  | (k, v) :: rest =>
    let (keyErrors, key) := decodeText k
    let (errors, value) :=
      match key with
      | none => (keyErrors, value)
      | some name =>
        match field name with
        | some read => let (errors, value) := read value v; (keyErrors ++ errors, value)
        | none => (keyErrors ++ [.unknownField k.line name target], value)
    let (more, value) := decodeFields field target value rest
    (errors ++ more, value)

/-- Read a field that keeps its old value if nothing is there. -/
def setField {α β : Type} (decode : Node → Decoded β) (set : α → β → α) (value : α) (n : Node) :
    List TypeError × α :=
  let (errors, r) := decode n
  (errors, (r.map (set value)).getD value)

def resourceField (name : String) :
    Option (ResourceEntry → Node → List TypeError × ResourceEntry) :=
  match name with
  | "name" => some (setField decodeText fun r name => { r with name })
  | "kind" => some (setField decodeText fun r kind => { r with kind })
  | "width" => some (setField (decodeInt .width) fun r w => { r with width := w.toInt })
  | _ => none

def decodeResource (n : Node) : Decoded ResourceEntry :=
  match n with
  | .mapping _ entries =>
    withEntries entries
      (let (errors, r) := decodeFields resourceField .resource ⟨"", "", 0⟩ entries
       (errors, some r))
  | _ => mistyped .resource n

def decodeResources (n : Node) : Decoded (List ResourceEntry) :=
  match n with
  | .sequence _ items =>
    let rs := items.map decodeResource
    (rs.flatMap Prod.fst, some (rs.filterMap Prod.snd))
  | .mapping _ entries => withEntries entries (mistyped .resources n)
  | .scalar .. => mistyped .resources n

def settingsField (name : String) : Option (Settings → Node → List TypeError × Settings) :=
  match name with
  | "module" => some (setField decodeText fun s module => { s with module })
  | "output" => some (setField decodeText fun s output => { s with output })
  | "scope" => some (setField decodeScope fun s scope => { s with scope })
  | "resources" => some (setField decodeResources fun s resources => { s with resources })
  | _ => none

def decodeSettings (n : Node) : Decoded Settings :=
  match n with
  | .mapping _ entries =>
    withEntries entries
      (let (errors, s) := decodeFields settingsField .settings .empty entries
       (errors, some s))
  | _ => mistyped .settings n

/-! ### Fingerprints -/

/-- The number that the digits at the start of a text continue `n` with, and how many there are.
The number wraps around. -/
def digitRun (n : Int64) : List Char → Int64 × Nat
  | [] => (n, 0)
  | c :: cs =>
    if c.isDigit then
      let (m, k) := digitRun (n * 10 + Int64.ofNat (c.toNat - '0'.toNat)) cs
      (m, k + 1)
    else (n, 0)

/-- Whether a digit other than zero is among the digits at the start of a text. -/
def hasNonzero (cs : List Char) : Bool := (cs.takeWhile Char.isDigit).any (· ≠ '0')

/-- The order of names, so that numbers inside them count as numbers. `before` is what both names
have in common so far, the last character first. -/
def nameBefore (before : List Char) : List Char → List Char → Bool
  | a :: as, b :: bs =>
    if a = b then nameBefore (a :: before) as bs
    else
      let la := Text.isLetter a
      let lb := Text.isLetter b
      if la && lb then a < b
      else if la || lb then
        if (before.head?.map Char.isDigit).getD false then la else lb
      else
        let lead : Int64 := if (a = '0' || b = '0') && hasNonzero before then 1 else 0
        let (m, i) := digitRun lead (a :: as)
        let (n, j) := digitRun lead (b :: bs)
        if m ≠ n then m < n else if i ≠ j then i < j else a < b
  | [], _ :: _ => true
  | _, [] => false

/-- The constants in the order in which they are written. -/
def Settings.sortedScope (s : Settings) : List (String × Int64) :=
  s.scope.mergeSort fun a b => !nameBefore [] b.1.toList a.1.toList

def textLine (key text : String) : String :=
  let t := Yaml.scalarText text
  key ++ ": " ++ t ++ (if (t.toList.getLast?.map Yaml.isBreak).getD false then "" else "\n")

/-- The longest name, in bytes, that a value follows on the same line. -/
def maxInlineName : Nat := 128

/-- The part of a fingerprint for one constant. -/
def constantLine (name : String) (v : Int64) : String :=
  let t := Yaml.scalarText name
  if name.utf8ByteSize ≤ maxInlineName then s!"    {t}: {v.toInt}\n"
  else s!"    ? {t}\n    : {v.toInt}\n"

def ResourceEntry.fingerprint (r : ResourceEntry) : String :=
  textLine "    - name" r.name ++ textLine "      kind" r.kind ++ s!"      width: {r.width}\n"

/-- The canonical text of a project. -/
def Settings.fingerprint (s : Settings) : String :=
  textLine "module" s.module ++ textLine "output" s.output
    ++ (if s.scope.isEmpty then "scope: \x7b\x7d\n"
      else "scope:\n" ++ String.join (s.sortedScope.map fun (name, v) => constantLine name v))
    ++ (if s.resources.isEmpty then "resources: []\n"
      else "resources:\n" ++ String.join (s.resources.map ResourceEntry.fingerprint))

/-! ### The codec -/

/-- The settings in a text. A text without a document says nothing. -/
def readSettings (bytes : Text.Bytes) : Except Error (Option Settings) :=
  match readDocument (.ofBytes bytes) with
  | .error e => .error (.malformed e.message)
  | .ok none => .ok none
  | .ok (some n) =>
    match decodeSettings n with
    | ([], s) => .ok s
    | (errors, _) =>
      .error (.mistyped ("yaml: unmarshal errors:"
        ++ String.join (errors.map fun e => "\n  " ++ e.message)))

/-- Project files in YAML. -/
def yaml : Codec := ⟨readSettings, fun s => Text.encode s.fingerprint⟩

/-- The settings in a project file in YAML. -/
def ofBytes (bytes : Text.Bytes) : Except Error Settings := yaml.load bytes

end Sequencer.Project
