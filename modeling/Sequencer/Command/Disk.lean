import Sequencer.Text.Utf8

/-!
# Disks

Files and directories as a value. Every step of a path has to start in a directory that exists. A
disk can run out of room, and then a file that was being written is left unfinished.
-/

namespace Sequencer.Command

open Text

/-! ### Errors -/

/-- Why a file cannot be used. -/
inductive FileProblem where
  | notFound
  | isDirectory
  | notDirectory
  /-- The path holds a character that no path can hold. -/
  | invalidPath
  | nameTooLong
  | noSpace
deriving DecidableEq, Repr, Inhabited

def FileProblem.message : FileProblem → String
  | notFound => "no such file or directory"
  | isDirectory => "is a directory"
  | notDirectory => "not a directory"
  | invalidPath => "invalid argument"
  | nameTooLong => "file name too long"
  | noSpace => "no space left on device"

structure FileError where
  /-- What was tried. -/
  action : String
  path : String
  problem : FileProblem
deriving DecidableEq, Repr, Inhabited

def FileError.message (e : FileError) : String := s!"{e.action} {e.path}: {e.problem.message}"

/-! ### Places -/

/-- The steps from the top of a disk to a file or directory. Only the first steps can lead up. -/
abbrev Place := List String

namespace Place

/-- The place where absolute paths start, which is outside of the disk. -/
def root : Place := ["/"]

/-- The place above a place. -/
def parent (p : Place) : Place :=
  if p = root then root else if p.all (· = "..") then p ++ [".."] else p.dropLast

def step (p : Place) (name : String) : Place :=
  if name = "." then p else if name = ".." then p.parent else p ++ [name]

def start (path : String) : Place := if path.toList.head? = some '/' then root else []

def steps (path : String) : List String :=
  ((path.toList.splitOn '/').map String.ofList).filter (· ≠ "")

/-- The place that a path leads to if all directories exist. -/
def ofPath (path : String) : Place := (steps path).foldl step (start path)

/-- A place as a path. -/
def text (p : Place) : String := "/".intercalate p

def isAbove (p : Place) : Bool := p = root || p.all (· = "..")

/-- Whether a place is on the disk. -/
def isInside (p : Place) : Bool := p.head? ≠ some ".." && p.head? ≠ root.head?

end Place

def maxName : Nat := 255

def maxPath : Nat := 4095

/-! ### Disks -/

/-- Files with their contents, and directories other than those above the top. -/
structure Disk where
  files : List (Place × Bytes)
  directories : List Place
  /-- How many bytes a file can be written with, or nothing if that is not limited. -/
  room : Option Nat
deriving DecidableEq, Repr, Inhabited

namespace Disk

def empty : Disk := ⟨[], [], none⟩

def content? (d : Disk) (p : Place) : Option Bytes := d.files.lookup p

def isDirectory (d : Disk) (p : Place) : Bool := p.isAbove || d.directories.contains p

/-- Take a step of a path. -/
def step (d : Disk) (p : Place) (name : String) : Except FileProblem Place :=
  if (d.content? p).isSome then .error .notDirectory
  else if !d.isDirectory p then .error .notFound
  else if maxName < name.utf8ByteSize then .error .nameTooLong
  else .ok (p.step name)

/-- The place that a path leads to. There may be nothing yet. -/
def locate (d : Disk) (path : String) : Except FileProblem Place :=
  if path.toList.contains '\x00' then .error .invalidPath
  else if path = "" then .error .notFound
  else if maxPath < path.utf8ByteSize then .error .nameTooLong
  else (Place.steps path).foldlM d.step (Place.start path)

/-- Whether a path can only be a directory. -/
def mustBeDirectory (path : String) : Bool := path.toList.getLast? = some '/'

def read (d : Disk) (path : String) : Except FileError Bytes :=
  match d.locate path with
  | .error problem => .error ⟨"open", path, problem⟩
  | .ok p =>
    match d.content? p with
    | some content =>
      if mustBeDirectory path then .error ⟨"open", path, .notDirectory⟩ else .ok content
    | none =>
      if d.isDirectory p then .error ⟨"read", path, .isDirectory⟩
      else .error ⟨"open", path, .notFound⟩

/-- Put a file in the place of the old one, or at the end. -/
def put (p : Place) (content : Bytes) : List (Place × Bytes) → List (Place × Bytes)
  | [] => [(p, content)]
  | (q, old) :: rest =>
    if q = p then (q, content) :: rest else (q, old) :: put p content rest

/-- As much of a content as there is room for. -/
def fitting (d : Disk) (content : Bytes) : Bytes := (d.room.map content.take).getD content

/-- Write a file. Opening it empties it; what is written until writing breaks off remains. -/
def write (d : Disk) (path : String) (content : Bytes) : Except FileError Unit × Disk :=
  match d.locate path with
  | .error problem => (.error ⟨"open", path, problem⟩, d)
  | .ok p =>
    if d.isDirectory p || mustBeDirectory path then (.error ⟨"open", path, .isDirectory⟩, d)
    else
      (if d.fitting content = content then .ok () else .error ⟨"write", path, .noSpace⟩,
        { d with files := put p (d.fitting content) d.files })

/-- Place a file, with the directories on the way to it. -/
def place (d : Disk) (path : String) (content : Bytes) : Disk :=
  let p := Place.ofPath path
  let parents := (List.range p.length).map p.take
  { d with
    files := put p content d.files
    directories := d.directories ++ parents.filter fun q => !d.isDirectory q }

/-- Remove a file, or a directory with all that is in it. -/
def remove (d : Disk) (path : String) : Disk :=
  let p := Place.ofPath path
  { d with
    files := d.files.filter fun f => !p.isPrefixOf f.1
    directories := d.directories.filter fun q => !p.isPrefixOf q }

/-- The files of a disk that another does not have in the same form. -/
def changesFrom (d before : Disk) : List (Place × Bytes) :=
  d.files.filter fun f => f.1.isInside && before.content? f.1 ≠ some f.2

end Disk

/-! ### Scripts -/

/-- What a command does. -/
inductive Script (α : Type) where
  | done (result : α)
  | load (path : String) (next : Except FileError Bytes → Script α)
  | save (path : String) (content : Bytes) (next : Except FileError Unit → Script α)
  /-- Print to the standard output. -/
  | print (text : String) (next : Script α)
  /-- Print to the standard error output. -/
  | report (text : String) (next : Script α)

namespace Script

def bind {α β : Type} (s : Script α) (f : α → Script β) : Script β :=
  match s with
  | done a => f a
  | load path next => load path fun r => (next r).bind f
  | save path content next => save path content fun r => (next r).bind f
  | print text next => print text (next.bind f)
  | report text next => report text (next.bind f)

instance : Monad Script where
  pure := done
  bind := bind

/-- What running a script leads to. -/
structure Outcome (α : Type) where
  result : α
  stdout : String
  stderr : String
  disk : Disk
deriving Repr

def run {α : Type} : Script α → Disk → Outcome α
  | done a, d => ⟨a, "", "", d⟩
  | load path next, d => (next (d.read path)).run d
  | save path content next, d =>
    let (r, d) := d.write path content
    (next r).run d
  | print text next, d =>
    let o := next.run d
    { o with stdout := text ++ o.stdout }
  | report text next, d =>
    let o := next.run d
    { o with stderr := text ++ o.stderr }

end Script

end Sequencer.Command
