import Sequencer.Handshake

/-!
# Names

What the names of a program refer to. Loop variables are bound around each unrolled iteration and
unbound after it; every other binding lasts.
-/

namespace Sequencer.Lowering

open Circuit

/-- A built-in function. A number outside the table stands for one that nothing understands. -/
inductive Intrinsic where
  | register
  | bitslice
  | unknown (code : Int)
deriving DecidableEq, Repr, Inhabited

def Intrinsic.name : Intrinsic → String
  | register => "Register"
  | bitslice => "bitslice"
  | unknown code => s!"Intrinsic({code})"

def Intrinsic.ofCode (n : Int) : Intrinsic :=
  if n = 0 then .register else if n = 1 then .bitslice else .unknown n

/-- The built-in functions under their names. -/
def intrinsics : List (String × Intrinsic) :=
  [("Register", .register), ("bitslice", .bitslice)]

/-- What a name refers to. -/
inductive Binding where
  /-- A hardware value of the enclosing scope. -/
  | value (v : Value)
  | register (id : RegisterId)
  /-- A compile-time integer: a constant of the scope, or a loop variable in one iteration. -/
  | int (v : Int64)
  | intrinsic (i : Intrinsic)
  | resource (r : Resource)

/-- The names in scope. -/
structure Env where
  /-- Each bound name once. -/
  bindings : List (String × Binding)
  /-- The active loop variables, innermost first. -/
  loopVars : List String

namespace Env

def empty : Env := ⟨[], []⟩

def lookup (e : Env) (name : String) : Option Binding := e.bindings.lookup name

/-- Bind a name, whether or not it was bound before. -/
def set (e : Env) (name : String) (b : Binding) : Env :=
  if (e.lookup name).isSome then
    { e with bindings := e.bindings.map fun (n, old) => if n = name then (n, b) else (n, old) }
  else { e with bindings := e.bindings ++ [(name, b)] }

/-- Bind a name that is not an active loop variable. -/
def bind (e : Env) (name : String) (b : Binding) : Option Env :=
  if name ∈ e.loopVars then none else some (e.set name b)

/-- Bind a loop variable, which must not be bound in any way. -/
def push (e : Env) (name : String) (b : Binding) : Option Env :=
  if (e.lookup name).isSome then none
  else some { e.set name b with loopVars := name :: e.loopVars }

/-- Unbind the innermost loop variable, which must be `name`. -/
def pop (e : Env) (name : String) : Option Env :=
  match e.loopVars with
  | [] => none
  | v :: vs =>
    if v = name then some ⟨e.bindings.filter fun (n, _) => n ≠ name, vs⟩ else none

def names (e : Env) : List String := (e.bindings.map Prod.fst).mergeSort (· ≤ ·)

end Env

/-- The scope that a function is compiled in. -/
structure Options where
  /-- Compile-time integers. -/
  scope : List (String × Int64)
  /-- Hardware values that the function may read. -/
  values : List (String × Value)
  /-- The endpoints that the function may use. -/
  resources : List Resource

/-- An association list in the order of its keys. -/
def sortedByName {α : Type} (l : List (String × α)) : List (String × α) :=
  l.mergeSort fun a b => a.1 ≤ b.1

/-- Bind names that must be new. -/
def bindAll (e : Env) : List (String × Binding) → Except Fault Env
  | [] => .ok e
  | (name, b) :: rest =>
    if (e.lookup name).isSome then .error (.boundTwice name) else bindAll (e.set name b) rest

/-- The names in scope at the start: the built-in functions, then the constants, the values and the
resources. Each name may be bound only once. -/
def Options.env (o : Options) : Except Fault Env :=
  bindAll ⟨intrinsics.map fun (n, i) => (n, .intrinsic i), []⟩ <|
    (sortedByName o.scope).map (fun (n, v) => (n, .int v))
      ++ (sortedByName o.values).map (fun (n, v) => (n, .value v))
      ++ o.resources.map fun r => (r.name, .resource r)

end Sequencer.Lowering
