import Sequencer.Circuit.Stmt
import Sequencer.Text.Quoted

/-!
# Registers with several sources

A register can be loaded from several places of a program. Each load only sets the **selector** to
the code of the source; code zero means "hold". When all sources are known the register is
**finalized**: the width of its selector is fixed, and loads can be resolved into assignments. The
registers of a program live in a **bank** and number their sources in one common **pool**.
-/

namespace Sequencer

open Circuit

/-! ### Pools -/

/-- Source values, numbered in order of first sight. -/
structure Pool where
  values : List Value
deriving DecidableEq, Repr, Inhabited

namespace Pool

def empty : Pool := ⟨[]⟩

def size (p : Pool) : Nat := p.values.length

/-- The number of a value that is already in the pool. -/
def lookup (p : Pool) (v : Value) : Option SourceId := (p.values.idxOf? v).map fun i => (i : Int)

/-- The number of a value, which is added if it is new. -/
def intern (p : Pool) (v : Value) : SourceId × Pool :=
  match p.lookup v with
  | some id => (id, p)
  | none => (p.size, ⟨p.values ++ [v]⟩)

def value? (p : Pool) (id : SourceId) : Option Value :=
  if id < 0 then none else p.values[id.toNat]?

end Pool

/-! ### Registers -/

/-- A register and the sources it has been loaded from. -/
structure Register where
  name : String
  /-- The signal that holds the value. -/
  storage : Signal
  /-- The register's own pool, if it does not use the common one. -/
  ownPool : Option Pool
  /-- The sources in the order of their codes. -/
  sources : List SourceId
  /-- The selector, once the register is finalized. -/
  selector : Option Signal
deriving DecidableEq, Repr, Inhabited

namespace Register

inductive Error where
  | loadAfterFinalize (name : String)
  | finalizedTwice (name : String)
  | resolvedTooEarly (name : String)
  | neverLoaded (name : String) (source : SourceId)
  /-- There is no register at that place of the bank. -/
  | noSuchRegister
deriving DecidableEq, Repr

def Error.message : Error → String
  | loadAfterFinalize name =>
    s!"register: finalize contract violated: load into {Text.quote name} after finalize"
  | finalizedTwice name =>
    s!"register: finalize contract violated: {Text.quote name} finalized twice"
  | resolvedTooEarly name =>
    s!"register: finalize contract violated: {Text.quote name} resolved before finalize"
  | neverLoaded name source => s!"register {Text.quote name}: source {source} was never loaded"
  | noSuchRegister => "no such register"

def new (name : String) (width : Int) (ownPool : Option Pool) : Fresh Register := do
  return { name, storage := ← Signal.new name width, ownPool, sources := [], selector := none }

def code? (r : Register) (source : SourceId) : Option Nat :=
  (r.sources.idxOf? source).map (· + 1)

/-- Record a source. One that is already known keeps its code. -/
def addSource (r : Register) (source : SourceId) : Register :=
  if source ∈ r.sources then r else { r with sources := r.sources ++ [source] }

/-- The least width that holds the codes of all sources and zero. -/
def selectorBits (r : Register) : Int := bitsFor (Int64.ofNat r.sources.length)

/-- Freeze the sources. -/
def finalize (r : Register) : Fresh (Except Error Register) :=
  match r.selector with
  | some _ => return .error (.finalizedTwice r.name)
  | none => do
    let sel ← Signal.new ("regsel_" ++ r.name) r.selectorBits
    return .ok { r with selector := some sel }

/-- The assignment that a load of a source stands for. -/
def resolve (r : Register) (source : SourceId) : Except Error Stmt :=
  match r.selector with
  | none => .error (.resolvedTooEarly r.name)
  | some sel =>
    match r.code? source with
    | none => .error (.neverLoaded r.name source)
    | some code => .ok (.assign sel (.ofLiteral (.sized (Int64.ofNat code) sel.bits)))

end Register

/-! ### Banks -/

/-- The registers of a design with their common pool. -/
structure Bank where
  pool : Pool
  registers : List Register
deriving DecidableEq, Repr, Inhabited

namespace Bank

def empty : Bank := ⟨.empty, []⟩

def poolOf (b : Bank) (r : Register) : Pool := r.ownPool.getD b.pool

def get (b : Bank) (id : RegisterId) : Except Register.Error Register :=
  match b.registers[id]? with
  | some r => .ok r
  | none => .error .noSuchRegister

/-- Add a register, which gets the next place. -/
def add (b : Bank) (r : Register) : RegisterId × Bank :=
  (b.registers.length, { b with registers := b.registers ++ [r] })

def set (b : Bank) (id : RegisterId) (r : Register) : Bank :=
  { b with registers := b.registers.set id r }

/-- Record that a register can be loaded from a value, and return the load. -/
def load (b : Bank) (id : RegisterId) (v : Value) : Except Register.Error (Marker × Bank) := do
  let r ← b.get id
  if r.selector.isSome then throw (.loadAfterFinalize r.name)
  let (source, pool) := (b.poolOf r).intern v
  let r := r.addSource source
  return (.load id source,
    match r.ownPool with
    | none => { b with pool }.set id r
    | some _ => b.set id { r with ownPool := some pool })

def finalize (b : Bank) (id : RegisterId) : Fresh (Except Register.Error Bank) :=
  match b.get id with
  | .error e => return .error e
  | .ok r => do
    match ← r.finalize with
    | .error e => return .error e
    | .ok r => return .ok (b.set id r)

/-- Replace a load by the assignment it stands for, and keep every other statement. -/
def resolveLoad (b : Bank) (s : Stmt) : Except Register.Error Stmt :=
  match s with
  | .marker (.load id source) => do
    let r ← b.get id
    r.resolve source
  | s => .ok s

def sourceValues (b : Bank) (r : Register) : List Value :=
  r.sources.filterMap (b.poolOf r).value?

/-- The code of a value among the sources of a register. -/
def codeOf? (b : Bank) (r : Register) (v : Value) : Option Nat := do
  r.code? (← (b.poolOf r).lookup v)

/-- The load logic of a finalized register: the selected source is stored at the clock edge, and
nothing for code zero. -/
def lower (b : Bank) (r : Register) : Fragment :=
  match r.selector with
  | none => .empty
  | some sel =>
    let arms := (b.sourceValues r).mapIdx fun i v =>
      (Literal.sized (Int64.ofNat (i + 1)) sel.bits, [Stmt.assign r.storage v])
    { comb := [], sync := [.select (.signal sel) arms none] }

end Bank

end Sequencer
