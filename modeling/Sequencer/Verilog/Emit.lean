import Sequencer.Verilog.Module

/-!
# From fragments to modules

`ofFragment` writes a fragment as a module. It fails if the fragment is not finished, if a signal
has two kinds of drivers or drives an input, or if a part of it is missing.
-/

namespace Sequencer.Verilog

open Circuit

/-! ### Identifiers -/

/-- The words that cannot be names. -/
def keywords : List String :=
  ["always", "and", "assign", "begin", "case", "casex", "casez", "default", "else", "end",
    "endcase", "endfunction", "endmodule", "for", "function", "generate", "if", "initial",
    "inout", "input", "integer", "localparam", "module", "negedge", "not", "or", "output",
    "parameter", "posedge", "reg", "signed", "task", "while", "wire", "xor"]

def isNameStart (c : Char) : Bool := c.isAlpha || c = '_'

/-- Whether a character can stand inside a name. -/
def isNameChar (c : Char) : Bool := c.isAlphanum || c = '_'

/-- The characters of a name with an underscore for each that cannot stand where it does. -/
def legalChars : List Char → List Char
  | [] => "unnamed".toList
  | c :: cs => (if isNameStart c then c else '_') :: cs.map fun c => if isNameChar c then c else '_'

def legalName (s : String) : String := String.ofList (legalChars s.toList)

def numbered (base : String) (n : Nat) : String := base ++ "_" ++ toString n

def isTaken (used : List String) (name : String) : Bool :=
  used.contains name || keywords.contains name

/-- The first of the numbered names from `n` on that is free. -/
def seek (used : List String) (base : String) : (fuel n : Nat) → String
  | 0, n => numbered base n
  | fuel + 1, n =>
    if isTaken used (numbered base n) then seek used base fuel (n + 1) else numbered base n

/-- A free name: `base` itself if possible. At most one number for each taken name is tried in
vain. -/
def freeName (used : List String) (base : String) : String :=
  if isTaken used base then seek used base (used.length + keywords.length) 1 else base

/-! ### What is named -/

/-- A signal of the module. -/
structure Net where
  signal : Signal
  ident : String
  /-- Driven all the time. -/
  comb : Bool
  /-- Driven at the clock edge. -/
  sync : Bool
  /-- Its direction, if it is a port. -/
  port : Option Direction
deriving DecidableEq, Repr, Inhabited

namespace Net

def driven (n : Net) : Bool := n.comb || n.sync

/-- Whether the signal is read from outside: an input port, or a signal that nothing drives. -/
def isInput (n : Net) : Bool :=
  match n.port with
  | some d => d = .input
  | none => !n.driven

end Net

/-- A sized intermediate. -/
structure Wire where
  /-- The operator or the slice that needs the wire. -/
  node : Value
  ident : String
  width : Int
deriving DecidableEq, Repr, Inhabited

/-- The names of a module. -/
structure Names where
  /-- In order of first sight. -/
  nets : List Net
  /-- In order of first sight, a value before its parts. -/
  wires : List Wire
  /-- The names that are taken. -/
  used : List String
deriving Repr, Inhabited

namespace Names

/-- Only the clock and the reset have names. -/
def start : Names := ⟨[], [], [clockName, resetName]⟩

def net? (n : Names) (s : Signal) : Option Net := n.nets.find? (·.signal = s)

def wire? (n : Names) (v : Value) : Option Wire := n.wires.find? (·.node = v)

/-- Name a signal, unless it has a name. -/
def declare (n : Names) (s : Signal) : Names :=
  if (n.net? s).isSome then n
  else
    let ident := freeName n.used (legalName s.name)
    { n with
      nets := n.nets ++ [{ signal := s, ident, comb := false, sync := false, port := none }]
      used := ident :: n.used }

def update (n : Names) (s : Signal) (f : Net → Net) : Names :=
  { n with nets := n.nets.map fun net => if net.signal = s then f net else net }

def addPort (n : Names) (p : Port) : Names :=
  (n.declare p.signal).update p.signal fun net => { net with port := some p.direction }

/-- Give a value a wire, unless it has one. -/
def addWire (n : Names) (v : Value) (base : String) (width : Int) : Names :=
  if (n.wire? v).isSome then n
  else
    let ident := freeName n.used base
    { n with wires := n.wires ++ [⟨v, ident, width⟩], used := ident :: n.used }

end Names

/-- Whether a value can be indexed without a wire for that purpose: a signal, or an operator that
has its own wire. -/
def indexable : Value → Bool
  | .signal _ => true
  | .binary _ op _ _ => !op.isComparison
  | _ => false

namespace Names

def addNode (n : Names) (v : Value) : Names :=
  match v with
  | .signal s => n.declare s
  | .binary _ op _ _ => if op.isComparison then n else n.addWire v "expr_tmp" v.width
  | .slice _ x _ _ => if indexable x then n else n.addWire v "slice_tmp" x.width
  | _ => n

def addValue (n : Names) (v : Value) : Names := v.walk.foldl addNode n

/-- Name what one statement needs, apart from the statements inside it, where `mark` notes how its
block drives a signal. A selection without arms is never written. -/
def addStmt (mark : Net → Net) (n : Names) (s : Circuit.Stmt) : Names :=
  match s with
  | .assign t v => ((n.declare t).update t mark).addValue v
  | .branch test _ _ => n.addValue test
  | .select test arms other =>
    if arms.isEmpty && (other.getD []).isEmpty then n else n.addValue test
  | _ => n

def addBlock (mark : Net → Net) (n : Names) (ss : List Circuit.Stmt) : Names :=
  (walk ss).foldl (addStmt mark) n

/-- The names of a module: those of its ports first, then in the order of its statements. -/
def ofFragment (ports : List Port) (f : Fragment) : Names :=
  let n := ports.foldl addPort start
  let n := n.addBlock (fun net => { net with comb := true }) f.comb
  n.addBlock (fun net => { net with sync := true }) f.sync

end Names

inductive Fault where
  /-- A marker is left in the fragment. -/
  | unresolved (m : Marker)
  | multipleDrivers (ident : String)
  | drivenInput (ident : String)
  /-- A value has no width. -/
  | unmeasurable
  | missingValue
  | unknownStatement (kind : String)
deriving DecidableEq, Repr, Inhabited

def Fault.message : Fault → String
  | unresolved m => "verilog: " ++ unresolvedMessage m
  | multipleDrivers ident => "verilog: signal driven from both comb and sync logic: " ++ ident
  | drivenInput ident => "verilog: input port is driven by the design: " ++ ident
  | unmeasurable => "verilog: value without a width"
  | missingValue => "verilog: cannot emit value <nil>"
  | unknownStatement kind => "verilog: cannot emit statement " ++ kind

/-! ### Widths -/

/-- Whether the widths that a node needs are known. -/
def nodeMeasurable : Value → Bool
  | .binary tag op l r => op.isComparison || (Value.binary tag op l r).measurable
  | .slice _ x _ _ => indexable x || x.measurable
  | _ => true

/-- Whether the widths that a value needs are known. -/
def valueMeasurable (v : Value) : Bool := v.walk.all nodeMeasurable

/-- Whether the widths that a statement needs for its own values are known. -/
def stmtMeasurable : Circuit.Stmt → Bool
  | .assign _ v => valueMeasurable v
  | .branch test _ _ => valueMeasurable test
  | .select test arms other =>
    (arms.isEmpty && (other.getD []).isEmpty) || valueMeasurable test
  | _ => true

/-- Whether the width of the test of a selection is known where its arms need it. -/
def armsMeasurable : Circuit.Stmt → Bool
  | .select test arms _ => arms.isEmpty || test.measurable
  | _ => true

/-- Whether `p` holds for every statement of a fragment. -/
def everywhere (p : Circuit.Stmt → Bool) (f : Fragment) : Bool :=
  (walk f.comb).all p && (walk f.sync).all p

/-! ### Expressions -/

def Names.signalName (n : Names) (s : Signal) : String := ((n.net? s).map Net.ident).getD ""

def Names.wireName (n : Names) (v : Value) : String := ((n.wire? v).map Wire.ident).getD ""

/-- The name that a slice `v` of `x` indexes. -/
def Names.baseName (n : Names) (v x : Value) : String :=
  match x with
  | .signal s => n.signalName s
  | _ => if indexable x then n.wireName x else n.wireName v

/-- A range of bits of a name that stands for `width` bits. -/
def select (ident : String) (width lo hi : Int) : Expr :=
  if width = 1 then .name ident
  else if wrap (hi - lo) = 1 then .bit ident lo
  else .part ident (wrap (hi - 1)) lo

def exprOf (n : Names) : Value → Except Fault Expr
  | .hole => .error .missingValue
  | .signal s => .ok (.name (n.signalName s))
  | .const _ l => .ok (.number (.ofInt64 l.value l.bits))
  | .binary tag op l r =>
    match n.wire? (.binary tag op l r) with
    | some w => .ok (.name w.ident)
    | none => do
      let left ← exprOf n l
      let right ← exprOf n r
      return .binary op left right
  | .slice tag x lo hi => .ok (select (n.baseName (.slice tag x lo hi) x) x.width lo hi)

/-- The expression that a wire stands for. -/
def wireValue (n : Names) (w : Wire) : Except Fault Expr :=
  match w.node with
  | .binary _ op l r => do
    let left ← exprOf n l
    let right ← exprOf n r
    return .binary op left right
  | .slice _ x _ _ => exprOf n x
  | v => exprOf n v

/-! ### Statements -/

mutual

/-- The statements that a statement is written as. A selection without arms is left out. -/
def stmtOf (n : Names) : Circuit.Stmt → Except Fault (List Stmt)
  | .hole => .error (.unknownStatement "<nil>")
  | .assign t v => do
    let value ← exprOf n v
    return [.assign (n.signalName t) value]
  | .branch test yes no => do
    let cond ← exprOf n test
    let yes ← stmtsOf n yes
    let no ← stmtsOfOption n no
    return [.branch cond yes no]
  | .select test arms other =>
    if arms.isEmpty && (other.getD []).isEmpty then .ok []
    else do
      let subject ← exprOf n test
      let arms ← armsOf n test.width arms
      let other ← stmtsOfOption n other
      return [.select subject arms other]
  | .marker m => .error (.unknownStatement m.kind)

def stmtsOf (n : Names) : List Circuit.Stmt → Except Fault (List Stmt)
  | [] => return []
  | s :: ss => do
    let a ← stmtOf n s
    let b ← stmtsOf n ss
    return a ++ b

/-- The statements of a block that may be absent. One without statements is left out. -/
def stmtsOfOption (n : Names) : Option (List Circuit.Stmt) → Except Fault (Option (List Stmt))
  | none => return none
  | some [] => return none
  | some (s :: ss) => do
    let a ← stmtOf n s
    let b ← stmtsOf n ss
    return some (a ++ b)

def armsOf (n : Names) (width : Int) :
    List (Literal × List Circuit.Stmt) → Except Fault (List (Number × List Stmt))
  | [] => return []
  | (l, body) :: arms => do
    let body ← stmtsOf n body
    let rest ← armsOf n width arms
    return (.ofInt64 l.value width, body) :: rest

end

/-! ### Modules -/

def netFault? (n : Net) : Option Fault :=
  if n.comb && n.sync then some (.multipleDrivers n.ident)
  else if n.port = some .input && n.driven then some (.drivenInput n.ident)
  else none

def portOf? (n : Net) : Option PortDecl :=
  if n.isInput then some ⟨.input, false, n.signal.bits, n.ident⟩
  else n.port.map fun _ => ⟨.output, n.driven, n.signal.bits, n.ident⟩

def declOf? (n : Net) : Option Decl :=
  match n.port with
  | some .output => if n.driven then none else some (.constant n.ident (.resetOf n.signal))
  | some .input => none
  | none => if n.driven then some (.reg n.signal.bits n.ident (.resetOf n.signal)) else none

def moduleName (name : String) : String :=
  if name = "" || keywords.contains name then "top" else legalName name

/-- A block with the reset values of the nets that it drives, unless there is nothing in it. -/
def blockOf (n : Names) (driven : Net → Bool) (ss : List Circuit.Stmt) :
    Except Fault (Option Block) := do
  if ss.isEmpty then return none
  let body ← stmtsOf n ss
  return some ⟨(n.nets.filter driven).map fun net => (net.ident, .resetOf net.signal), body⟩

/-- The module of a fragment whose widths are known. Wires are declared in reverse, so that the
parts of a value come before it. -/
def moduleOf (name digest : String) (n : Names) (f : Fragment) : Except Fault Module := do
  let wires ← n.wires.reverse.mapM fun w => do
    let value ← wireValue n w
    return Decl.wire w.width w.ident value
  let comb ← blockOf n Net.comb f.comb
  let sync ← blockOf n Net.sync f.sync
  return {
    ident := moduleName name
    digest
    ports := n.nets.filterMap portOf?
    decls := n.nets.filterMap declOf? ++ wires
    comb
    sync }

/-- Write a fragment as a module with the given ports. -/
def ofFragment (name digest : String) (ports : List Port) (f : Fragment) : Except Fault Module :=
  match f.firstMarker? with
  | some m => .error (.unresolved m)
  | none =>
    if everywhere stmtMeasurable f then
      let n := Names.ofFragment ports f
      match n.nets.findSome? netFault? with
      | some e => .error e
      | none =>
        if everywhere armsMeasurable f then moduleOf name digest n f else .error .unmeasurable
    else .error .unmeasurable

end Sequencer.Verilog
