import Sequencer.Lowering.Expr

/-!
# Statements

Every statement becomes a block of states. A store takes one state, a `yield` those of its resource,
and a test one of its own, the **guard**; a `for` loop is unrolled, and a register declaration takes
no state.
-/

namespace Sequencer.Lowering

open Circuit Program

/-- What has been made so far, and the names in scope. -/
structure Session where
  env : Env
  shop : Workshop

/-- A compilation step. -/
abbrev Lower := ExceptT Fault (StateM Session)

namespace Lower

/-- A construction step that reads the names in scope. -/
def build {α : Type} (f : Env → Build α) : Lower α :=
  fun s => let (r, shop) := f s.env s.shop; (r, { s with shop })

def bindRegister (pos : Position) (name : String) (id : RegisterId) : Lower Unit :=
  fun s =>
    match s.env.bind name (.register id) with
    | some env => (.ok (), { s with env })
    | none => (.error (.scope pos name .loopVariable), s)

/-- Run a step with a loop variable bound, and unbind it again whatever happens. -/
def withLoopVar {α : Type} (name : String) (v : Int64) (x : Lower α) : Lower α :=
  fun s =>
    let (r, s) := x { s with env := (s.env.push name (.int v)).getD s.env }
    match s.env.pop name with
    | some env => (r, { s with env })
    | none => (.error (.unbalanced name), s)

end Lower

/-! ### Assignments -/

def targetName? : Expr → Option (Position × String)
  | .name pos ident => some (pos, ident)
  | _ => none

/-- The register that an assignment to `name.store` loads. -/
def storeTarget (env : Env) (t : Expr) : Except Fault RegisterId :=
  match t with
  | .attr object field _ =>
    if field = "store" then
      match object with
      | .name pos ident => lookupRegister env pos ident
      | e => .error (.unsupported t.pos (.storeInto e.describe))
    else .error (.unsupported t.pos (.assignmentTo t.describe))
  | _ => .error (.unsupported t.pos (.assignmentTo t.describe))

/-- Load the register of a target with a value. -/
def store (env : Env) (v : Value) (t : Expr) : Build Circuit.Stmt := do
  let id ← Build.ofExcept (storeTarget env t)
  let r ← Build.register id
  let v ← Build.ofFresh (v.extend r.storage.bits)
  Build.load id v

def declare (targets : List Expr) (width : Int) : Lower Block := do
  let names := targets.filterMap targetName?
  let name := (names.head?.map Prod.snd).getD ""
  let id ← Lower.build fun _ => do
    let id ← Build.newRegister name width none
    modify fun w => { w with declared := w.declared ++ [id] }
    return id
  names.forM fun (pos, n) => Lower.bindRegister pos n id
  Lower.build fun _ => do
    let r ← Build.register id
    Build.note s!"register {Text.quote r.name} width {r.storage.bits}"
  return .empty

/-- An assignment: either a declaration, or one state that loads every target. -/
def lowerAssign (targets : List Expr) (value : Expr) : Lower Block := do
  let operand ← Lower.build fun env =>
    lowerOperand env value (targets.all fun t => (targetName? t).isSome)
  match operand with
  | .register width => declare targets width
  | .value v =>
    Lower.build fun env => do
      let loads ← targets.mapM (store env v)
      return .single (← Build.newState loads)

/-! ### Input and output -/

def lowerYield (env : Env) (pos : Position) (value : Option Expr) : Build Block :=
  match value with
  | some (.call func _ args _) =>
    match func with
    | .name fpos ident =>
      match env.lookup ident with
      | none => throw (.scope fpos ident .notDefined)
      | some (.resource r) =>
        tryCatch (r.sequence env.lowerer args) fun
          | .argument _ given wanted => throw (.arity fpos ident given (.exactly wanted))
          | e => throw e
      | some _ => throw (.unsupported fpos (.notAResource ident))
    | e => throw (.unsupported func.pos (.yieldOfCallTo e.describe))
  | _ => throw (.unsupported pos .yieldOfOther)

/-! ### Loops -/

/-- The limit on the iterations of one loop. -/
def maxUnroll : Nat := 65536

/-- Whether `v` still lies before `stop` in the direction of `step`. -/
def beforeStop (stop step v : Int64) : Bool :=
  (0 < step && v < stop) || (step < 0 && stop < v)

/-- The values from `v` on, in the direction of `step` and before `stop`, after those in `acc`, of
which the last is the first. None if there are more than `fuel` of them. -/
def rangeFrom (stop step : Int64) : (fuel : Nat) → (v : Int64) → (acc : List Int64) →
    Option (List Int64)
  | 0, v, acc => if beforeStop stop step v then none else some acc.reverse
  | fuel + 1, v, acc =>
    if beforeStop stop step v then rangeFrom stop step fuel (v + step) (v :: acc)
    else some acc.reverse

/-- The bounds and the step that the arguments of `range` give. -/
def rangeBounds : List Int64 → Int64 × Int64 × Int64
  | [stop] => (0, stop, 1)
  | [start, stop] => (start, stop, 1)
  | start :: stop :: step :: _ => (start, stop, step)
  | [] => (0, 0, 1)

/-- The integers that a loop runs over: a list of compile-time integers, or a range. -/
def iterValues (env : Env) (iter : Expr) : Except Fault (List Int64) :=
  match iter with
  | .list _ elements _ => elements.mapM (constInt env)
  | .call (.name pos "range") _ args _ => do
    if args.length < 1 || 3 < args.length then
      throw (.arity pos "range" args.length .oneToThree)
    let values ← args.mapM (constInt env)
    let (start, stop, step) := rangeBounds values
    if step = 0 then throw (.unsupported ((args[2]?.map Expr.pos).getD pos) .zeroStep)
    match rangeFrom stop step maxUnroll start [] with
    | some values => return values
    | none => throw (.unsupported pos (.tooManyIterations maxUnroll))
  | e => throw (.unsupported e.pos (.iterationOver e.describe))

/-- The variable of a loop, which must not be bound yet. -/
def loopTarget (env : Env) (target : Expr) : Except Fault String :=
  match target with
  | .name pos ident =>
    if (env.lookup ident).isSome then .error (.scope pos ident .alreadyBound) else .ok ident
  | e => .error (.unsupported e.pos (.loopTarget e.describe))

/-- One copy of the body for each value, one after another. -/
def unroll (name : String) (body : Lower Block) (acc : Block) : List Int64 → Lower Block
  | [] => return acc
  | v :: vs => do
    let b ← Lower.withLoopVar name v body
    unroll name body (acc.andThen b) vs

/-! ### Guards -/

/-- A block with a guard in front of `body`, which must not be empty. -/
def guarded (empty : Fault) (body : Block) (test : Value) (orElse : Option (List Circuit.Stmt))
    (block : State → Block) : Build Block :=
  match body.entry? with
  | none => throw empty
  | some entry => return block (← Build.newState [.branch test [goto entry] orElse])

/-- A guard in front of the branches of a conditional. Without an alternative control goes on from
the guard itself when the test fails. -/
def guardCond (pos : Position) (test : Value) (yes no : Block) : Build Block :=
  let orElse := no.entry?.map fun e => [goto e]
  guarded (.unsupported pos .emptyBranch) yes test orElse fun guard =>
    { states := guard :: (yes.states ++ no.states)
      exits := yes.exits ++ no.exits ++ (if orElse.isSome then [] else [guard.label]) }

/-- A guard in front of the body of a loop, to which the body returns. -/
def guardLoop (pos : Position) (test : Value) (body : Block) : Build Block :=
  guarded (.unsupported pos .emptyLoop) body test none fun guard =>
    { states := guard :: Block.connect body.states body.exits guard.label
      exits := [guard.label] }

mutual

def lowerStmt : Program.Stmt → Lower Block
  | .assign target others _ value => lowerAssign (target :: others) value
  | .cond pos test body orElse => do
    let t ← Lower.build fun env => lowerExpr env test
    let yes ← lowerStmts .empty body
    let no ← lowerStmts .empty orElse
    Lower.build fun _ => guardCond pos t yes no
  | .loop pos test body => do
    let t ← Lower.build fun env => lowerExpr env test
    let b ← lowerStmts .empty body
    Lower.build fun _ => guardLoop pos t b
  | .each _ target iter body => do
    let name ← Lower.build fun env => Build.ofExcept (loopTarget env target)
    let values ← Lower.build fun env => Build.ofExcept (iterValues env iter)
    let b ← unroll name (lowerStmts .empty body) .empty values
    Lower.build fun _ => Build.note
      s!"unrolled for {name} over {values.length} values into {b.states.length} states"
    return b
  | .expr (.yield pos value) => Lower.build fun env => lowerYield env pos value
  | .expr e => throw (.unsupported e.pos .expressionStatement)
  | .funcDef pos _ _ _ _ => throw (.unsupported pos .nestedFunction)
  | .ret pos _ => throw (.unsupported pos .returnStatement)
  | .pass pos => throw (.unsupported pos .passStatement)
  | .brk pos => throw (.unsupported pos .breakStatement)
  | .cont pos => throw (.unsupported pos .continueStatement)

/-- The states of some statements, one after another, after those of `acc`. -/
def lowerStmts (acc : Block) : List Program.Stmt → Lower Block
  | [] => return acc
  | s :: ss => do
    let b ← lowerStmt s
    lowerStmts (acc.andThen b) ss

end

end Sequencer.Lowering
