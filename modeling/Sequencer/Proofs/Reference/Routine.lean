import Sequencer.Proofs.Design.Wiring

/-!
# What a program means

An interpreter that knows nothing of states, selectors or hardware. It resolves the names of a
function and writes its loops out, which gives a **routine**, and runs the routine one step in each
cycle. A store writes all its targets at once; a `yield` offers or asks until the cycle in which it
is answered. When nothing is left to do, the last step is done again and again.
-/

namespace Sequencer.Reference

open Circuit Lowering Program Simulation

/-- What is left to do of a function body, with its names resolved. -/
inductive Routine where
  | finish
  /-- Store a value into some registers at once. -/
  | store (targets : List Signal) (value : Value) (rest : Routine)
  | send (c : Channel) (value : Value) (rest : Routine)
  | receive (c : Channel) (target : Signal) (rest : Routine)
  | cond (test : Value) (yes no rest : Routine)
  | loop (test : Value) (body rest : Routine)

namespace Routine

def append : Routine → Routine → Routine
  | finish, q => q
  | store targets value rest, q => store targets value (rest.append q)
  | send c value rest, q => send c value (rest.append q)
  | receive c target rest, q => receive c target (rest.append q)
  | cond test yes no rest, q => cond test yes no (rest.append q)
  | loop test body rest, q => loop test body (rest.append q)

end Routine

/-! ### Resolving names -/

def storageOf (id : RegisterId) : Build Signal := do
  return (← Build.register id).storage

/-- An assignment: a declaration, which is nothing to do, or a store. -/
def resolveAssign (targets : List Expr) (value : Expr) : Lower Routine := do
  let operand ← Lower.build fun env =>
    lowerOperand env value (targets.all fun t => (targetName? t).isSome)
  match operand with
  | .register width => do
    let _ ← declare targets width
    return .finish
  | .value v => Lower.build fun env => do
    let signals ← targets.mapM fun t => do storageOf (← Build.ofExcept (storeTarget env t))
    return .store signals v .finish

def resolveYield (env : Env) (pos : Position) (value : Option Expr) : Build Routine :=
  match value with
  | some (.call (.name _ ident) _ [arg] _) =>
    match env.lookup ident with
    | some (.resource (.sink c)) => do return .send c (← lowerExpr env arg) .finish
    | some (.resource (.source c)) => do
      let id ← Build.ofExcept (registerArg env arg)
      return .receive c (← storageOf id) .finish
    | _ => throw (.unsupported pos .yieldOfOther)
  | _ => throw (.unsupported pos .yieldOfOther)

def resolveCopies (name : String) (body : Lower Routine) : List Int64 → Lower Routine
  | [] => return .finish
  | v :: vs => do
    let first ← Lower.withLoopVar name v body
    let others ← resolveCopies name body vs
    return first.append others

mutual

def resolveStmt : Program.Stmt → Lower Routine
  | .assign target others _ value => resolveAssign (target :: others) value
  | .cond _ test body orElse => do
    let t ← Lower.build fun env => lowerExpr env test
    let yes ← resolveStmts body
    let no ← resolveStmts orElse
    return .cond t yes no .finish
  | .loop _ test body => do
    let t ← Lower.build fun env => lowerExpr env test
    let b ← resolveStmts body
    return .loop t b .finish
  | .each _ target iter body => do
    let name ← Lower.build fun env => Build.ofExcept (loopTarget env target)
    let values ← Lower.build fun env => Build.ofExcept (iterValues env iter)
    resolveCopies name (resolveStmts body) values
  | .expr (.yield pos value) => Lower.build fun env => resolveYield env pos value
  | .expr e => throw (.unsupported e.pos .expressionStatement)
  | .funcDef pos _ _ _ _ => throw (.unsupported pos .nestedFunction)
  | .ret pos _ => throw (.unsupported pos .returnStatement)
  | .pass pos => throw (.unsupported pos .passStatement)
  | .brk pos => throw (.unsupported pos .breakStatement)
  | .cont pos => throw (.unsupported pos .continueStatement)

def resolveStmts : List Program.Stmt → Lower Routine
  | [] => return .finish
  | s :: ss => do
    let first ← resolveStmt s
    let others ← resolveStmts ss
    return first.append others

end

/-- A function with its names resolved. -/
structure Function where
  body : Routine
  /-- The signals that stand for the registers, in the order of their declarations. -/
  registers : List Signal
  resources : List Resource

/-- Read a program text and resolve the names of its only function. -/
def resolve (text : List Char) (o : Options) : Build Function := do
  let m ← Build.ofExcept (readProgram text)
  let (_, body) ← Build.ofExcept (Design.onlyFunction m)
  let env ← Build.ofExcept o.env
  let r ← (fun w => let (r, s) := resolveStmts body ⟨env, w⟩; (r, s.shop) : Build Routine)
  let w ← get
  return { body := r, registers := w.bank.registers.map Register.storage, resources := o.resources }

/-! ### Running -/

namespace Routine

/-- What is shown on output ports during a cycle. -/
def present (σ : Valuation) : Routine → Except Simulation.Fault (List Write)
  | finish => return []
  | store .. => return []
  | send c value _ => do
    let v ← eval σ (value.widened c.data.bits)
    return [(c.stb, 1), (c.data, truncate v c.data.bits)]
  | receive c _ _ => return [(c.ack, 1)]
  | cond test .. => do
    let _ ← eval σ test
    return []
  | loop test .. => do
    let _ ← eval σ test
    return []

/-- What is left to do after a step. The last step of a function is repeated. -/
def goOn (here rest : Routine) : Routine :=
  match rest with
  | finish => here
  | rest => rest

/-- What a clock edge changes: what is left to do, and the registers that are written. -/
def tick (σ : Valuation) : (r : Routine) → Except Simulation.Fault (Routine × List Write)
  | finish => return (finish, [])
  | store targets value rest => do
    let ws ← targets.mapM fun t => do
      let v ← eval σ (value.widened t.bits)
      return (t, truncate v t.bits)
    return (goOn (store targets value rest) rest, ws)
  | send c value rest =>
    let here := send c value rest
    return (if σ.get c.ack = 0 then here else goOn here rest, [])
  | receive c target rest =>
    let here := receive c target rest
    if σ.get c.stb = 0 then return (here, [])
    else return (goOn here rest, [(target, truncate (σ.get c.data) target.bits)])
  | cond test yes no rest => do
    let v ← eval σ test
    return (goOn (cond test yes no rest) (if v = 0 then no.append rest else yes.append rest), [])
  | loop test body rest => do
    let here := loop test body rest
    let v ← eval σ test
    return (if v = 0 then goOn here rest else body.append here, [])

end Routine

/-- Where a run of a function has got to: what is left to do, and the values of the registers and
the input ports. -/
structure Situation where
  todo : Routine
  values : Valuation

namespace Situation

def start (f : Function) : Except Simulation.Fault Situation := do
  let s : Situation := ⟨f.body, .empty⟩
  let _ ← s.todo.present s.values
  return s

def drive (s : Situation) (ws : List Write) : Situation :=
  { s with values := s.values.override (ws.map fun w => (w.1, truncate w.2 w.1.bits)) }

def advance (s : Situation) : Except Simulation.Fault Situation := do
  let (todo, ws) ← s.todo.tick s.values
  let s : Situation := ⟨todo, s.values.override ws⟩
  let _ ← s.todo.present s.values
  return s

end Situation

/-- What can be seen in a cycle: the registers in the order of their declarations, and the output
ports in order. -/
structure View where
  registers : List UInt64
  outputs : List UInt64
deriving DecidableEq, Repr

namespace Function

def view (f : Function) (s : Situation) : Except Simulation.Fault View := do
  let ws ← s.todo.present s.values
  return ⟨f.registers.map s.values.get,
    (portSignals f.resources .output).map fun x => (ws.reverse.lookup x).getD 0⟩

/-- What can be seen of a function after some cycles. Each cycle is given by what is put on the
input ports before its clock edge; in the present one it is `now`. -/
def run (f : Function) (past : List (List Write)) (now : List Write) :
    Except Simulation.Fault View := do
  let s ← Situation.start f
  let s ← past.foldlM (fun s ws => (s.drive ws).advance) s
  f.view (s.drive now)

end Function

end Sequencer.Reference
