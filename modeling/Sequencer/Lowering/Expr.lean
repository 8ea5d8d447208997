import Sequencer.Lowering.Env

/-!
# Expressions

Expressions are evaluated at compile time, where an integer is needed, or into hardware. A
comparison chain is the conjunction of its comparisons, in which every operand is made once and
shared.
-/

namespace Sequencer.Lowering

open Circuit Program

/-! ### Compile-time integers -/

/-- The integer that a binary operator folds to; none for an operator that does not fold. -/
def foldBinary? (pos : Position) (op : BinaryOp) (l r : Int64) : Option (Except Fault Int64) :=
  match op with
  | .add => some (.ok (l + r))
  | .sub => some (.ok (l - r))
  | .mul => some (.ok (l * r))
  | .or => some (.ok (l ||| r))
  | .xor => some (.ok (l ^^^ r))
  | .and => some (.ok (l &&& r))
  | .shl | .shr =>
    if r < 0 || 63 < r then some (.error (.unsupported pos (.shiftCount r.toInt)))
    else some (.ok (if op = .shl then l <<< r else l >>> r))
  | .div | .mod => none

/-- The value of an expression at compile time. Literals, names bound to integers, signs and the
binary operators fold. -/
def constInt (env : Env) : Expr → Except Fault Int64
  | .int _ value _ => .ok value
  | .bool _ value => .ok (if value then 1 else 0)
  | .name pos ident =>
    match env.lookup ident with
    | some (.int v) => .ok v
    | some _ => .error (.unsupported pos (.nameNotConstant ident))
    | none => .error (.scope pos ident .notDefined)
  | .unary opPos op operand => do
    let x ← constInt env operand
    match op with
    | .neg => return -x
    | .pos => return x
    | .invert => return ~~~x
    | .not => throw (.unsupported opPos (.exprNotConstant (Expr.unary opPos op operand).describe))
  | .binary opPos op left right => do
    let l ← constInt env left
    let r ← constInt env right
    match foldBinary? opPos op l r with
    | some result => result
    | none =>
      throw (.unsupported left.pos (.exprNotConstant (Expr.binary opPos op left right).describe))
  | e => .error (.unsupported e.pos (.exprNotConstant e.describe))

/-! ### Hardware -/

def hardwareOp? : BinaryOp → Option Op
  | .add => some .add
  | .sub => some .sub
  | .mul => some .mul
  | .shl => some .shl
  | .shr => some .shr
  | .or => some .or
  | .xor => some .xor
  | .and => some .and
  | .div | .mod => none

def hardwareCompare : CompareOp → Op
  | .eq => .eq
  | .ne => .ne
  | .lt => .lt
  | .le => .le
  | .gt => .gt
  | .ge => .ge

def lowerName (env : Env) (pos : Position) (ident : String) : Build Value :=
  match env.lookup ident with
  | none => throw (.scope pos ident .notDefined)
  | some (.value v) => return v
  | some (.register id) => do
    let r ← Build.register id
    return .signal r.storage
  | some (.int v) => Build.ofFresh (Value.newConst (.fit v))
  | some (.intrinsic i) => throw (.unsupported pos (.intrinsicAsValue i.name))
  | some (.resource _) => throw (.unsupported pos (.resourceAsValue ident))

def calledIntrinsic (env : Env) (func : Expr) : Except Fault Intrinsic :=
  match func with
  | .name pos ident =>
    match env.lookup ident with
    | none => .error (.scope pos ident .notDefined)
    | some (.intrinsic i) => .ok i
    | some (.resource _) => .error (.unsupported pos (.resourceOutsideYield ident))
    | some _ => .error (.unsupported pos (.callTo ident))
  | e => .error (.unsupported e.pos (.callOf e.describe))

def calleeName : Expr → String
  | .name _ ident => ident
  | _ => ""

/-- Some bits of a value. The bounds must lie within its width. -/
def sliceOf (pos : Position) (v : Value) (lo hi : Int64) : Build Value :=
  if !v.measurable then throw .unmeasurable
  else if lo < 0 || hi ≤ lo || v.width < hi.toInt then
    throw (.unsupported pos (.sliceBounds lo.toInt hi.toInt v.width))
  else Build.ofFresh (Value.newSlice v lo.toInt hi.toInt)

mutual

def lowerExpr (env : Env) : Expr → Build Value
  | .int _ value _ => Build.ofFresh (Value.newConst (.fit value))
  | .bool _ value => Build.ofFresh (Value.newConst (.sized (if value then 1 else 0) 1))
  | .name pos ident => lowerName env pos ident
  | .binary opPos op left right =>
    match hardwareOp? op with
    | none => throw (.unsupported opPos (.operator op.token.name))
    | some hop => do
      let l ← lowerExpr env left
      let r ← lowerExpr env right
      Build.ofFresh (Value.newBinary hop l r)
  | .compare first links => do
    let v ← lowerExpr env first
    lowerLinks env v none links
  | .call func _ args _ => do
    match ← Build.ofExcept (calledIntrinsic env func) with
    | .register => throw (.unsupported func.pos .registerInExpression)
    | .bitslice =>
      match args with
      | [x, lo] => do
        let v ← lowerExpr env x
        let lo ← Build.ofExcept (constInt env lo)
        sliceOf func.pos v lo (lo + 1)
      | [x, lo, hi] => do
        let v ← lowerExpr env x
        let lo ← Build.ofExcept (constInt env lo)
        let hi ← Build.ofExcept (constInt env hi)
        sliceOf func.pos v lo hi
      | _ => throw (.arity func.pos (calleeName func) args.length .twoOrThree)
    | .unknown code => throw (.unsupported func.pos (.intrinsic (Intrinsic.unknown code).name))
  | e => throw (.unsupported e.pos (.exprForm e.describe))

/-- The conjunction of `result`, if there is one, with the comparisons of a chain that starts at the
operand `left`. -/
def lowerLinks (env : Env) (left : Value) (result : Option Value) :
    List (CompareOp × Position × Expr) → Build Value
  | [] => return result.getD .hole
  | (op, _, e) :: links => do
    let right ← lowerExpr env e
    let test ← Build.ofFresh (Value.newBinary (hardwareCompare op) left right)
    let result ← match result with
      | none => pure test
      | some r => Build.ofFresh (Value.newBinary .and r test)
    lowerLinks env right (some result) links

end

/-- What stands on the right of an assignment. -/
inductive Operand where
  | value (v : Value)
  /-- A new register of the given width. -/
  | register (width : Int)

/-- The right-hand side of an assignment, where a register may be declared. -/
def lowerOperand (env : Env) (e : Expr) (allowRegister : Bool) : Build Operand :=
  match e with
  | .call func _ args _ => do
    match ← Build.ofExcept (calledIntrinsic env func) with
    | .register =>
      if !allowRegister then throw (.unsupported func.pos .registerInExpression)
      match args with
      | [width] => do
        let w ← Build.ofExcept (constInt env width)
        if w < 1 then throw (.unsupported width.pos (.registerWidth w.toInt))
        return .register w.toInt
      | _ => throw (.arity func.pos (calleeName func) args.length (.exactly 1))
    | _ => return .value (← lowerExpr env e)
  | e => return .value (← lowerExpr env e)

def lookupRegister (env : Env) (pos : Position) (ident : String) : Except Fault RegisterId :=
  match env.lookup ident with
  | none => .error (.scope pos ident .notDefined)
  | some (.register id) => .ok id
  | some _ => .error (.unsupported pos (.notARegister ident))

/-- The register that an argument names. -/
def registerArg (env : Env) (e : Expr) : Except Fault RegisterId :=
  match e with
  | .name pos ident => lookupRegister env pos ident
  | e => .error (.unsupported e.pos (.registerNameExpected e.describe))

/-- The arguments of a call, evaluated in the scope of the call. -/
def Env.lowerer (env : Env) : Lowerer :=
  { value := lowerExpr env, register := fun e => Build.ofExcept (registerArg env e) }

end Sequencer.Lowering
