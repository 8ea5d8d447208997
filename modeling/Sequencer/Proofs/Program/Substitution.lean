import Sequencer.Program.Basic

/-!
# Writing integers out

Where a name stands for an integer, the integer can be written in its place. The name of a called
function and the targets of assignments and loops are not read, so they stay.
-/

namespace Sequencer.Program

open Program.Expr

/-! ### Linked trees -/

/-- An expression in which every comparison chain has at least one link. -/
inductive Expr.Linked : Expr → Prop
  | name (pos : Position) (ident : String) : Linked (.name pos ident)
  | int (pos : Position) (value : Int64) (raw : String) : Linked (.int pos value raw)
  | bool (pos : Position) (value : Bool) : Linked (.bool pos value)
  | binary {pos : Position} {op : BinaryOp} {left right : Expr} (hleft : left.Linked)
      (hright : right.Linked) : Linked (.binary pos op left right)
  | compare {first : Expr} {links : List (CompareOp × Position × Expr)} (hfirst : first.Linked)
      (nonempty : links ≠ []) (hlinks : ∀ l ∈ links, l.2.2.Linked) : Linked (.compare first links)
  | boolOp {pos : Position} {op : BoolOp} {first : Expr} {others : List Expr}
      (hfirst : first.Linked) (hothers : ∀ e ∈ others, e.Linked) :
      Linked (.boolOp pos op first others)
  | unary {pos : Position} {op : UnaryOp} {operand : Expr} (hoperand : operand.Linked) :
      Linked (.unary pos op operand)
  | call {func : Expr} {lparen rparen : Position} {args : List Expr} (hfunc : func.Linked)
      (hargs : ∀ e ∈ args, e.Linked) : Linked (.call func lparen args rparen)
  | attr {object : Expr} {field : String} {pos : Position} (hobject : object.Linked) :
      Linked (.attr object field pos)
  | list {lbracket rbracket : Position} {elements : List Expr}
      (helements : ∀ e ∈ elements, e.Linked) : Linked (.list lbracket elements rbracket)
  | yield {pos : Position} {value : Option Expr} (hvalue : ∀ e ∈ value, e.Linked) :
      Linked (.yield pos value)

/-- A statement whose values and tests are linked. -/
inductive Stmt.Linked : Stmt → Prop
  | funcDef {pos namePos : Position} {name : String} {params : List Param} {body : List Stmt}
      (hbody : ∀ s ∈ body, s.Linked) : Linked (.funcDef pos name namePos params body)
  | assign {target : Expr} {others : List Expr} {pos : Position} {value : Expr}
      (hvalue : value.Linked) : Linked (.assign target others pos value)
  | expr {value : Expr} (hvalue : value.Linked) : Linked (.expr value)
  | cond {pos : Position} {test : Expr} {body orElse : List Stmt} (htest : test.Linked)
      (hbody : ∀ s ∈ body, s.Linked) (helse : ∀ s ∈ orElse, s.Linked) :
      Linked (.cond pos test body orElse)
  | loop {pos : Position} {test : Expr} {body : List Stmt} (htest : test.Linked)
      (hbody : ∀ s ∈ body, s.Linked) : Linked (.loop pos test body)
  | each {pos : Position} {target iter : Expr} {body : List Stmt} (hbody : ∀ s ∈ body, s.Linked) :
      Linked (.each pos target iter body)
  | ret (pos : Position) (result : Option Expr) : Linked (.ret pos result)
  | pass (pos : Position) : Linked (.pass pos)
  | brk (pos : Position) : Linked (.brk pos)
  | cont (pos : Position) : Linked (.cont pos)

/-! ### Substitution -/

section Subst

variable (σ : String → Option Int64)

mutual

/-- An expression with the integers that `σ` gives in the place of names. -/
def Expr.subst : Expr → Expr
  | .name pos ident =>
    match σ ident with
    | some v => .int pos v (toString v.toInt)
    | none => .name pos ident
  | .int pos value raw => .int pos value raw
  | .bool pos value => .bool pos value
  | .binary opPos op left right => .binary opPos op left.subst right.subst
  | .compare first links => .compare first.subst (substLinks links)
  | .boolOp opPos op first others => .boolOp opPos op first.subst (substExprs others)
  | .unary opPos op operand => .unary opPos op operand.subst
  | .call func lparen args rparen => .call func lparen (substExprs args) rparen
  | .attr object field fieldPos => .attr object.subst field fieldPos
  | .list lbracket elements rbracket => .list lbracket (substExprs elements) rbracket
  | .yield pos value => .yield pos (substOption value)

def substLinks : List (CompareOp × Position × Expr) → List (CompareOp × Position × Expr)
  | [] => []
  | (op, pos, e) :: links => (op, pos, e.subst) :: substLinks links

def substExprs : List Expr → List Expr
  | [] => []
  | e :: es => e.subst :: substExprs es

def substOption : Option Expr → Option Expr
  | none => none
  | some e => some e.subst

end

mutual

/-- A statement with the integers that `σ` gives in the place of the names it reads. -/
def Stmt.subst : Stmt → Stmt
  | .assign target others opPos value => .assign target others opPos (value.subst σ)
  | .expr value => .expr (value.subst σ)
  | .cond pos test body orElse =>
    .cond pos (test.subst σ) (substStmts body) (substStmts orElse)
  | .loop pos test body => .loop pos (test.subst σ) (substStmts body)
  | .each pos target iter body => .each pos target (iter.subst σ) (substStmts body)
  | .ret pos result => .ret pos (substOption σ result)
  | s => s

def substStmts : List Stmt → List Stmt
  | [] => []
  | s :: ss => s.subst :: substStmts ss

end

end Subst

def only (name : String) (v : Int64) : String → Option Int64 :=
  fun n => if n = name then some v else none

/-- The body of a loop once for each value, with the value in the place of the loop variable. -/
def copies (name : String) (body : List Stmt) (values : List Int64) : List Stmt :=
  values.flatMap fun v => substStmts (only name v) body

theorem substExprs_eq_map (σ : String → Option Int64) (es : List Expr) :
    substExprs σ es = es.map (subst σ) := by
  induction es with
  | nil => rfl
  | cons e es ih => rw [substExprs, ih, List.map_cons]

mutual

theorem Expr.subst_none (e : Expr) : e.subst (fun _ => none) = e := by
  match e with
  | .name _ _ | .int _ _ _ | .bool _ _ => rfl
  | .binary _ _ left right => rw [subst, left.subst_none, right.subst_none]
  | .compare first links => rw [subst, first.subst_none, substLinks_none links]
  | .boolOp _ _ first others => rw [subst, first.subst_none, substExprs_none others]
  | .unary _ _ operand => rw [subst, operand.subst_none]
  | .call _ _ args _ => rw [subst, substExprs_none args]
  | .attr object _ _ => rw [subst, object.subst_none]
  | .list _ elements _ => rw [subst, substExprs_none elements]
  | .yield _ value => rw [subst, substOption_none value]

theorem substLinks_none (links : List (CompareOp × Position × Expr)) :
    substLinks (fun _ => none) links = links := by
  match links with
  | [] => rfl
  | (_, _, e) :: links => rw [substLinks, e.subst_none, substLinks_none links]

theorem substExprs_none (es : List Expr) : substExprs (fun _ => none) es = es := by
  match es with
  | [] => rfl
  | e :: es => rw [substExprs, e.subst_none, substExprs_none es]

theorem substOption_none (o : Option Expr) : substOption (fun _ => none) o = o := by
  match o with
  | none => rfl
  | some e => rw [substOption, e.subst_none]

end

mutual

theorem Stmt.subst_none (s : Stmt) : s.subst (fun _ => none) = s := by
  match s with
  | .assign _ _ _ value => rw [Stmt.subst, value.subst_none]
  | .expr value => rw [Stmt.subst, value.subst_none]
  | .cond _ test body orElse =>
    rw [Stmt.subst, test.subst_none, substStmts_none body, substStmts_none orElse]
  | .loop _ test body => rw [Stmt.subst, test.subst_none, substStmts_none body]
  | .each _ _ iter body => rw [Stmt.subst, iter.subst_none, substStmts_none body]
  | .ret _ result => rw [Stmt.subst, substOption_none result]
  | .funcDef .. | .pass _ | .brk _ | .cont _ => rfl

theorem substStmts_none (ss : List Stmt) : substStmts (fun _ => none) ss = ss := by
  match ss with
  | [] => rfl
  | s :: ss => rw [substStmts, s.subst_none, substStmts_none ss]

end

end Sequencer.Program
