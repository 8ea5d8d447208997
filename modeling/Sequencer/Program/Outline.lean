import Sequencer.Program.Basic

/-!
# Outlines

A program as an indented outline, one line for each node of its syntax tree, and the list of its
nodes with their positions.
-/

namespace Sequencer.Program

/-! ### The indented outline -/

/-- One line of an outline, indented by two blanks for each level. -/
def outlineLine (level : Nat) (text : String) : String :=
  String.ofList (List.replicate (2 * level) ' ') ++ text ++ "\n"

mutual

/-- The outline of an expression whose own line stands at the given level. -/
def Expr.outline (level : Nat) : Expr → String
  | .name _ ident => outlineLine level ("Name " ++ ident)
  | .int _ _ raw => outlineLine level ("IntLiteral " ++ raw)
  | .bool _ value => outlineLine level ("BoolLiteral " ++ if value then "true" else "false")
  | .binary _ op left right =>
    outlineLine level ("BinaryExpr op=" ++ op.token.name) ++ left.outline (level + 1)
      ++ right.outline (level + 1)
  | .compare first links =>
    let ops := ", ".intercalate (links.map fun (op, _, _) => op.token.name)
    outlineLine level s!"CompareExpr ops=[{ops}]" ++ first.outline (level + 1)
      ++ outlineLinks (level + 1) links
  | .boolOp _ op first others =>
    outlineLine level ("BoolOpExpr op=" ++ op.token.name) ++ first.outline (level + 1)
      ++ outlineExprs (level + 1) others
  | .unary _ op operand =>
    outlineLine level ("UnaryExpr op=" ++ op.token.name) ++ operand.outline (level + 1)
  | .call func _ args _ =>
    outlineLine level "CallExpr" ++ outlineLine (level + 1) "Func:" ++ func.outline (level + 2)
      ++ (if args.isEmpty then "" else outlineLine (level + 1) "Args:")
      ++ outlineExprs (level + 2) args
  | .attr object field _ =>
    outlineLine level ("AttributeExpr name=" ++ field) ++ object.outline (level + 1)
  | .list _ elements _ => outlineLine level "ListLiteral" ++ outlineExprs (level + 1) elements
  | .yield _ value => outlineLine level "YieldExpr" ++ outlineOption (level + 1) value

def outlineExprs (level : Nat) : List Expr → String
  | [] => ""
  | e :: es => e.outline level ++ outlineExprs level es

/-- The outlines of the right-hand operands of a comparison chain. -/
def outlineLinks (level : Nat) : List (CompareOp × Position × Expr) → String
  | [] => ""
  | (_, _, e) :: es => e.outline level ++ outlineLinks level es

def outlineOption (level : Nat) : Option Expr → String
  | none => ""
  | some e => e.outline level

end

def Param.outline (p : Param) : String := outlineLine 0 ("Param name=" ++ p.name)

mutual

/-- The outline of a statement whose own line stands at the given level. -/
def Stmt.outline (level : Nat) : Stmt → String
  | .funcDef _ name _ params body =>
    let names := ", ".intercalate (params.map Param.name)
    outlineLine level s!"FuncDef name={name} params=[{names}]"
      ++ outlineLine (level + 1) "Body:" ++ outlineStmts (level + 2) body
  | .assign target others _ value =>
    outlineLine level "Assign" ++ outlineLine (level + 1) "Targets:"
      ++ outlineExprs (level + 2) (target :: others)
      ++ outlineLine (level + 1) "Value:" ++ value.outline (level + 2)
  | .expr value => outlineLine level "ExprStmt" ++ value.outline (level + 1)
  | .cond _ test body orElse =>
    outlineLine level "IfStmt" ++ outlineLine (level + 1) "Cond:" ++ test.outline (level + 2)
      ++ outlineLine (level + 1) "Then:" ++ outlineStmts (level + 2) body
      ++ (if orElse.isEmpty then "" else outlineLine (level + 1) "Else:")
      ++ outlineStmts (level + 2) orElse
  | .loop _ test body =>
    outlineLine level "WhileStmt" ++ outlineLine (level + 1) "Cond:" ++ test.outline (level + 2)
      ++ outlineLine (level + 1) "Body:" ++ outlineStmts (level + 2) body
  | .each _ target iter body =>
    outlineLine level "ForStmt" ++ outlineLine (level + 1) "Target:"
      ++ target.outline (level + 2) ++ outlineLine (level + 1) "Iter:" ++ iter.outline (level + 2)
      ++ outlineLine (level + 1) "Body:" ++ outlineStmts (level + 2) body
  | .ret _ result => outlineLine level "ReturnStmt" ++ outlineOption (level + 1) result
  | .pass _ => outlineLine level "PassStmt"
  | .brk _ => outlineLine level "BreakStmt"
  | .cont _ => outlineLine level "ContinueStmt"

def outlineStmts (level : Nat) : List Stmt → String
  | [] => ""
  | s :: ss => s.outline level ++ outlineStmts level ss

end

def Module.outline (m : Module) : String :=
  outlineLine 0 "Module" ++ outlineStmts 1 m.body

/-! ### Nodes and positions -/

def nodeAt (kind : String) (pos : Position) : String := kind ++ "@" ++ pos.toText

mutual

def Expr.nodes : Expr → List String
  | .name pos ident => [nodeAt "Name" pos ++ " " ++ ident]
  | .int pos value _ => [nodeAt "Int" pos ++ " " ++ toString value.toInt]
  | .bool pos _ => [nodeAt "Bool" pos]
  | .binary opPos _ left right =>
    (nodeAt "Binary" left.pos ++ " " ++ nodeAt "op" opPos) :: (left.nodes ++ right.nodes)
  | .compare first links =>
    let ops := links.map fun (_, p, _) => " " ++ nodeAt "op" p
    (nodeAt "Compare" first.pos ++ String.join ops) :: (first.nodes ++ linkNodes links)
  | .boolOp opPos _ first others =>
    (nodeAt "BoolOp" first.pos ++ " " ++ nodeAt "op" opPos) :: (first.nodes ++ exprNodes others)
  | .unary opPos _ operand => nodeAt "Unary" opPos :: operand.nodes
  | .call func lparen args rparen =>
    (nodeAt "Call" func.pos ++ " " ++ nodeAt "lparen" lparen ++ " " ++ nodeAt "rparen" rparen)
      :: (func.nodes ++ exprNodes args)
  | .attr object _ fieldPos =>
    (nodeAt "Attribute" object.pos ++ " " ++ nodeAt "name" fieldPos) :: object.nodes
  | .list lbracket elements rbracket =>
    (nodeAt "List" lbracket ++ " " ++ nodeAt "rbracket" rbracket) :: exprNodes elements
  | .yield pos value => nodeAt "Yield" pos :: optionNodes value

def exprNodes : List Expr → List String
  | [] => []
  | e :: es => e.nodes ++ exprNodes es

def linkNodes : List (CompareOp × Position × Expr) → List String
  | [] => []
  | (_, _, e) :: es => e.nodes ++ linkNodes es

def optionNodes : Option Expr → List String
  | none => []
  | some e => e.nodes

end

mutual

def Stmt.nodes : Stmt → List String
  | .funcDef pos _ namePos params body =>
    (nodeAt "FuncDef" pos ++ " " ++ nodeAt "name" namePos)
      :: (params.map (fun p => nodeAt "Param" p.pos) ++ stmtNodes body)
  | .assign target others opPos value =>
    (nodeAt "Assign" target.pos ++ " " ++ nodeAt "op" opPos)
      :: (target.nodes ++ exprNodes others ++ value.nodes)
  | .expr value => nodeAt "ExprStmt" value.pos :: value.nodes
  | .cond pos test body orElse =>
    nodeAt "If" pos :: (test.nodes ++ stmtNodes body ++ stmtNodes orElse)
  | .loop pos test body => nodeAt "While" pos :: (test.nodes ++ stmtNodes body)
  | .each pos target iter body =>
    nodeAt "For" pos :: (target.nodes ++ iter.nodes ++ stmtNodes body)
  | .ret pos result => nodeAt "Return" pos :: optionNodes result
  | .pass pos => [nodeAt "Pass" pos]
  | .brk pos => [nodeAt "Break" pos]
  | .cont pos => [nodeAt "Continue" pos]

def stmtNodes : List Stmt → List String
  | [] => []
  | s :: ss => s.nodes ++ stmtNodes ss

end

def Module.nodes (m : Module) : List String := stmtNodes m.body

def Module.params (m : Module) : List Param :=
  m.body.flatMap fun
    | .funcDef _ _ _ params _ => params
    | _ => []

end Sequencer.Program
