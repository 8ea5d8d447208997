import Sequencer.Handshake

/-!
# Verilog modules

The part of Verilog that designs are written in: one module with a single clock domain.
`Module.render` is its text.
-/

namespace Sequencer.Verilog

open Circuit

/-! ### Parts of a module -/

/-- A sized unsigned number, such as `4'd10`. -/
structure Number where
  width : Int
  value : UInt64
deriving DecidableEq, Repr, Inhabited

/-- A number of the given width. A negative number is written in two's complement. -/
def Number.ofInt64 (v : Int64) (width : Int) : Number := ⟨width, truncate v.toUInt64 width⟩

/-- The value that a signal starts with. -/
def Number.resetOf (s : Signal) : Number := .ofInt64 s.reset s.bits

/-- An expression. Only names can be indexed. -/
inductive Expr where
  | name (ident : String)
  | number (n : Number)
  | binary (op : Op) (left right : Expr)
  | bit (ident : String) (index : Int)
  | part (ident : String) (high low : Int)
deriving DecidableEq, Repr, Inhabited

/-- A statement inside a block. The kind of assignment depends on the block. -/
inductive Stmt where
  | assign (target : String) (value : Expr)
  | branch (test : Expr) (yes : List Stmt) (no : Option (List Stmt))
  | select (test : Expr) (arms : List (Number × List Stmt)) (other : Option (List Stmt))
deriving Repr, Inhabited

structure PortDecl where
  direction : Direction
  /-- Whether a block drives the port. -/
  isReg : Bool
  width : Int
  ident : String
deriving DecidableEq, Repr, Inhabited

inductive Decl where
  /-- A port that keeps one value forever. -/
  | constant (ident : String) (value : Number)
  | reg (width : Int) (ident : String) (start : Number)
  | wire (width : Int) (ident : String) (value : Expr)
deriving DecidableEq, Repr, Inhabited

/-- A block: assignments of numbers, then statements. In the block that is evaluated all the time
the numbers are defaults; in the block at the clock edge they are taken on reset. -/
structure Block where
  numbers : List (String × Number)
  body : List Stmt
deriving Repr, Inhabited

structure Module where
  ident : String
  /-- The digest of what the module was made from, or nothing. -/
  digest : String
  ports : List PortDecl
  decls : List Decl
  comb : Option Block
  sync : Option Block
deriving Repr, Inhabited

/-! ### Text -/

def clockName : String := "sys_clk"

def resetName : String := "sys_rst"

def digestMark : String := "// source-sha3: "

def Number.text (n : Number) : String := s!"{n.width}'d{n.value.toNat}"

/-- The range in front of a name. One bit needs none. -/
def rangeText (width : Int) : String := if width ≤ 1 then "" else s!"[{width - 1}:0] "

def Expr.text : Expr → String
  | name ident => ident
  | number n => n.text
  | binary op left right => "(" ++ left.text ++ " " ++ op.symbol ++ " " ++ right.text ++ ")"
  | bit ident index => s!"{ident}[{index}]"
  | part ident high low => s!"{ident}[{high}:{low}]"

/-- A line at a level of indentation. -/
def line (level : Nat) (s : String) : String :=
  String.ofList (List.replicate level '\t') ++ s ++ "\n"

mutual

/-- The text of a statement, where `op` is the sign of an assignment. -/
def Stmt.render (op : String) (level : Nat) : Stmt → String
  | .assign target value => line level s!"{target} {op} {value.text};"
  | .branch test yes no =>
    line level s!"if ({test.text}) begin"
      ++ render op (level + 1) yes
      ++ (if no.isSome then line level "end else begin" else "")
      ++ renderOption op (level + 1) no
      ++ line level "end"
  | .select test arms other =>
    line level s!"case ({test.text})"
      ++ renderArms op (level + 1) arms
      ++ (if other.isSome then line (level + 1) "default: begin" else "")
      ++ renderOption op (level + 2) other
      ++ (if other.isSome then line (level + 1) "end" else "")
      ++ line level "endcase"

def render (op : String) (level : Nat) : List Stmt → String
  | [] => ""
  | s :: ss => s.render op level ++ render op level ss

def renderOption (op : String) (level : Nat) : Option (List Stmt) → String
  | none => ""
  | some ss => render op level ss

def renderArms (op : String) (level : Nat) : List (Number × List Stmt) → String
  | [] => ""
  | (n, body) :: arms =>
    line level s!"{n.text}: begin" ++ render op (level + 1) body ++ line level "end"
      ++ renderArms op level arms

end

def PortDecl.text (p : PortDecl) : String :=
  p.direction.text ++ (if p.isReg then " reg " else " ") ++ rangeText p.width ++ p.ident

def Decl.text : Decl → String
  | constant ident value => s!"assign {ident} = {value.text};"
  | reg width ident start => s!"reg {rangeText width}{ident} = {start.text};"
  | wire width ident value => s!"wire {rangeText width}{ident} = {value.text};"

/-- Some lines followed by a blank one, or nothing. -/
def paragraph (lines : List String) : String :=
  if lines.isEmpty then "" else String.join lines ++ "\n"

def numberLines (op : String) (level : Nat) (numbers : List (String × Number)) : String :=
  String.join (numbers.map fun (ident, n) => line level s!"{ident} {op} {n.text};")

/-- The text of a block that is evaluated all the time. -/
def Block.renderComb (b : Block) : String :=
  line 0 "always @(*) begin" ++ numberLines "=" 1 b.numbers ++ render "=" 1 b.body ++ line 0 "end"
    ++ "\n"

/-- The text of a block that takes effect at the clock edge. -/
def Block.renderSync (b : Block) : String :=
  line 0 s!"always @(posedge {clockName}) begin"
    ++ line 1 s!"if ({resetName}) begin" ++ numberLines "<=" 2 b.numbers
    ++ line 1 "end else begin" ++ render "<=" 2 b.body ++ line 1 "end"
    ++ line 0 "end" ++ "\n"

/-- The text of the ports, the clock and the reset first. -/
def portLines (ports : List PortDecl) : String :=
  ",\n".intercalate ((s!"input {clockName}" :: s!"input {resetName}" :: ports.map PortDecl.text).map
    ("\t" ++ ·)) ++ "\n"

/-- The comment at the top. -/
def Module.header (m : Module) : String :=
  line 0 "// Generated by fsmc. Do not edit."
    ++ (if m.digest = "" then "" else line 0 (digestMark ++ m.digest))

def Module.render (m : Module) : String :=
  m.header
    ++ line 0 s!"module {m.ident}(" ++ portLines m.ports ++ line 0 ");" ++ "\n"
    ++ paragraph (m.decls.map fun d => line 0 d.text)
    ++ (m.comb.map Block.renderComb).getD ""
    ++ (m.sync.map Block.renderSync).getD ""
    ++ line 0 "endmodule"

end Sequencer.Verilog
