import Mathlib.Data.List.Chain
import Sequencer.Proofs.Program.Substitution
import Sequencer.Proofs.Program.Verdict
import Sequencer.Proofs.Token.Continuation

/-!
# The grammar

`Derives r x a` says that the rule `r` derives the tokens `x`, and that `a` is the tree of that
derivation. What is not in the language reference is that lines may be empty, and that a block may
have no other lines.
-/

namespace Sequencer.Program.Parser

open List
open Token (Kind nest nestAll nestAll_append)

/-- What can stand on the left of an assignment. -/
def IsTarget : Expr → Prop
  | .name .. | .attr .. => True
  | _ => False

theorem isTarget_of_unassignable? {e : Expr} (h : unassignable? e = none) : IsTarget e := by
  cases e <;> trivial

/-- Within a line, the tokens are derived by the rule, with this tree. -/
inductive Phrase : (r : Rule) → List Token → r.Result → Prop
  | name (h : t.kind = .ident) : Phrase .primary [t] (.name t.pos t.lexeme)
  | int (h : t.kind = .int) (hv : Text.Numeral.signed t.lexeme.toList = .ok v) :
      Phrase .primary [t] (.int t.pos v t.lexeme)
  | kwTrue (h : t.kind = .kwTrue) : Phrase .primary [t] (.bool t.pos true)
  | kwFalse (h : t.kind = .kwFalse) : Phrase .primary [t] (.bool t.pos false)
  | paren (h : t.kind = .lparen) (he : Phrase .expr x e) (h' : u.kind = .rparen) :
      Phrase .primary (t :: (x ++ [u])) e
  | list (h : t.kind = .lbracket) (hes : Phrase (.exprList .rbracket) x es)
      (h' : u.kind = .rbracket) : Phrase .primary (t :: (x ++ [u])) (.list t.pos es u.pos)
  | atom (he : Phrase .primary x e) : Phrase .postfixExpr x e
  | attr (he : Phrase .postfixExpr x e) (h : t.kind = .dot) (h' : u.kind = .ident) :
      Phrase .postfixExpr (x ++ [t, u]) (.attr e u.lexeme u.pos)
  | call (he : Phrase .postfixExpr x e) (h : t.kind = .lparen)
      (hes : Phrase (.exprList .rparen) y es) (h' : u.kind = .rparen) :
      Phrase .postfixExpr (x ++ t :: (y ++ [u])) (.call e t.pos es u.pos)
  | sign (h : signOp? t.kind = some op) (he : Phrase .unary x e) :
      Phrase .unary (t :: x) (.unary t.pos op e)
  | unsigned (he : Phrase .postfixExpr x e) : Phrase .unary x e
  | operand (he : Phrase .unary x e) : Phrase (.binary 0) x e
  | tighter (he : Phrase (.binary n) x e) : Phrase (.binary (n + 1)) x e
  | binary (he : Phrase (.binary (n + 1)) x e) (h : binaryOp? (n + 1) t.kind = some op)
      (hf : Phrase (.binary n) y f) : Phrase (.binary (n + 1)) (x ++ t :: y) (.binary t.pos op e f)
  | noLink : Phrase .comparisonTail [] []
  | link (h : compareOp? t.kind = some op) (he : Phrase (.binary 6) x e)
      (hl : Phrase .comparisonTail y l) :
      Phrase .comparisonTail (t :: (x ++ y)) ((op, t.pos, e) :: l)
  | comparison (he : Phrase (.binary 6) x e) (hl : Phrase .comparisonTail y l) :
      Phrase .comparison (x ++ y) (if l.isEmpty then e else .compare e l)
  | not (h : t.kind = .kwNot) (he : Phrase (.logical 0) x e) :
      Phrase (.logical 0) (t :: x) (.unary t.pos .not e)
  | affirmed (he : Phrase .comparison x e) : Phrase (.logical 0) x e
  | noOther : Phrase (.logicalTail n) [] []
  | other (h : t.kind = (logicalOp n).token) (he : Phrase (.logical n) x e)
      (hes : Phrase (.logicalTail n) y es) : Phrase (.logicalTail n) (t :: (x ++ y)) (e :: es)
  | logical (he : Phrase (.logical n) x e) (hes : Phrase (.logicalTail n) y es)
      (hpos : ∀ t ∈ y.head?, t.pos = p) : Phrase (.logical (n + 1)) (x ++ y)
        (if es.isEmpty then e else .boolOp p (logicalOp n) e es)
  | noExprs : Phrase (.exprList k) [] []
  | lastExpr (he : Phrase .expr x e) : Phrase (.exprList k) x [e]
  | exprs (he : Phrase .expr x e) (h : t.kind = .comma) (hes : Phrase (.exprList k) y es) :
      Phrase (.exprList k) (x ++ t :: y) (e :: es)
  | yield (h : t.kind = .kwYield) : Phrase .exprOrYield [t] (.yield t.pos none)
  | yieldValue (h : t.kind = .kwYield) (he : Phrase .expr x e) :
      Phrase .exprOrYield (t :: x) (.yield t.pos (some e))
  | value (he : Phrase .expr x e) : Phrase .exprOrYield x e
  | assigned (he : Phrase .exprOrYield x e) : Phrase .assignTail x ([], e)
  | target (he : Phrase .exprOrYield x e) (h : t.kind = .assign) (ho : Phrase .assignTail y o) :
      Phrase .assignTail (x ++ t :: y) (e :: o.1, o.2)
  | expr (he : Phrase .exprOrYield x e) : Phrase .exprOrAssign x (.expr e)
  | assign (he : Phrase .exprOrYield x e) (h : t.kind = .assign) (ho : Phrase .assignTail y o)
      (htarget : ∀ f ∈ e :: o.1, IsTarget f) :
      Phrase .exprOrAssign (x ++ t :: y) (.assign e o.1 t.pos o.2)
  | ret (h : t.kind = .kwReturn) : Phrase .simpleBody [t] (.ret t.pos none)
  | retValue (h : t.kind = .kwReturn) (he : Phrase .expr x e) :
      Phrase .simpleBody (t :: x) (.ret t.pos (some e))
  | pass (h : t.kind = .kwPass) : Phrase .simpleBody [t] (.pass t.pos)
  | brk (h : t.kind = .kwBreak) : Phrase .simpleBody [t] (.brk t.pos)
  | cont (h : t.kind = .kwContinue) : Phrase .simpleBody [t] (.cont t.pos)
  | exprOrAssign (hs : Phrase .exprOrAssign x s) : Phrase .simpleBody x s
  | line (hs : Phrase .simpleBody x s) (h : t.kind = .newline) : Phrase .simple (x ++ [t]) s
  | noParam : Phrase .params [] []
  | lastParam (h : t.kind = .ident) : Phrase .params [t] [⟨t.lexeme, t.pos⟩]
  | param (h : t.kind = .ident) (h' : u.kind = .comma) (hps : Phrase .params x ps) :
      Phrase .params (t :: u :: x) (⟨t.lexeme, t.pos⟩ :: ps)

/-- The tokens are derived by the rule, and this is the tree of the derivation. Where gaps are
allowed, lines may be empty, and a block may have no other lines. -/
inductive Derives (gap : Prop) : (r : Rule) → List Token → r.Result → Prop
  | inline (hs : Phrase .simple x s) : Derives gap .block x [s]
  | block (h : t.kind = .newline) (h' : u.kind = .indent) (hss : Derives gap (.stmts true) x ss)
      (h'' : v.kind = .dedent) (hgap : ss ≠ [] ∨ gap) : Derives gap .block (t :: u :: (x ++ [v])) ss
  | suite (h : t.kind = .colon) (hss : Derives gap .block x ss) : Derives gap .suite (t :: x) ss
  | cond (h : t.kind = .kwIf ∨ t.kind = .kwElif) (he : Phrase .expr x e)
      (hss : Derives gap .suite y ss) :
      Derives gap .cond (t :: (x ++ y)) (some (.cond t.pos e ss []))
  | condElif (h : t.kind = .kwIf ∨ t.kind = .kwElif) (he : Phrase .expr x e)
      (hss : Derives gap .suite y ss) (h' : ∀ u ∈ z.head?, u.kind = .kwElif)
      (hs : Derives gap .cond z (some s)) :
      Derives gap .cond (t :: (x ++ (y ++ z))) (some (.cond t.pos e ss [s]))
  | condElse (h : t.kind = .kwIf ∨ t.kind = .kwElif) (he : Phrase .expr x e)
      (hss : Derives gap .suite y ss) (h' : u.kind = .kwElse) (hss' : Derives gap .suite z ss') :
      Derives gap .cond (t :: (x ++ (y ++ u :: z))) (some (.cond t.pos e ss ss'))
  | simple (hs : Phrase .simple x s) : Derives gap .stmt x (some s)
  | ifs (h : ∀ t ∈ x.head?, t.kind = .kwIf) (hs : Derives gap .cond x o) : Derives gap .stmt x o
  | funcDef (h : t.kind = .kwDef) (h' : u.kind = .ident) (hl : v.kind = .lparen)
      (hps : Phrase .params x ps) (hr : w.kind = .rparen) (hss : Derives gap .suite y ss) :
      Derives gap .stmt (t :: u :: v :: (x ++ w :: y)) (some (.funcDef t.pos u.lexeme u.pos ps ss))
  | loop (h : t.kind = .kwWhile) (he : Phrase .expr x e) (hss : Derives gap .suite y ss) :
      Derives gap .stmt (t :: (x ++ y)) (some (.loop t.pos e ss))
  | each (h : t.kind = .kwFor) (he : Phrase .postfixExpr x e) (h' : u.kind = .kwIn)
      (hf : Phrase .expr y f) (hss : Derives gap .suite z ss) :
      Derives gap .stmt (t :: (x ++ u :: (y ++ z))) (some (.each t.pos e f ss))
  | noStmt : Derives gap (.stmts b) [] []
  | blank (hgap : gap) (h : t.kind = .newline) (hss : Derives gap (.stmts b) x ss) :
      Derives gap (.stmts b) (t :: x) ss
  | stmt (hs : Derives gap .stmt x (some s)) (hss : Derives gap (.stmts b) y ss) :
      Derives gap (.stmts b) (x ++ y) (s :: ss)

/-- The ends of a line, and the start and end of a block. -/
def isBreak : Kind → Bool
  | .newline | .indent | .dedent => true
  | _ => false

/-- There is no empty line here, and no block that ends where it starts. -/
def Fits (t u : Token) : Prop :=
  ¬(isBreak t.kind = true ∧ u.kind = .newline) ∧ ¬(t.kind = .indent ∧ u.kind = .dedent)

instance : DecidableRel Fits := fun _ _ => instDecidableAnd

/-- Tokens without empty lines. -/
abbrev Tidy (x : List Token) : Prop := IsChain Fits x ∧ ∀ t ∈ x.head?, t.kind ≠ .newline

/-- The tokens end with a line or a block. -/
def Breaks (x : List Token) : Prop := ∃ y t, x = y ++ [t] ∧ isBreak t.kind = true

theorem Breaks.append {x : List Token} (h : Breaks x) (y : List Token) : Breaks (y ++ x) := by
  obtain ⟨z, t, rfl, ht⟩ := h
  exact ⟨y ++ z, t, (append_assoc ..).symm, ht⟩

def Rule.Linked : (r : Rule) → r.Result → Prop
  | .comparisonTail, links => ∀ l ∈ links, l.2.2.Linked
  | .logicalTail _, es | .exprList _, es => ∀ e ∈ es, e.Linked
  | .assignTail, o => o.2.Linked
  | .exprOrAssign, s | .simpleBody, s | .simple, s => s.Linked
  | .params, _ | .skipLine, _ => True
  | .block, ss | .suite, ss | .stmts _, ss => ∀ s ∈ ss, s.Linked
  | .cond, o | .stmt, o => ∀ s ∈ o, s.Linked
  | .primary, e | .postfixTail _, e | .postfixExpr, e | .unary, e | .binaryTail _ _, e
  | .binary _, e | .comparison, e | .logical _, e | .exprOrYield, e => e.Linked

theorem nest_of_mem_operators {k : Kind} (h : k ∈ operators) (n : Nat × Nat) : nest n k = n := by
  revert k
  simp [operators, nest]

theorem nest_logicalOp (level : Nat) (n : Nat × Nat) : nest n (logicalOp level).token = n := by
  cases logicalOp level <;> rfl

theorem forall_mem_some {γ : Type} {P : γ → Prop} {c : γ} (h : P c) : ∀ d ∈ some c, P d := by
  rintro _ ⟨⟩
  exact h

variable {gap : Prop} {r : Rule} {x : List Token} {a : r.Result}

namespace Phrase

theorem nestAll_eq (h : Phrase r x a) (n : Nat × Nat) : nestAll n x = n := by
  induction h generalizing n
  case sign h _ ih => simp_all [nestAll, nest_of_mem_operators (mem_operators_of_signOp? h)]
  case binary h _ _ _ => simp_all [nestAll, nest_of_mem_operators (mem_operators_of_binaryOp? h)]
  case link h _ _ _ _ => simp_all [nestAll, nest_of_mem_operators (mem_operators_of_compareOp? h)]
  case other => simp_all [nestAll, nest_logicalOp]
  all_goals simp_all [nestAll, nest]

theorem linked (h : Phrase r x a) : r.Linked a := by
  induction h
  case name => exact .name ..
  case int => exact .int ..
  case kwTrue | kwFalse => exact .bool ..
  case list ih => exact .list ih
  case attr ih => exact .attr ih
  case call ih ihs => exact .call ih ihs
  case sign ih | not ih => exact .unary ih
  case binary ih ih' => exact .binary ih ih'
  case link ih ihs | other ih ihs | exprs ih ihs => exact forall_mem_cons.mpr ⟨ih, ihs⟩
  case comparison l _ _ ih ihs =>
    cases l with
    | nil => exact ih
    | cons => exact .compare ih (cons_ne_nil _ _) ihs
  case logical es _ _ _ _ ih ihs =>
    cases es with
    | nil => exact ih
    | cons => exact .boolOp ih ihs
  case lastExpr ih => exact forall_mem_singleton.mpr ih
  case yield => exact .yield nofun
  case yieldValue ih => exact .yield (forall_mem_some ih)
  case expr ih => exact .expr ih
  case assign ih => exact .assign ih
  case ret | retValue => exact .ret ..
  case pass => exact .pass _
  case brk => exact .brk _
  case cont => exact .cont _
  case noLink | noOther | noExprs => exact nofun
  all_goals trivial

end Phrase

namespace Derives

/-- Derived tokens close the brackets and end the blocks that they open. -/
theorem nestAll_eq (h : Derives gap r x a) (n : Nat × Nat) : nestAll n x = n := by
  induction h generalizing n
  case cond h he _ _ | condElif h he _ _ _ _ _ | condElse h he _ _ _ _ _ =>
    obtain h | h := h <;> have := he.nestAll_eq <;> simp_all [nestAll, nest]
  case inline hs | simple hs => exact hs.nestAll_eq n
  case funcDef hps _ _ _ => have := hps.nestAll_eq; simp_all [nestAll, nest]
  case loop he _ _ => have := he.nestAll_eq; simp_all [nestAll, nest]
  case each he _ hf _ _ =>
    have := he.nestAll_eq
    have := hf.nestAll_eq
    simp_all [nestAll, nest]
  all_goals simp_all [nestAll, nest]

/-- Every comparison of a derived tree has something on its right. -/
theorem linked (h : Derives gap r x a) : r.Linked a := by
  induction h
  case inline hs => exact forall_mem_singleton.mpr hs.linked
  case cond he _ ihs => exact forall_mem_some (.cond he.linked ihs nofun)
  case condElif he _ _ _ ihs ih =>
    exact forall_mem_some (.cond he.linked ihs (forall_mem_singleton.mpr (ih _ rfl)))
  case condElse he _ _ _ ihs ihs' => exact forall_mem_some (.cond he.linked ihs ihs')
  case simple hs => exact forall_mem_some hs.linked
  case funcDef ihs => exact forall_mem_some (.funcDef ihs)
  case loop he _ ihs => exact forall_mem_some (.loop he.linked ihs)
  case each ihs => exact forall_mem_some (.each ihs)
  case noStmt => exact nofun
  case stmt ih ihs => exact forall_mem_cons.mpr ⟨ih _ rfl, ihs⟩
  all_goals trivial

theorem cond_eq_some {o : Option Stmt} (h : Derives gap .cond x o) : ∃ s, o = some s := by
  cases h <;> exact ⟨_, rfl⟩

theorem stmt_eq_some {o : Option Stmt} (h : Derives gap .stmt x o) : ∃ s, o = some s := by
  cases h with
  | ifs _ hs => exact hs.cond_eq_some
  | _ => exact ⟨_, rfl⟩

theorem breaks (h : Derives gap r x a) (hr : ∀ b, r ≠ .stmts b) : Breaks x := by
  induction h
  case inline hs | simple hs =>
    cases hs with
    | line _ ht => exact ⟨_, _, rfl, by rw [ht]; rfl⟩
  case block hv _ _ => exact ⟨_ :: _ :: _, _, rfl, by rw [hv]; rfl⟩
  case suite ih => exact (ih nofun).append [_]
  case cond ih | loop ih => exact (ih nofun).append (_ :: _)
  case condElif ih => exact ((ih nofun).append _).append (_ :: _)
  case condElse ih => exact (((ih nofun).append [_]).append _).append (_ :: _)
  case ifs ih => exact ih nofun
  case funcDef ih => exact ((ih nofun).append [_]).append (_ :: _ :: _ :: _)
  case each ih => exact ((ih nofun).append (_ :: _)).append (_ :: _)
  all_goals exact absurd rfl (hr _)

/-- **Without empty lines every body has a statement.** -/
theorem strict (h : Derives True r x a) (hx : IsChain Fits x)
    (hhead : ∀ b, r = .stmts b → ∀ t ∈ x.head?, t.kind ≠ .newline) : Derives False r x a := by
  induction h
  case inline hs => exact .inline hs
  case block x ss t u v h h' hss h'' _ ih =>
    have hss := ih hx.tail.tail.left_of_append fun b _ w hw hline => by
      obtain ⟨y, rfl⟩ := head?_eq_some_iff.mp hw
      exact (isChain_cons_cons.mp hx.tail).1.1 ⟨by rw [h']; rfl, hline⟩
    refine .block h h' hss h'' (.inl ?_)
    rintro rfl
    cases hss with
    | noStmt => exact (isChain_cons_cons.mp hx.tail).1.2 ⟨h', h''⟩
    | blank hgap => exact hgap
  case suite h _ ih => exact .suite h (ih hx.tail nofun)
  case cond h he _ ih => exact .cond h he (ih hx.tail.right_of_append nofun)
  case condElif h he _ hz _ ih ih' =>
    have hx := hx.tail.right_of_append
    exact .condElif h he (ih hx.left_of_append nofun) hz (ih' hx.right_of_append nofun)
  case condElse h he _ hu _ ih ih' =>
    have hx := hx.tail.right_of_append
    exact .condElse h he (ih hx.left_of_append nofun) hu (ih' hx.right_of_append.tail nofun)
  case simple hs => exact .simple hs
  case ifs h _ ih => exact .ifs h (ih hx nofun)
  case funcDef h hu hl hps hr _ ih =>
    exact .funcDef h hu hl hps hr (ih hx.tail.tail.tail.right_of_append.tail nofun)
  case loop h he _ ih => exact .loop h he (ih hx.tail.right_of_append nofun)
  case each h he hu hf _ ih =>
    exact .each h he hu hf (ih hx.tail.right_of_append.tail.right_of_append nofun)
  case noStmt => exact .noStmt
  case blank h _ _ => exact absurd h (hhead _ rfl _ rfl)
  case stmt hs _ ih ih' =>
    obtain ⟨hx, hy, hxy⟩ := isChain_append.mp hx
    obtain ⟨z, w, rfl, hw⟩ := hs.breaks nofun
    exact .stmt (ih hx nofun) (ih' hy fun b _ t ht hline => (hxy w (by simp) t ht).1 ⟨hw, hline⟩)

/-- A body without empty lines has a statement. -/
theorem suite_ne_nil {ss : List Stmt} (h : Derives False .suite x ss) : ss ≠ [] := by
  cases h with
  | suite h hss =>
    cases hss with
    | inline => exact cons_ne_nil _ _
    | block _ _ _ _ hgap => exact hgap.resolve_right id

end Derives

end Sequencer.Program.Parser
