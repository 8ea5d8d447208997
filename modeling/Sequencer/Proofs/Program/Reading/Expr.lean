import Sequencer.Proofs.Program.Rules
import Sequencer.Proofs.Token.Spelling

/-!
# Reading written expressions

The levels of precedence are numbered from `0` for attributes and calls to `11` for operands joined
by `or`. A sequence of tokens **reads** as an expression at a level if the function of that level
takes these tokens and no others, without a complaint, and delivers the expression up to positions.
Each rule of the grammar builds such sequences out of shorter ones.
-/

namespace Sequencer.Program

open Program.Expr

/-! ### Trees without positions -/

/-- The position that stands for all others. -/
def nowhere : Position := ⟨0, 0⟩

mutual

def Expr.erase : Expr → Expr
  | .name _ ident => .name nowhere ident
  | .int _ value raw => .int nowhere value raw
  | .bool _ value => .bool nowhere value
  | .binary _ op left right => .binary nowhere op left.erase right.erase
  | .compare first links => .compare first.erase (eraseLinks links)
  | .boolOp _ op first others => .boolOp nowhere op first.erase (eraseExprs others)
  | .unary _ op operand => .unary nowhere op operand.erase
  | .call func _ args _ => .call func.erase nowhere (eraseExprs args) nowhere
  | .attr object field _ => .attr object.erase field nowhere
  | .list _ elements _ => .list nowhere (eraseExprs elements) nowhere
  | .yield _ value => .yield nowhere (eraseOption value)

def eraseExprs : List Expr → List Expr
  | [] => []
  | e :: es => e.erase :: eraseExprs es

def eraseLinks : List (CompareOp × Position × Expr) → List (CompareOp × Position × Expr)
  | [] => []
  | (op, _, e) :: ls => (op, nowhere, e.erase) :: eraseLinks ls

def eraseOption : Option Expr → Option Expr
  | none => none
  | some e => some e.erase

end

/-! ### Precedence -/

/-- How loosely an operator binds. -/
def BinaryOp.level : BinaryOp → Nat
  | mul | div | mod => 2
  | add | sub => 3
  | shl | shr => 4
  | and => 5
  | xor => 6
  | or => 7

@[inherit_doc BinaryOp.level]
def BoolOp.level : BoolOp → Nat
  | and => 10
  | or => 11

/-- The level of an operator among the logical ones. -/
def BoolOp.place : BoolOp → Nat
  | and => 0
  | or => 1

@[inherit_doc BinaryOp.level]
def UnaryOp.level : UnaryOp → Nat
  | neg | pos | invert => 1
  | not => 9

theorem BinaryOp.level_le (op : BinaryOp) : op.level ≤ 11 := by
  cases op <;> decide

theorem BoolOp.level_le (op : BoolOp) : op.level ≤ 11 := by
  cases op <;> decide

theorem UnaryOp.level_le (op : UnaryOp) : op.level ≤ 11 := by
  cases op <;> decide

/-- How loosely the parts of an expression hang together. -/
def Expr.level : Expr → Nat
  | binary _ op _ _ => op.level
  | compare .. => 8
  | boolOp _ op _ _ => op.level
  | unary _ op _ => op.level
  | _ => 0

theorem Expr.level_le (e : Expr) : e.level ≤ 11 := by
  cases e with
  | binary _ op => exact op.level_le
  | compare => exact (by decide : 8 ≤ 11)
  | boolOp _ op => exact op.level_le
  | unary _ op => exact op.level_le
  | _ => exact Nat.zero_le 11

namespace Parser

open Token (Bare bare Kind)
open Steps (ofRule run_call read_eq_run)

/-! ### Taking tokens -/

/-- The parser `q` is `p` without some tokens. -/
def Takes (p : Parser) (bs : List Bare) (q : Parser) : Prop :=
  ∃ ts : List Token, ts.map bare = bs ∧ p = { q with rest := ts ++ q.rest }

variable {p q : Parser} {n ℓ : Nat} {k : Kind} {bs bs' : List Bare} {e : Expr} {es : List Expr}
  {ls : List (CompareOp × Position × Expr)} {op : BoolOp}

theorem takes_nil : p.Takes [] q ↔ p = q := by
  simp [Takes]

section Takes

variable {w : String} {as : List Bare}

section

variable (h : p.Takes ((k, w) :: bs) q)

include h

theorem takes_cons : p.kind = k ∧ p.cur.lexeme = w ∧ p.advance.Takes bs q := by
  obtain ⟨ts, hts, rfl⟩ := h
  obtain ⟨t, ts, rfl, ht, rfl⟩ := List.map_eq_cons_iff.mp hts
  obtain ⟨rfl, rfl⟩ := Prod.mk.inj ht
  exact ⟨rfl, rfl, ts, rfl, rfl⟩

theorem Takes.kind : p.kind = k := (takes_cons h).1

theorem Takes.cur_kind : p.cur.kind = k := h.kind

theorem Takes.lexeme : p.cur.lexeme = w := (takes_cons h).2.1

theorem Takes.advance : p.advance.Takes bs q := (takes_cons h).2.2

theorem Takes.expect : (p.expect k).Takes bs q := by
  rw [Parser.expect, if_pos h.kind]
  exact h.advance

end

theorem Takes.advance_eq (h : p.Takes [(k, w)] q) : p.advance = q := takes_nil.mp h.advance

theorem Takes.expect_eq (h : p.Takes [(k, w)] q) : p.expect k = q := takes_nil.mp h.expect

theorem Takes.append (h : p.Takes (as ++ bs) q) : ∃ m, p.Takes as m ∧ m.Takes bs q := by
  obtain ⟨ts, hts, rfl⟩ := h
  obtain ⟨us, vs, rfl, rfl, rfl⟩ := List.map_eq_append_iff.mp hts
  exact ⟨{ q with rest := vs ++ q.rest }, ⟨us, rfl, by simp⟩, ⟨vs, rfl, rfl⟩⟩

end Takes

/-! ### Levels -/

/-- The tightest level at which a token can start an expression; `12` if there is none. -/
def startLevel : Kind → Nat
  | .ident | .int | .kwTrue | .kwFalse | .lparen | .lbracket => 0
  | .plus | .minus | .tilde => 1
  | .kwNot => 9
  | _ => 12

/-- The level of the expressions that a token goes on after an operand; `12` if there is none. -/
def joinLevel : Kind → Nat
  | .dot | .lparen => 0
  | .star | .slash | .percent => 2
  | .plus | .minus => 3
  | .shl | .shr => 4
  | .amp => 5
  | .caret => 6
  | .pipe => 7
  | .eq | .notEq | .lt | .ltEq | .gt | .gtEq => 8
  | .kwAnd => 10
  | .kwOr => 11
  | _ => 12

/-- What the parser reads at a level. -/
def outAt (ℓ : Nat) (p : Parser) : Expr × Parser :=
  match ℓ with
  | 0 => Rule.postfixExpr.read p
  | 8 => Rule.comparison.read p
  | 9 => (Rule.logical 0).read p
  | 10 => (Rule.logical 1).read p
  | 11 => Rule.expr.read p
  | n + 1 => (Rule.binary n).read p

/-- What the parser makes of an expression at a level, if more of the same level may follow. Only
attributes, calls and binary operators group to the left. -/
def tailAt (ℓ : Nat) (e : Expr) (p : Parser) : Expr × Parser :=
  match ℓ with
  | 0 => (Rule.postfixTail e).read p
  | n + 1 => if 1 ≤ n ∧ n ≤ 6 then (Rule.binaryTail (n - 1) e).read p else (e, p)

theorem outAt_binary (h : n ≤ 6) (p : Parser) : outAt (n + 1) p = (Rule.binary n).read p := by
  match n, h with
  | 0, _ | 1, _ | 2, _ | 3, _ | 4, _ | 5, _ | 6, _ => rfl

theorem tailAt_binary (h : n ≤ 5) (e : Expr) (p : Parser) :
    tailAt (n + 2) e p = (Rule.binaryTail n e).read p := by
  have hn : 1 ≤ n + 1 ∧ n + 1 ≤ 6 := by omega
  simp only [tailAt, hn, and_self, if_true]
  rfl

theorem binaryOp?_eq_none (h : joinLevel k ≠ n + 1) : binaryOp? n k = none := by
  unfold binaryOp?
  split <;> first | rfl | exact absurd rfl h

theorem signOp?_eq_none (h : startLevel k ≠ 1) : signOp? k = none := by
  cases k <;> first | rfl | exact absurd rfl h

theorem compareOp?_eq_none (h : joinLevel k ≠ 8) : compareOp? k = none := by
  cases k <;> first | rfl | exact absurd rfl h

theorem tailAt_of_lt (h : ℓ < joinLevel p.kind) (e : Expr) : tailAt ℓ e p = (e, p) := by
  cases ℓ with
  | zero =>
    rw [tailAt, read_eq_run, ofRule, Steps.run_look, Steps.postfixTail]
    split
    case h_3 => rfl
    all_goals
      rename_i hk
      rw [kind, hk] at h
      cases h
  | succ n =>
    rw [tailAt]
    split
    · rename_i hn
      obtain ⟨n, rfl⟩ := Nat.exists_eq_succ_of_ne_zero (Nat.ne_of_gt hn.1)
      have hop : binaryOp? (n + 1) p.cur.kind = none :=
        binaryOp?_eq_none (Nat.ne_of_gt (Nat.lt_of_le_of_lt (by omega) h))
      simp [read_eq_run, ofRule, Steps.binaryTail, hop]
    · rfl

/-- The tokens `bs` read as the expression `e` at the level `ℓ`, if nothing of a tighter level
follows, nor of the same level from comparisons on, where operands do not group to the left. -/
structure Reads (ℓ : Nat) (bs : List Bare) (e : Expr) : Prop where
  starts : ∃ b bs', bs = b :: bs' ∧ startLevel b.1 ≤ ℓ
  parses : ∀ {p q : Parser}, p.Takes bs q → ℓ ≤ joinLevel q.kind → (8 ≤ ℓ → ℓ < joinLevel q.kind) →
    ∃ v, v.erase = e.erase ∧ outAt ℓ p = tailAt ℓ v q

theorem Reads.exact (h : Reads ℓ bs e) (hp : p.Takes bs q) (hq : ℓ < joinLevel q.kind) :
    ∃ v, v.erase = e.erase ∧ outAt ℓ p = (v, q) := by
  obtain ⟨v, hv, hout⟩ := h.parses hp (Nat.le_of_lt hq) fun _ => hq
  exact ⟨v, hv, hout.trans (tailAt_of_lt hq v)⟩

theorem Reads.startLevel_le (h : Reads ℓ bs e) (hp : p.Takes bs q) : startLevel p.kind ≤ ℓ := by
  obtain ⟨b, bs', rfl, hb⟩ := h.starts
  rw [hp.kind]
  exact hb

theorem read_binary_succ (h : (Rule.binary n).read p = (e, q)) :
    (Rule.binary (n + 1)).read p = (Rule.binaryTail n e).read q := by
  rw [read_eq_run, ofRule, Steps.binary, run_call h]
  rfl

theorem read_logicalTail_nil (h : p.cur.kind ≠ (logicalOp n).token) :
    (Rule.logicalTail n).read p = ([], p) := by
  simp [read_eq_run, ofRule, Steps.logicalTail, h]

theorem read_logical_succ (h : (Rule.logical n).read p = (e, q))
    (hq : q.cur.kind ≠ (logicalOp n).token) : (Rule.logical (n + 1)).read p = (e, q) := by
  simp [read_eq_run (.logical (n + 1)), ofRule, Steps.logical, run_call h,
    run_call (read_logicalTail_nil hq)]

/-- One level looser, the function reads what it reads and finds nothing to join to it. -/
theorem outAt_succ (hℓ : ℓ < 11) (hstart : startLevel p.kind ≠ ℓ + 1)
    (hend : 8 ≤ ℓ + 1 → ℓ + 1 < joinLevel q.kind) (h : outAt ℓ p = (e, q)) :
    outAt (ℓ + 1) p = tailAt (ℓ + 1) e q := by
  -- A sign or a `not` would be taken by the looser function itself; `hstart` excludes both.
  match ℓ, hℓ with
  | 0, _ =>
    have hop := signOp?_eq_none (k := p.cur.kind) hstart
    refine Eq.trans ?_ h
    simp [outAt, read_eq_run (.binary 0), read_eq_run .unary, ofRule, Steps.binary, Steps.unary,
      hop]
  | 1, _ | 2, _ | 3, _ | 4, _ | 5, _ | 6, _ => exact read_binary_succ h
  | 7, _ =>
    have hop : compareOp? q.cur.kind = none :=
      compareOp?_eq_none (Nat.ne_of_gt (hend (by omega)))
    have hlinks : Rule.comparisonTail.read q = ([], q) := by
      simp [read_eq_run, ofRule, Steps.comparisonTail, hop]
    simp [outAt, tailAt, read_eq_run .comparison, ofRule, run_call (r := .binary 6) h,
      run_call hlinks]
  | 8, _ =>
    have hnot : p.cur.kind ≠ .kwNot := fun hk => hstart (by rw [kind, hk]; rfl)
    refine Eq.trans ?_ h
    simp [outAt, read_eq_run (.logical 0), ofRule, Steps.logical, hnot]
  | 9, _ | 10, _ =>
    refine read_logical_succ h fun hk => ?_
    rw [kind, hk] at hend
    exact absurd (hend (by omega)) (by decide)

theorem Reads.succ (h : Reads ℓ bs e) (hℓ : ℓ < 11) : Reads (ℓ + 1) bs e where
  starts := by
    obtain ⟨b, bs', hbs, hb⟩ := h.starts
    exact ⟨b, bs', hbs, by omega⟩
  parses hp hle hlt := by
    obtain ⟨v, hv, hout⟩ := h.exact hp hle
    have hstart := h.startLevel_le hp
    exact ⟨v, hv, outAt_succ hℓ (by omega) hlt hout⟩

/-- **What reads at a level reads at every looser level.** -/
theorem Reads.mono {ℓ' : Nat} (h : Reads ℓ bs e) (hle : ℓ ≤ ℓ') (hℓ' : ℓ' ≤ 11) :
    Reads ℓ' bs e := by
  obtain ⟨n, rfl⟩ := Nat.exists_eq_add_of_le hle
  induction n with
  | zero => exact h
  | succ n ih => exact (ih (by omega) (by omega)).succ (by omega)

/-! ### Primary expressions -/

/-- The token of a kind that has only one spelling. -/
def fixed (k : Kind) : Bare := (k, k.spelling)

theorem reads_of_primary {b : Bare} (hb : startLevel b.1 = 0)
    (h : ∀ {p q : Parser}, p.Takes (b :: bs) q →
      ∃ v, v.erase = e.erase ∧ Rule.primary.read p = (v, q)) : Reads 0 (b :: bs) e where
  starts := ⟨b, bs, rfl, Nat.le_of_eq hb⟩
  parses hp _ _ := by
    obtain ⟨v, hv, hout⟩ := h hp
    exact ⟨v, hv, (read_eq_run .postfixExpr _).trans (run_call hout _)⟩

theorem reads_name (pos : Position) (x : String) : Reads 0 [(.ident, x)] (.name pos x) := by
  refine reads_of_primary rfl fun {p q} hp => ⟨.name p.cur.pos x, rfl, ?_⟩
  simp [read_eq_run, ofRule, Steps.primary, hp.cur_kind, hp.lexeme, hp.advance_eq]

theorem reads_int (pos : Position) {v : Int64} {raw : String}
    (hv : Text.Numeral.signed raw.toList = .ok v) : Reads 0 [(.int, raw)] (.int pos v raw) := by
  refine reads_of_primary rfl fun {p q} hp => ⟨.int p.cur.pos v raw, rfl, ?_⟩
  simp [read_eq_run, ofRule, Steps.primary, hp.cur_kind, Steps.integer, hp.lexeme, hv,
    hp.advance_eq]

theorem reads_bool (pos : Position) (b : Bool) :
    Reads 0 [fixed (if b then .kwTrue else .kwFalse)] (.bool pos b) := by
  refine reads_of_primary (by cases b <;> rfl) fun {p q} hp => ⟨.bool p.cur.pos b, rfl, ?_⟩
  cases b <;> simp [read_eq_run, ofRule, Steps.primary, hp.cur_kind, hp.advance_eq]

theorem reads_paren (h : Reads 11 bs e) : Reads 0 (fixed .lparen :: (bs ++ [fixed .rparen])) e := by
  refine reads_of_primary rfl fun {p q} hp => ?_
  obtain ⟨m, hbs, hclose⟩ := hp.advance.append
  obtain ⟨v, hv, hout⟩ := h.exact hbs (by rw [hclose.kind]; decide)
  refine ⟨v, hv, ?_⟩
  simp [read_eq_run .primary, ofRule, Steps.primary, hp.cur_kind, run_call (r := .expr) hout,
    hclose.expect_eq]

/-- The tokens `bs` read as expressions separated by commas, up to a closing bracket. -/
def ReadsAll (bs : List Bare) (es : List Expr) : Prop :=
  ∀ {p q : Parser} {closing : Kind}, p.Takes bs q → q.kind = closing →
    closing = .rparen ∨ closing = .rbracket →
      ∃ vs, eraseExprs vs = eraseExprs es ∧ (Rule.exprList closing).read p = (vs, q)

theorem readsAll_nil : ReadsAll [] [] := by
  intro p q closing hp hq _
  obtain rfl := takes_nil.mp hp
  exact ⟨[], rfl, by simp [read_eq_run, ofRule, Steps.exprList, show p.cur.kind = _ from hq]⟩

theorem Reads.ne_closing (h : Reads 11 bs e) (hp : p.Takes bs q) {closing : Kind}
    (hclosing : closing = .rparen ∨ closing = .rbracket) :
    p.cur.kind ≠ closing ∧ p.cur.kind ≠ .endOfInput := by
  have hle := h.startLevel_le hp
  constructor <;> intro hk <;> rw [kind, hk] at hle
  · obtain rfl | rfl := hclosing <;> exact absurd hle (by decide)
  · exact absurd hle (by decide)

theorem readsAll_single (h : Reads 11 bs e) : ReadsAll bs [e] := by
  intro p q closing hp hq hclosing
  obtain ⟨hne, hend⟩ := h.ne_closing hp hclosing
  have hjoin : joinLevel q.kind = 12 ∧ q.cur.kind ≠ .comma := by
    rw [show q.cur.kind = _ from hq, hq]
    obtain rfl | rfl := hclosing <;> decide
  obtain ⟨v, hv, hout⟩ := h.exact hp (by omega)
  refine ⟨[v], by simp only [eraseExprs, hv], ?_⟩
  simp [read_eq_run (.exprList _), ofRule, Steps.exprList, hne, hend,
    run_call (r := .expr) hout, hjoin.2]

theorem readsAll_cons (h : Reads 11 bs e) (h' : ReadsAll bs' es) :
    ReadsAll (bs ++ fixed .comma :: bs') (e :: es) := by
  intro p q closing hp hq hclosing
  obtain ⟨m, hbs, hrest⟩ := hp.append
  obtain ⟨hne, hend⟩ := h.ne_closing hbs hclosing
  obtain ⟨v, hv, hout⟩ := h.exact hbs (by rw [hrest.kind]; decide)
  obtain ⟨vs, hvs, hout'⟩ := h' hrest.advance hq hclosing
  refine ⟨v :: vs, by simp only [eraseExprs, hv, hvs], ?_⟩
  simp [read_eq_run (.exprList _), ofRule, Steps.exprList, hne, hend,
    run_call (r := .expr) hout, hrest.cur_kind, run_call hout']

theorem reads_list (h : ReadsAll bs es) (l r : Position) :
    Reads 0 (fixed .lbracket :: (bs ++ [fixed .rbracket])) (.list l es r) := by
  refine reads_of_primary rfl fun {p q} hp => ?_
  obtain ⟨m, hbs, hclose⟩ := hp.advance.append
  obtain ⟨vs, hvs, hout⟩ := h hbs hclose.kind (.inr rfl)
  refine ⟨.list p.cur.pos vs m.cur.pos, by simp only [erase, hvs], ?_⟩
  simp [read_eq_run .primary, ofRule, Steps.primary, hp.cur_kind, run_call hout, hclose.expect_eq]

/-! ### Attributes and calls -/

theorem Reads.starts_append {ℓ' : Nat} (h : Reads ℓ bs e) (hle : ℓ ≤ ℓ') (bs' : List Bare) :
    ∃ b cs, bs ++ bs' = b :: cs ∧ startLevel b.1 ≤ ℓ' := by
  obtain ⟨b, cs, rfl, hb⟩ := h.starts
  exact ⟨b, cs ++ bs', rfl, Nat.le_trans hb hle⟩

theorem reads_attr (h : Reads 0 bs e) (field : String) (pos : Position) :
    Reads 0 (bs ++ [fixed .dot, (.ident, field)]) (.attr e field pos) where
  starts := h.starts_append (Nat.le_refl 0) _
  parses {p q} hp _ _ := by
    obtain ⟨m, hbs, hrest⟩ := hp.append
    obtain ⟨v, hv, hout⟩ := h.parses hbs (Nat.zero_le _) nofun
    obtain rfl := hrest.advance.lexeme
    refine ⟨.attr v m.advance.cur.lexeme m.advance.cur.pos, by simp only [erase, hv],
      hout.trans ?_⟩
    simp [tailAt, read_eq_run (.postfixTail v), ofRule, Steps.postfixTail, hrest.cur_kind,
      hrest.advance.cur_kind, hrest.advance.advance_eq]

theorem reads_call (h : Reads 0 bs e) (h' : ReadsAll bs' es) (l r : Position) :
    Reads 0 (bs ++ fixed .lparen :: (bs' ++ [fixed .rparen])) (.call e l es r) where
  starts := h.starts_append (Nat.le_refl 0) _
  parses {p q} hp _ _ := by
    obtain ⟨m, hbs, hrest⟩ := hp.append
    obtain ⟨n, hbs', hclose⟩ := hrest.advance.append
    obtain ⟨v, hv, hout⟩ := h.parses hbs (Nat.zero_le _) nofun
    obtain ⟨vs, hvs, hargs⟩ := h' hbs' hclose.kind (.inl rfl)
    refine ⟨.call v m.cur.pos vs n.cur.pos, by simp only [erase, hv, hvs], hout.trans ?_⟩
    simp [tailAt, read_eq_run (.postfixTail v), ofRule, Steps.postfixTail, hrest.cur_kind,
      run_call hargs, hclose.expect_eq]

/-! ### Operators -/

theorem reads_sign {op : UnaryOp} (hop : signOp? op.token = some op) (h : Reads 1 bs e)
    (pos : Position) : Reads 1 (fixed op.token :: bs) (.unary pos op e) where
  starts := ⟨_, _, rfl, by cases op <;> first | decide | cases hop⟩
  parses {p q} hp hle hlt := by
    obtain ⟨v, hv, hout⟩ := h.parses hp.advance hle hlt
    refine ⟨.unary p.cur.pos op v, by simp only [erase, hv], ?_⟩
    have hread : Rule.unary.read p.advance = (v, q) := (read_eq_run (.binary 0) _).symm.trans hout
    simp [outAt, tailAt, read_eq_run (.binary 0), read_eq_run .unary p, ofRule, Steps.binary,
      Steps.unary, hp.cur_kind, hop, run_call hread]

theorem reads_not (h : Reads 9 bs e) (pos : Position) :
    Reads 9 (fixed .kwNot :: bs) (.unary pos .not e) where
  starts := ⟨_, _, rfl, by decide⟩
  parses {p q} hp hle hlt := by
    obtain ⟨v, hv, hout⟩ := h.parses hp.advance hle hlt
    refine ⟨.unary p.cur.pos .not v, by simp only [erase, hv], ?_⟩
    simp [outAt, tailAt, read_eq_run (.logical 0) p, ofRule, Steps.logical, hp.cur_kind,
      run_call (r := .logical 0) hout]

theorem reads_unary {op : UnaryOp} (h : Reads op.level bs e) (pos : Position) :
    Reads op.level (fixed op.token :: bs) (.unary pos op e) := by
  cases op with
  | not => exact reads_not h pos
  | _ => exact reads_sign rfl h _

theorem binaryOp?_token (op : BinaryOp) : ∃ n ≤ 5, op.level = n + 2 ∧ joinLevel op.token = n + 2 ∧
    binaryOp? (n + 1) op.token = some op := by
  refine ⟨op.level - 2, ?_, ?_, ?_, ?_⟩ <;> cases op <;> decide

theorem reads_binary {op : BinaryOp} {left right : Expr} (h : Reads op.level bs left)
    (h' : Reads (op.level - 1) bs' right) (pos : Position) :
    Reads op.level (bs ++ fixed op.token :: bs') (.binary pos op left right) where
  starts := h.starts_append (Nat.le_refl _) _
  parses {p q} hp hle hlt := by
    obtain ⟨n, hn, hlevel, hjoin, hop⟩ := binaryOp?_token op
    rw [hlevel] at h h' hle ⊢
    -- The left operand comes to the loop of its level with this operator in front; the right one
    -- is of a tighter level and ends before whatever follows.
    obtain ⟨m, hbs, hrest⟩ := hp.append
    rw [← hrest.kind] at hjoin
    rw [← hrest.cur_kind] at hop
    obtain ⟨v, hv, hout⟩ := h.parses hbs (by omega) (by omega)
    obtain ⟨w, hw, hout'⟩ := h'.exact hrest.advance (by omega)
    refine ⟨.binary m.cur.pos op v w, by simp only [erase, hv, hw], ?_⟩
    rw [tailAt_binary hn] at hout ⊢
    have hright := (outAt_binary (by omega) _).symm.trans hout'
    simp [hout, read_eq_run (.binaryTail n v), ofRule, Steps.binaryTail, hop, run_call hright]

/-- The tokens `bs` read as the links of a comparison chain. -/
structure ReadsLinks (bs : List Bare) (ls : List (CompareOp × Position × Expr)) : Prop where
  starts : bs = [] ∨ ∃ b bs', bs = b :: bs' ∧ joinLevel b.1 = 8
  parses : ∀ {p q : Parser}, p.Takes bs q → 8 < joinLevel q.kind →
    ∃ vs, eraseLinks vs = eraseLinks ls ∧ Rule.comparisonTail.read p = (vs, q)

theorem readsLinks_nil : ReadsLinks [] [] where
  starts := .inl rfl
  parses {p q} hp hq := by
    obtain rfl := takes_nil.mp hp
    have hop : compareOp? p.cur.kind = none := compareOp?_eq_none (Nat.ne_of_gt hq)
    exact ⟨[], rfl, by simp [read_eq_run, ofRule, Steps.comparisonTail, hop]⟩

/-- In front of the links stands an operand. -/
theorem ReadsLinks.lt_joinLevel (h : ReadsLinks bs ls) (hp : p.Takes bs q)
    (hq : 8 < joinLevel q.kind) : 7 < joinLevel p.kind := by
  obtain rfl | ⟨b, bs', rfl, hb⟩ := h.starts
  · obtain rfl := takes_nil.mp hp
    omega
  · rw [hp.kind, hb]
    omega

theorem readsLinks_cons (op : CompareOp) (h : Reads 7 bs e) (h' : ReadsLinks bs' ls)
    (pos : Position) : ReadsLinks (fixed op.token :: (bs ++ bs')) ((op, pos, e) :: ls) where
  starts := .inr ⟨_, _, rfl, by cases op <;> rfl⟩
  parses {p q} hp hq := by
    obtain ⟨m, hbs, hrest⟩ := hp.advance.append
    obtain ⟨v, hv, hout⟩ := h.exact hbs (h'.lt_joinLevel hrest hq)
    obtain ⟨vs, hvs, hout'⟩ := h'.parses hrest hq
    have hop : compareOp? p.cur.kind = some op := by
      rw [hp.cur_kind]
      cases op <;> rfl
    refine ⟨(op, p.cur.pos, v) :: vs, by simp only [eraseLinks, hv, hvs], ?_⟩
    simp [read_eq_run .comparisonTail p, ofRule, Steps.comparisonTail, hop,
      run_call (r := .binary 6) hout, run_call hout']

theorem reads_compare {l : CompareOp × Position × Expr} (h : Reads 7 bs e)
    (h' : ReadsLinks bs' (l :: ls)) : Reads 8 (bs ++ bs') (.compare e (l :: ls)) where
  starts := h.starts_append (by omega) _
  parses {p q} hp hle hlt := by
    obtain ⟨m, hbs, hrest⟩ := hp.append
    have hq := hlt (Nat.le_refl 8)
    obtain ⟨v, hv, hout⟩ := h.exact hbs (h'.lt_joinLevel hrest hq)
    obtain ⟨vs, hvs, hout'⟩ := h'.parses hrest hq
    refine ⟨.compare v vs, by simp only [erase, hv, hvs], ?_⟩
    -- A chain without links would be its first operand.
    cases vs with
    | nil => simp [eraseLinks] at hvs
    | cons =>
      simp [outAt, tailAt, read_eq_run .comparison, ofRule, run_call (r := .binary 6) hout,
        run_call hout']

theorem logicalOp_place (op : BoolOp) : logicalOp op.place = op := by
  cases op <;> rfl

theorem outAt_place (op : BoolOp) (p : Parser) :
    outAt (op.level - 1) p = (Rule.logical op.place).read p := by
  cases op <;> rfl

theorem read_logicalTail_cons {r : Parser} (h : p.cur.kind = op.token)
    (he : outAt (op.level - 1) p.advance = (e, q))
    (hes : (Rule.logicalTail op.place).read q = (es, r)) :
    (Rule.logicalTail op.place).read p = (e :: es, r) := by
  rw [outAt_place] at he
  simp [read_eq_run (.logicalTail op.place) p, ofRule, Steps.logicalTail, logicalOp_place, h,
    run_call he, run_call hes]

theorem outAt_boolOp {r : Parser} {e' : Expr} (he : outAt (op.level - 1) p = (e, q))
    (hes : (Rule.logicalTail op.place).read q = (e' :: es, r)) :
    outAt op.level p = (.boolOp q.cur.pos op e (e' :: es), r) := by
  have hout : outAt op.level p = (Rule.logical (op.place + 1)).read p := by cases op <;> rfl
  rw [outAt_place] at he
  simp [hout, read_eq_run (.logical (op.place + 1)), ofRule, Steps.logical, logicalOp_place,
    run_call he, run_call hes]

/-- The tokens `bs` read as the further operands of `and` or `or`. -/
structure ReadsOthers (op : BoolOp) (bs : List Bare) (es : List Expr) : Prop where
  starts : bs = [] ∨ ∃ bs', bs = fixed op.token :: bs'
  parses : ∀ {p q : Parser}, p.Takes bs q → op.level < joinLevel q.kind →
    ∃ vs, eraseExprs vs = eraseExprs es ∧ (Rule.logicalTail op.place).read p = (vs, q)

theorem joinLevel_boolOp (op : BoolOp) : joinLevel op.token = op.level := by
  cases op <;> rfl

theorem readsOthers_nil (op : BoolOp) : ReadsOthers op [] [] where
  starts := .inl rfl
  parses {p q} hp hq := by
    obtain rfl := takes_nil.mp hp
    refine ⟨[], rfl, read_logicalTail_nil fun hk => ?_⟩
    rw [kind, hk, logicalOp_place, joinLevel_boolOp] at hq
    exact absurd hq (Nat.lt_irrefl _)

@[inherit_doc ReadsLinks.lt_joinLevel]
theorem ReadsOthers.lt_joinLevel (h : ReadsOthers op bs es) (hp : p.Takes bs q)
    (hq : op.level < joinLevel q.kind) : op.level - 1 < joinLevel p.kind := by
  have hpos : 0 < op.level := by cases op <;> decide
  obtain rfl | ⟨bs', rfl⟩ := h.starts
  · obtain rfl := takes_nil.mp hp
    omega
  · rw [hp.kind, joinLevel_boolOp]
    omega

theorem readsOthers_cons (h : Reads (op.level - 1) bs e) (h' : ReadsOthers op bs' es) :
    ReadsOthers op (fixed op.token :: (bs ++ bs')) (e :: es) where
  starts := .inr ⟨_, rfl⟩
  parses {p q} hp hq := by
    obtain ⟨m, hbs, hrest⟩ := hp.advance.append
    obtain ⟨v, hv, hout⟩ := h.exact hbs (h'.lt_joinLevel hrest hq)
    obtain ⟨vs, hvs, hout'⟩ := h'.parses hrest hq
    exact ⟨v :: vs, by simp only [eraseExprs, hv, hvs],
      read_logicalTail_cons hp.cur_kind hout hout'⟩

theorem reads_boolOp {e' : Expr} (h : Reads (op.level - 1) bs e)
    (h' : ReadsOthers op bs' (e' :: es)) (pos : Position) :
    Reads op.level (bs ++ bs') (.boolOp pos op e (e' :: es)) where
  starts := h.starts_append (Nat.sub_le ..) _
  parses {p q} hp hle hlt := by
    have hq := hlt (by cases op <;> decide)
    obtain ⟨m, hbs, hrest⟩ := hp.append
    obtain ⟨v, hv, hout⟩ := h.exact hbs (h'.lt_joinLevel hrest hq)
    obtain ⟨vs, hvs, hout'⟩ := h'.parses hrest hq
    refine ⟨.boolOp m.cur.pos op v vs, by simp only [erase, hv, hvs], ?_⟩
    rw [tailAt_of_lt hq]
    cases vs with
    | nil => simp [eraseExprs] at hvs
    | cons => exact outAt_boolOp hout hout'

end Parser

end Sequencer.Program
