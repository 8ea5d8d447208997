import Sequencer.Program.Parser.Rules

/-!
# Carrying out the rules

A rule leaves a parser behind, with a proof that no token came back and that one was used up unless
the line was already over (`Rule.Keeps`). So every call is made with fewer tokens, or goes to a rule
further down in the order. This is what ends every loop and recursion.
-/

namespace Sequencer.Program

namespace Parser

open Token (Kind)

/-- The rules that use up a token unless the line is over. -/
def Rule.consumes : Rule → Bool
  | .primary | .postfixExpr | .unary | .binary _ | .comparison | .logical _
  | .exprOrYield | .exprOrAssign | .simpleBody | .simple | .skipLine | .cond | .stmt => true
  | _ => false

/-- The parser `q` may be left behind by a rule that has started on `p`. -/
structure Rule.Keeps (r : Rule) (p q : Parser) : Prop where
  le : q.size ≤ p.size
  lt : r.consumes = true → p.kind.endsLine = false → q.size < p.size

namespace Rule.Keeps

variable {r : Rule} {p q q' : Parser}

theorem refl (h : r.consumes = false) : r.Keeps p p :=
  ⟨Nat.le_refl _, fun hc => absurd hc (by simp [h])⟩

theorem of_lt (h : q.size < p.size) : r.Keeps p q := ⟨Nat.le_of_lt h, fun _ _ => h⟩

theorem of_endsLine (h : p.kind.endsLine = true) : r.Keeps p p :=
  ⟨Nat.le_refl _, fun _ hl => absurd h (by simp [hl])⟩

theorem trans (h : r.Keeps p q) (hle : q'.size ≤ q.size) : r.Keeps p q' :=
  ⟨Nat.le_trans hle h.le, fun hc hl => Nat.lt_of_le_of_lt hle (h.lt hc hl)⟩

end Rule.Keeps

/-- What gets smaller with every call. -/
def Rule.measure (r : Rule) (p : Parser) : Nat := 64 * p.size + r.order

/-- A rule that has started on `p` may call `r'` on `q`. -/
def Rule.Calls (r : Rule) (p : Parser) (r' : Rule) (q : Parser) : Prop :=
  q.size ≤ p.size ∧ r'.measure q < r.measure p

namespace Steps

variable {α : Type} {r r' : Rule} {p q : Parser}

/-! ### Sound steps -/

/-- The steps on `q` are those of a rule that has started on `p`, whatever the rules they call
read. -/
def Sound (r : Rule) (p : Parser) : Steps α → Parser → Prop
  | done _, q => r.Keeps p q
  | look next, q => (next q.cur).Sound r p q
  | advance next, q => next.Sound r p q.advance
  | complain pos c next, q => next.Sound r p (q.complain pos c)
  | missingBlock next, q => next.Sound r p q.complainMissingBlock
  | call r' next, q => r.Calls p r' q ∧ ∀ v q', r'.Keeps q q' → (next v).Sound r p q'

/-- All calls go to rules below the place `n` in the order. -/
def Below (n : Nat) : Steps α → Prop
  | done _ => True
  | look next => ∀ t, (next t).Below n
  | advance next | complain _ _ next | missingBlock next => next.Below n
  | call r next => r.order < n ∧ ∀ v, (next v).Below n

section Below

variable {n : Nat} {next : Steps α}

theorem below_ite {c : Prop} [Decidable c] {s t : Steps α} :
    (if c then s else t).Below n ↔ if c then s.Below n else t.Below n := by
  split <;> rfl

theorem below_expect {k : Kind} : (expect k next).Below n ↔ next.Below n := by
  simp [expect, Below, below_ite]

theorem below_checkLoopElse : (checkLoopElse next).Below n ↔ next.Below n := by
  simp [checkLoopElse, Below, below_ite]

theorem below_checkTargets (h : next.Below n) (ts : List Expr) :
    (checkTargets next ts).Below n := by
  induction ts with
  | nil => exact h
  | cons t ts ih =>
    rw [checkTargets]
    split <;> exact ih

theorem below_integer (n : Nat) (t : Token) : (integer t).Below n := by
  rw [integer]
  split <;> trivial

end Below

/-- Once a token is used up, a rule may call whatever is not too far up. -/
theorem sound_of_lt {s : Steps α} (h : q.size < p.size) (hs : s.Below (64 + r.order)) :
    s.Sound r p q := by
  induction s generalizing q with
  | done a => exact .of_lt h
  | look next ih => exact ih _ h (hs _)
  | advance next ih => exact ih (Nat.lt_of_le_of_lt (size_advance_le q) h) hs
  | complain _ _ _ ih | missingBlock _ ih => exact ih h hs
  | call r' next ih =>
    have hr := hs.1
    refine ⟨⟨Nat.le_of_lt h, ?_⟩, fun v q' hq => ih v (Nat.lt_of_le_of_lt hq.le h) (hs.2 v)⟩
    simp only [Rule.measure]
    omega

theorem sound_later_advance {next : Steps α} (hq : r'.Keeps p q) (hk : q.cur.kind ≠ .endOfInput)
    (hs : next.Below (64 + r.order)) : (advance next).Sound r p q :=
  sound_of_lt (q := q.advance) (Nat.lt_of_lt_of_le (size_advance_lt hk) hq.le) hs

/-- A rule may begin with a token. -/
theorem sound_advance {next : Steps α} (hk : p.cur.kind ≠ .endOfInput)
    (hs : next.Below (64 + r.order)) : (advance next).Sound r p p :=
  sound_of_lt (q := p.advance) (size_advance_lt hk) hs

/-- A rule may begin with a call further down that uses up a token. -/
theorem sound_call {next : r'.Result → Steps α} (hr : r'.order < r.order)
    (hc : r'.consumes = true) (h : ∀ v q, r.Keeps p q → (next v).Sound r p q) :
    (call r' next).Sound r p p :=
  ⟨⟨Nat.le_refl _, Nat.add_lt_add_left hr _⟩, fun v q hq => h v q ⟨hq.le, fun _ => hq.lt hc⟩⟩

theorem sound_call_done (hr : r'.order < r.order) (hc : r'.consumes = true) :
    (call r' done).Sound r p p :=
  sound_call hr hc fun _ _ h => h

/-- When a rule makes a later call, it has used up what it should. -/
theorem sound_later {next : r'.Result → Steps α} (hq : r.Keeps p q) (hr : r'.order < r.order)
    (h : ∀ v q, r.Keeps p q → (next v).Sound r p q) : (call r' next).Sound r p q :=
  ⟨⟨hq.le, Nat.add_lt_add_of_le_of_lt (Nat.mul_le_mul_left 64 hq.le) hr⟩,
    fun v _ hq' => h v _ (hq.trans hq'.le)⟩

theorem ne_end_of_endsLine {k : Kind} (h : ¬ k.endsLine = true) : k ≠ .endOfInput := by
  rintro rfl
  exact h rfl

theorem endsLine_eq_false {k : Kind} (h : k ≠ .newline) (h' : k ≠ .endOfInput) :
    k.endsLine = false := by
  revert h h'
  cases k <;> simp [Kind.endsLine]

/-! ### The rules -/

section Rules

variable (p)

theorem sound_primary : (primary p.cur).Sound .primary p p := by
  unfold primary
  split
  case h_2 => exact sound_advance (by simp [*]) (below_integer ..)
  case h_7 =>
    show (if p.kind.endsLine then _ else _ : Steps Expr).Sound _ p (p.complain ..)
    split
    · exact (Rule.Keeps.of_endsLine ‹_›).trans (Nat.le_refl _)
    · exact .of_lt (size_advance_lt (ne_end_of_endsLine ‹_›))
  all_goals
    exact sound_advance (by simp [*]) (by simp [Below, Rule.order, below_expect])

theorem sound_postfixTail (e : Expr) : (postfixTail e p.cur).Sound (.postfixTail e) p p := by
  unfold postfixTail
  split
  case h_3 => exact Rule.Keeps.refl rfl
  all_goals
    exact sound_advance (by simp [*]) (by simp [Below, Rule.order, below_expect, below_ite])

theorem sound_unary : (unary p.cur).Sound .unary p p := by
  unfold unary
  split
  · exact sound_advance (ne_end_of_signOp? ‹_›) (by simp [Below, Rule.order])
  · exact sound_call_done (by decide) rfl

theorem sound_binaryTail (level : Nat) (left : Expr) :
    (binaryTail level left p.cur).Sound (.binaryTail level left) p p := by
  unfold binaryTail
  split
  · exact sound_advance (ne_end_of_binaryOp? ‹_›) (by simp [Below, Rule.order]; omega)
  · exact Rule.Keeps.refl rfl

theorem sound_binary (level : Nat) : (binary level).Sound (.binary level) p p := by
  cases level with
  | zero => exact sound_call_done (by decide) rfl
  | succ level =>
    refine sound_call (by simp only [Rule.order]; omega) rfl fun left q hq => ?_
    exact sound_later hq (by simp only [Rule.order]; omega) fun _ _ h => h

theorem sound_comparisonTail : (comparisonTail p.cur).Sound .comparisonTail p p := by
  unfold comparisonTail
  split
  · exact sound_advance (ne_end_of_compareOp? ‹_›) (by simp [Below, Rule.order])
  · exact Rule.Keeps.refl rfl

theorem sound_logicalTail (level : Nat) :
    (logicalTail level p.cur).Sound (.logicalTail level) p p := by
  unfold logicalTail
  split
  · rename_i hk
    have hend : p.cur.kind ≠ .endOfInput := by rw [hk]; cases logicalOp level <;> decide
    exact sound_advance hend (by simp [Below, Rule.order]; omega)
  · exact Rule.Keeps.refl rfl

theorem sound_logical (level : Nat) : (logical level).Sound (.logical level) p p := by
  cases level with
  | zero =>
    show (if _ then _ else _ : Steps Expr).Sound _ p p
    split
    · exact sound_advance (by simp [*]) (by simp [Below, Rule.order])
    · exact sound_call_done (by decide) rfl
  | succ level =>
    refine sound_call (by simp only [Rule.order]; omega) rfl fun first q hq => ?_
    exact sound_later hq (by simp only [Rule.order]; omega) fun _ _ h => h

theorem sound_exprList (closing : Kind) :
    (exprList closing p.cur).Sound (.exprList closing) p p := by
  unfold exprList
  split
  · exact Rule.Keeps.refl rfl
  · refine sound_call (by decide : 25 < 26) rfl fun e q hq => ?_
    show (if _ then _ else _ : Steps (List Expr)).Sound _ p q
    split
    · exact sound_later_advance hq (by simp [*]) (by simp [Below, Rule.order])
    · exact hq

theorem sound_assignTail : (ofRule .assignTail).Sound .assignTail p p := by
  refine sound_call (by decide) rfl fun e q hq => ?_
  show (if _ then _ else _ : Steps (List Expr × Expr)).Sound _ p q
  split
  · exact sound_later_advance hq (by simp [*]) (by simp [Below, Rule.order])
  · exact hq

theorem sound_exprOrAssign : (ofRule .exprOrAssign).Sound .exprOrAssign p p := by
  refine sound_call (by decide) rfl fun e q hq => ?_
  show (if _ then _ else _ : Steps Stmt).Sound _ p q
  split
  · refine sound_later_advance hq (by simp [*]) ⟨by decide, fun v => ?_⟩
    apply below_checkTargets
    trivial
  · exact hq

theorem sound_simpleBody : (simpleBody p.cur).Sound .simpleBody p p := by
  unfold simpleBody
  split
  case h_5 => exact sound_call_done (by decide) rfl
  all_goals
    exact sound_advance (by simp [*]) (by simp [Below, Rule.order, below_ite])

theorem sound_simple : (ofRule .simple).Sound .simple p p := by
  refine sound_call (by decide) rfl fun s q hq => ?_
  show (if _ then _ else _ : Steps Stmt).Sound _ p q
  split
  · exact hq.trans (size_advance_le q)
  · exact sound_later (q := q.complain ..) (hq.trans (Nat.le_refl _)) (by decide) fun _ _ h => h

theorem sound_skipLine : (skipLine p.cur).Sound .skipLine p p := by
  unfold skipLine
  split
  · have hends := Rule.Keeps.of_endsLine (r := .skipLine) (p := p) ‹_›
    split
    · exact hends.trans (size_advance_le p)
    · exact hends
  · exact sound_advance (ne_end_of_endsLine ‹_›) (by simp [Below, Rule.order])

theorem sound_block : (block p.cur).Sound .block p p := by
  unfold block
  split
  · exact sound_advance (by simp [*])
      (by simp [Below, Rule.order, below_ite, below_expect])
  · exact sound_call (by decide) rfl fun _ _ h => h

theorem sound_suite : (ofRule .suite).Sound .suite p p := by
  show (if _ then _ else _ : Steps (List Stmt)).Sound _ p p
  split
  · exact sound_advance (by simp [*]) (by simp [Below, Rule.order])
  · exact sound_later (q := (p.complain ..).advance)
      ((Rule.Keeps.refl rfl).trans (size_advance_le _)) (by decide) fun _ _ h => h

theorem sound_cond : (cond p.cur).Sound .cond p p := by
  unfold cond
  split
  · exact Rule.Keeps.of_endsLine (by simp [kind, Kind.endsLine, *])
  · exact sound_advance ‹_› (by simp [Below, Rule.order, below_ite])

theorem sound_stmt : (stmt p.cur).Sound .stmt p p := by
  unfold stmt
  split
  case h_2 => exact sound_call_done (by decide) rfl
  case h_5 hk =>
    exact sound_of_lt (q := (p.complain ..).advance) (size_advance_lt (p := p) (by simp [kind, hk]))
      (by simp [Below, Rule.order])
  case h_6 | h_7 =>
    exact ⟨⟨Nat.le_refl _, Nat.add_lt_add_left (by decide) _⟩, fun _ q hq =>
      ⟨hq.le, fun _ => hq.lt rfl⟩⟩
  case h_8 => exact sound_call (by decide) rfl fun _ _ h => h
  all_goals
    exact sound_advance (by simp [*])
      (by simp [Below, Rule.order, below_expect, below_ite, below_checkLoopElse])

theorem sound_stmts (inBlock : Bool) : (stmts inBlock p.cur).Sound (.stmts inBlock) p p := by
  unfold stmts
  split
  · exact Rule.Keeps.refl rfl
  split
  · exact Rule.Keeps.refl rfl
  split
  · exact sound_advance (by simp [*]) (by simp [Below, Rule.order])
  · rename_i hend _ hline
    exact ⟨⟨Nat.le_refl _, Nat.add_lt_add_left (by decide : 35 < 36) _⟩, fun s q hq =>
      sound_of_lt (hq.lt rfl (endsLine_eq_false hline hend)) (by simp [Below, Rule.order])⟩

end Rules

/-- **The steps of every rule are sound.** -/
theorem sound_ofRule (r : Rule) (p : Parser) : (ofRule r).Sound r p p := by
  cases r with
  | primary => exact sound_primary p
  | postfixTail e => exact sound_postfixTail p e
  | unary => exact sound_unary p
  | binaryTail level left => exact sound_binaryTail p level left
  | binary level => exact sound_binary p level
  | comparisonTail => exact sound_comparisonTail p
  | logicalTail level => exact sound_logicalTail p level
  | logical level => exact sound_logical p level
  | exprList closing => exact sound_exprList p closing
  | assignTail => exact sound_assignTail p
  | exprOrAssign => exact sound_exprOrAssign p
  | simpleBody => exact sound_simpleBody p
  | simple => exact sound_simple p
  | skipLine => exact sound_skipLine p
  | block => exact sound_block p
  | suite => exact sound_suite p
  | cond => exact sound_cond p
  | stmt => exact sound_stmt p
  | stmts inBlock => exact sound_stmts p inBlock
  | postfixExpr =>
    exact sound_call (by decide) rfl fun e _ hq =>
      sound_later hq (by simp [Rule.order]) fun _ _ h => h
  | comparison =>
    exact sound_call (by decide) rfl fun _ _ hq => sound_later hq (by decide) fun _ _ h => h
  | exprOrYield =>
    show (if _ then _ else _ : Steps Expr).Sound _ p p
    split
    · exact sound_advance (by simp [*])
        (by simp [Below, Rule.order, below_ite])
    · exact sound_call_done (by decide) rfl
  | params =>
    show (if _ then _ else _ : Steps (List _)).Sound _ p p
    split
    · exact sound_advance (by simp [*])
        (by simp [Below, Rule.order, below_ite])
    · exact Rule.Keeps.refl rfl

/-! ### Reading -/

/-- Carry out sound steps, where `read` answers the calls. -/
def runSound (read : (r' : Rule) → (q : Parser) → r.Calls p r' q →
    {o : r'.Result × Parser // r'.Keeps q o.2}) :
    (s : Steps α) → (q : Parser) → s.Sound r p q → {o : α × Parser // r.Keeps p o.2}
  | done a, q, h => ⟨(a, q), h⟩
  | look next, q, h => (next q.cur).runSound read q h
  | advance next, q, h => next.runSound read q.advance h
  | complain pos c next, q, h => next.runSound read (q.complain pos c) h
  | missingBlock next, q, h => next.runSound read q.complainMissingBlock h
  | call r' next, q, h =>
    let o := read r' q h.1
    (next o.1.1).runSound read o.1.2 (h.2 _ _ o.2)

end Steps

/-- What a rule reads, and the parser it leaves behind. -/
def Rule.readSound (r : Rule) (p : Parser) : {o : r.Result × Parser // r.Keeps p o.2} :=
  (Steps.ofRule r).runSound (fun r' q _ => r'.readSound q) p (Steps.sound_ofRule r p)
termination_by r.measure p
decreasing_by exact And.right ‹_›

@[inherit_doc Rule.readSound]
def Rule.read (r : Rule) (p : Parser) : r.Result × Parser := (r.readSound p).1

theorem keeps_read (r : Rule) (p : Parser) : r.Keeps p (r.read p).2 := (r.readSound p).2

end Parser

/-- The outcome of reading a program text: a tree in any case, every complaint about the text, and
whether more text might complete it. -/
structure Parsed where
  module : Module
  diagnostics : List Diagnostic
  incomplete : Bool
deriving Repr

def parse (text : List Char) : Parsed :=
  let lexed := lex text
  let (body, p) := (Parser.Rule.stmts false).read (.start lexed)
  { module := ⟨body⟩
    diagnostics := lexed.diagnostics ++ p.complaints
    incomplete := p.incomplete }

end Sequencer.Program
