import Mathlib.Logic.Relation
import Mathlib.Logic.Function.Iterate
import Sequencer.Proofs.Program.Reading.Expr
import Sequencer.Proofs.Token.Scanning

/-!
# Reading comes to an end

Every text has at most two tokens for each of its characters, and the parser reads all of them. A
chain of calls that comes back to the same function has used up a token, and so has a round of a
loop, with one exception: inside mixed brackets, as in `f(],`, the last round of a list reads
nothing.
-/

namespace Sequencer.Program.Parser

open Token (Kind)

open Steps Rule Lexer List

/-! ### Chains of calls -/

/-- Some calls, each made by the one before, lead from one call to another. -/
def Reaches : Rule × Parser → Rule × Parser → Prop :=
  Relation.TransGen fun a b => b ∈ (ofRule a.1).calls a.2

/-- A chain of calls goes down or uses up a token. -/
theorem order_lt_or_size_lt {a b : Rule × Parser} (h : Reaches a b) :
    b.2.size < a.2.size ∨ b.2.size ≤ a.2.size ∧ b.1.order < a.1.order := by
  induction h with
  | single hb => exact falls_ofRule _ _ _ hb
  | tail _ hc ih =>
    have hstep := falls_ofRule _ _ _ hc
    omega

/-! ### Loops -/

/-- The rules that are loops, with the kinds of token at which they go round. -/
def Rule.loop? : Rule → Option (Kind → Bool)
  | .stmts inBlock => some fun k => k ≠ .endOfInput && !(inBlock && k = .dedent)
  | .exprList closing => some fun k => k ≠ closing && k ≠ .endOfInput
  | .binaryTail level _ => some fun k => (binaryOp? (level + 1) k).isSome
  | .comparisonTail => some fun k => (compareOp? k).isSome
  | .logicalTail level => some fun k => k = (logicalOp level).token
  | .postfixTail _ => some fun k => k = .dot || k = .lparen
  | .params => some fun k => k = .ident
  | _ => none

def Rule.next? (r : Rule) (p : Parser) : Option Parser :=
  (((ofRule r).calls p).find? fun c => c.1.order = r.order).map Prod.snd

/-- The parser at the end of a round: at the next one, or at the end of the loop. -/
def Rule.roundEnd (r : Rule) (p : Parser) : Parser := (r.next? p).getD (r.read p).2

variable {r : Rule} {p : Parser} {test : Kind → Bool}

theorem Rule.size_next?_lt {q : Parser} (h : r.next? p = some q) : q.size < p.size := by
  obtain ⟨c, hc, rfl⟩ := Option.map_eq_some_iff.mp h
  have horder : c.1.order = r.order := by simpa using find?_some hc
  have hstep := falls_ofRule r p c (mem_of_find?_eq_some hc)
  omega

/-- The first steps of a round: it uses up the current token, or it reads a statement or an
expression there. -/
inductive Steps.Opens (r : Rule) (k : Kind) {α : Type} : Steps α → Prop
  | advance (next : Steps α) : Opens r k (advance next)
  | stmt (hline : k ≠ .newline) (next : Rule.stmt.Result → Steps α) : Opens r k (call .stmt next)
  | expr (closing : Kind) (hr : r = .exprList closing) (next : Rule.expr.Result → Steps α) :
      Opens r k (call .expr next)

theorem Steps.ofRule_of_loop? (h : r.loop? = some test) :
    test .endOfInput = false ∧ ∃ next, ofRule r = look next ∧ ∀ t : Token,
      (test t.kind = false → ∃ a, next t = done a) ∧
      (test t.kind = true → Opens r t.kind (next t)) := by
  cases r <;> cases h
  case binaryTail level left =>
    refine ⟨by simp [binaryOp?], _, rfl, fun t => ?_⟩
    unfold Steps.binaryTail
    split <;> simp_all [Opens.advance]
  case postfixTail e | comparisonTail | params =>
    refine ⟨rfl, _, rfl, fun t => ?_⟩
    dsimp only [Steps.postfixTail, Steps.comparisonTail, Steps.params]
    split <;> simp_all [Opens.advance]
  case logicalTail level =>
    refine ⟨by cases level <;> rfl, _, rfl, fun t => ?_⟩
    unfold Steps.logicalTail
    split <;> simp_all [Opens.advance]
  case exprList closing =>
    refine ⟨by simp, _, rfl, fun t => ?_⟩
    unfold Steps.exprList
    split
    · refine ⟨fun _ => ⟨_, rfl⟩, fun hk => ?_⟩
      rename_i hover
      simp only [ne_eq, decide_not, Bool.and_eq_true, Bool.not_eq_true', decide_eq_false_iff_not,
        Bool.or_eq_true, decide_eq_true_eq] at hk hover
      exact absurd hover (not_or.mpr hk)
    · refine ⟨fun hk => ?_, fun _ => .expr closing rfl _⟩
      simp_all
  case stmts inBlock =>
    refine ⟨rfl, _, rfl, fun t => ?_⟩
    unfold Steps.stmts
    split
    · simp_all
    · split
      · simp_all
      · split
        · refine ⟨fun hk => ?_, fun _ => .advance _⟩
          simp_all
        · refine ⟨fun hk => ?_, fun _ => .stmt ‹_› _⟩
          simp_all

theorem Rule.read_of_loop?_false (h : r.loop? = some test) (hk : test p.kind = false) :
    (r.read p).2 = p := by
  obtain ⟨-, next, hsteps, hnext⟩ := ofRule_of_loop? h
  obtain ⟨a, ha⟩ := (hnext p.cur).1 hk
  rw [read_eq_run, hsteps, Steps.run, ha, Steps.run]

theorem Steps.size_run_le {α : Type} (s : Steps α) (p : Parser) : (s.run p).2.size ≤ p.size :=
  (s.later_run_steps p).rest.length_le

/-- A loop that goes round uses up a token, except that a list of expressions may find the end of
the line. -/
theorem Rule.size_read_lt (h : r.loop? = some test) (hk : test p.kind = true)
    (hline : ∀ closing, r = .exprList closing → p.kind ≠ .newline) :
    (r.read p).2.size < p.size := by
  obtain ⟨hend, next, hsteps, hnext⟩ := ofRule_of_loop? h
  have hkind : p.kind ≠ .endOfInput := by
    intro hk'
    rw [hk', hend] at hk
    cases hk
  have hopens : Opens r p.kind (next p.cur) := (hnext p.cur).2 hk
  rw [read_eq_run, hsteps, Steps.run]
  generalize next p.cur = s at hopens
  cases hopens with
  | advance next => exact Nat.lt_of_le_of_lt (next.size_run_le _) (size_advance_lt hkind)
  | stmt hline next =>
    exact Nat.lt_of_le_of_lt ((next _).size_run_le _)
      ((keeps_read .stmt p).lt rfl (endsLine_eq_false hline hkind))
  | expr closing hr next =>
    exact Nat.lt_of_le_of_lt ((next _).size_run_le _)
      ((keeps_read .expr p).lt rfl (endsLine_eq_false (hline closing hr) hkind))

theorem read_expr_newline (h : p.kind = .newline) :
    Rule.expr.read p = (.int p.pos 0 "0", p.complain p.pos (.notAnExpression .newline)) := by
  have hread : Rule.primary.read p =
      (.int p.pos 0 "0", p.complain p.pos (.notAnExpression .newline)) := by
    rw [read_eq_run, ofRule, Steps.run, Steps.primary, show p.cur.kind = _ from h]
    rfl
  have hjoin : joinLevel (p.complain p.pos (.notAnExpression .newline)).kind = 12 :=
    congrArg joinLevel h
  have houtAt : ∀ ℓ ≤ 11, outAt ℓ p =
      (.int p.pos 0 "0", p.complain p.pos (.notAnExpression .newline)) := by
    intro ℓ hℓ
    induction ℓ with
    | zero =>
      refine (read_eq_run .postfixExpr p).trans ((run_call hread _).trans ?_)
      exact tailAt_of_lt (ℓ := 0) (by omega) _
    | succ ℓ ih =>
      have hstart : startLevel p.kind = 12 := by rw [h]; rfl
      refine (outAt_succ hℓ (by omega) (by omega) (ih (by omega))).trans ?_
      exact tailAt_of_lt (by omega) _
  exact houtAt 11 (Nat.le_refl 11)

/-- **A list of expressions that goes on where the line ends** goes round once more, for nothing. -/
theorem exprList_newline {closing : Kind} (h : p.kind = .newline) (hk : p.kind ≠ closing) :
    (Rule.exprList closing).next? p = none ∧ ((Rule.exprList closing).read p).2.rest = p.rest := by
  have hexpr := read_expr_newline h
  have hline : (p.complain p.pos (.notAnExpression .newline)).cur.kind = .newline := h
  have hover : ¬(decide (p.cur.kind = closing) || decide (p.cur.kind = .endOfInput)) = true := by
    rw [show p.cur.kind = _ from h]
    simpa [h] using hk
  constructor
  · have hcalls : (ofRule (.exprList closing)).calls p = [(.expr, p)] := by
      change (Steps.exprList closing p.cur).calls p = _
      rw [Steps.exprList, if_neg hover]
      simp only [Steps.calls, hexpr, hline, reduceCtorEq, if_false]
    rw [Rule.next?, hcalls]
    rfl
  · rw [read_eq_run, ofRule, run_look, Steps.exprList, if_neg hover,
      run_call hexpr, run_look, if_neg (by rw [hline]; decide)]
    rfl

/-- **A round of a loop uses up a token**, or it is the last one of a list of expressions, at the
end of a line, and uses up nothing. -/
theorem Rule.round_spends (h : r.loop? = some test) (hk : test p.kind = true) :
    (r.roundEnd p).size < p.size ∨
      ∃ closing, r = .exprList closing ∧ p.kind = .newline ∧ r.next? p = none ∧
        (r.read p).2.rest = p.rest := by
  cases hnext : r.next? p with
  | some q =>
    rw [roundEnd, hnext]
    exact .inl (size_next?_lt hnext)
  | none =>
    rw [roundEnd, hnext]
    by_cases hline : ∃ closing, r = .exprList closing ∧ p.kind = .newline
    · obtain ⟨closing, rfl, hp⟩ := hline
      cases h
      have hclosing : p.kind ≠ closing := by simp_all
      exact .inr ⟨closing, rfl, hp, rfl, (exprList_newline hp hclosing).2⟩
    · exact .inl (size_read_lt h hk fun closing hr hp => hline ⟨closing, hr, hp⟩)

/-! ### The whole text -/

theorem rest_eq_nil (h : ∀ t ∈ p.rest, t.kind ≠ .endOfInput) (hk : p.kind = .endOfInput) :
    p.rest = [] := by
  cases hrest : p.rest with
  | nil => rfl
  | cons t ts =>
    have ht := h t (hrest ▸ mem_cons_self)
    rw [kind, cur, hrest] at hk
    exact absurd hk ht

theorem stmts_round (hk : p.kind ≠ .endOfInput) :
    ∃ q, Later p q ∧ q.size < p.size ∧
      ((Rule.stmts false).read p).2 = ((Rule.stmts false).read q).2 := by
  have hread : ((Rule.stmts false).read p).2 = ((Steps.stmts false p.cur).run p).2 :=
    congrArg Prod.snd (read_eq_run _ p)
  rw [hread, Steps.stmts, if_neg (show p.cur.kind ≠ _ from hk), if_neg (by simp)]
  split
  · exact ⟨p.advance, .advance p, size_advance_lt hk, rfl⟩
  · exact ⟨(Rule.stmt.read p).2, later_read .stmt p,
      (keeps_read .stmt p).lt rfl (endsLine_eq_false ‹_› hk), rfl⟩

theorem rest_stmts (p : Parser) (h : ∀ t ∈ p.rest, t.kind ≠ .endOfInput) :
    ((Rule.stmts false).read p).2.rest = [] := by
  induction hn : p.size using Nat.strongRecOn generalizing p with
  | ind n ih =>
    by_cases hk : p.kind = .endOfInput
    · rw [read_of_loop?_false rfl (by simp [hk])]
      exact rest_eq_nil h hk
    · obtain ⟨q, hlater, hlt, hread⟩ := stmts_round hk
      rw [hread]
      exact ih q.size (hn ▸ hlt) q (fun t ht => h t (hlater.rest.subset ht)) rfl

theorem rest_iterate_advance (p : Parser) (k : Nat) : (advance^[k] p).rest = p.rest.drop k := by
  induction k generalizing p with
  | zero => rfl
  | succ k ih => rw [Function.iterate_succ_apply, ih, advance, drop_tail]

theorem length_tokens_lex_le (text : List Char) : (lex text).tokens.length ≤ 2 * text.length := by
  have hdues : (Lexer.start text).dues = 2 * text.length := by
    simp [Lexer.dues, Lexer.start, Cursor.start]
  exact hdues ▸ length_run_le (Lexer.start text)

/-- **Reading ends.** The tokens of a text come to an end, after at most two for each character, and
stay there. The statements of a text are read up to that end. A loop that does not go round leaves
everything as it is, and one that does uses up a token in every round, except that a list of
expressions may go round for nothing a last time, at the end of a line. A chain of calls that comes
back to the same function has used up a token. -/
theorem reading_ends (text : List Char) :
    (∃ n ≤ 2 * text.length, ∀ k, (advance^[k] (start (lex text))).kind = .endOfInput ↔ n ≤ k) ∧
    ((Rule.stmts false).read (start (lex text))).2.rest = [] ∧
    (∀ (r : Rule) (test : Kind → Bool) (p : Parser), r.loop? = some test →
      (test p.kind = false → (r.read p).2 = p) ∧
      (test p.kind = true → (r.roundEnd p).size < p.size ∨
        ∃ closing, r = .exprList closing ∧ p.kind = .newline ∧ r.next? p = none ∧
          (r.read p).2.rest = p.rest)) ∧
    ∀ (r r' : Rule) (p q : Parser), Reaches (r, p) (r', q) → r'.order = r.order →
      q.size < p.size := by
  have hkinds : ∀ t ∈ (lex text).tokens, t.kind ≠ .endOfInput := Lexer.kind_ne_of_mem_run _
  refine ⟨⟨_, length_tokens_lex_le text, fun k => ?_⟩, rest_stmts _ hkinds, ?_, ?_⟩
  · have hrest : (advance^[k] (start (lex text))).rest = (lex text).tokens.drop k :=
      rest_iterate_advance _ k
    constructor
    · intro hk
      refine drop_eq_nil_iff.mp (hrest ▸ rest_eq_nil ?_ hk)
      rw [hrest]
      exact fun t ht => hkinds t (mem_of_mem_drop ht)
    · intro hk
      rw [kind, cur, hrest, drop_eq_nil_of_le hk]
      rfl
  · exact fun r test p hr => ⟨Rule.read_of_loop?_false hr, Rule.round_spends hr⟩
  · intro r r' p q hreach horder
    have := order_lt_or_size_lt hreach
    simp only [horder, Nat.lt_irrefl, and_false, or_false] at this
    exact this

def slip : List Token :=
  [⟨.ident, "f", ⟨1, 1⟩⟩, ⟨.lparen, "(", ⟨1, 2⟩⟩, ⟨.rbracket, "]", ⟨1, 3⟩⟩,
    ⟨.comma, ",", ⟨1, 4⟩⟩, ⟨.newline, "\n", ⟨1, 5⟩⟩]

theorem lex_slip : lex "f(],\n".toList = ⟨slip, [], ⟨2, 0⟩⟩ := by decide +kernel

theorem Reaches.head {r' : Rule} {q : Parser} {b : Rule × Parser}
    (h : (r', q) ∈ (ofRule r).calls p) (hb : Reaches (r', q) b) : Reaches (r, p) b :=
  Relation.TransGen.head h hb

/-- The list of arguments in `f(],` goes round a second time where the line ends, and uses up
nothing there. -/
theorem idle_round : ∃ p : Parser,
    Reaches (.stmts false, start (lex "f(],\n".toList)) (.exprList .rparen, p) ∧
      p.kind = .newline ∧ ((Rule.exprList .rparen).roundEnd p).size = p.size := by
  rw [lex_slip]
  have hname : Rule.primary.read (start ⟨slip, [], ⟨2, 0⟩⟩) =
      (.name ⟨1, 1⟩ "f", advance (start ⟨slip, [], ⟨2, 0⟩⟩)) := by
    with_unfolding_all rfl
  have harg : Rule.expr.read (advance (advance (start ⟨slip, [], ⟨2, 0⟩⟩))) =
      (.int ⟨1, 3⟩ 0 "0",
        ⟨slip.drop 3, ⟨2, 0⟩, [⟨⟨1, 3⟩, .notAnExpression .rbracket⟩], false⟩) := by
    with_unfolding_all rfl
  refine ⟨⟨slip.drop 4, ⟨2, 0⟩, [⟨⟨1, 3⟩, .notAnExpression .rbracket⟩], false⟩, ?_, rfl, ?_⟩
  · -- From the statements down to the name, each call is the first one of its function.
    iterate 18 refine Reaches.head mem_cons_self ?_
    refine Reaches.head (mem_cons_of_mem _ mem_cons_self) ?_
    rw [hname]
    refine Reaches.head mem_cons_self (Relation.TransGen.single (mem_cons_of_mem _ ?_))
    rw [harg]
    exact mem_cons_self
  · have hclosing : Kind.newline ≠ .rparen := by decide
    obtain ⟨hlast, hrest⟩ := exprList_newline
      (p := ⟨slip.drop 4, ⟨2, 0⟩, [⟨⟨1, 3⟩, .notAnExpression .rbracket⟩], false⟩) rfl hclosing
    rw [Rule.roundEnd, hlast]
    exact congrArg length hrest

end Sequencer.Program.Parser
