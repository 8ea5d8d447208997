import Sequencer.Proofs.Program.Grammar
import Sequencer.Proofs.Program.Progress

/-!
# What is read without a complaint

Whether something is wrong with a program depends on the kinds of its tokens and on which numbers
can be read, not on the names (`Token.outline`). Up to the first complaint the parser does the same
with two texts that differ in nothing else, and what it uses up is derived by the grammar.
-/

namespace Sequencer.Program

namespace Parser

open List Rule Token Text.Numeral
open Token (Kind)

/-! ### What is seen of what has been read -/

/-- What later steps see of what a rule reads: what can be assigned, and the length of a tail. -/
def Rule.trait : (r : Rule) → r.Result → List (Option String)
  | .primary, e | .postfixTail _, e | .postfixExpr, e | .unary, e | .binaryTail _ _, e
  | .binary _, e | .comparison, e | .logical _, e | .exprOrYield, e => [unassignable? e]
  | .comparisonTail, links => links.map fun _ => none
  | .logicalTail _, es => es.map fun _ => none
  | .assignTail, o => o.1.map unassignable?
  | _, _ => []

/-- The tokens that a rule uses up are derived by it, or carry its operand's derivation on. -/
def Rule.Yields : (r : Rule) → List Token → r.Result → Prop
  | .postfixTail e, x, a => ∀ y, Phrase .postfixExpr y e → Phrase .postfixExpr (y ++ x) a
  | .binaryTail level e, x, a =>
    ∀ y, Phrase (.binary (level + 1)) y e → Phrase (.binary (level + 1)) (y ++ x) a
  | .block, x, ss => Derives True .block x ss
  | .suite, x, ss => Derives True .suite x ss
  | .cond, x, o => Derives True .cond x o
  | .stmt, x, o => Derives True .stmt x o
  | .stmts inBlock, x, ss => Derives True (.stmts inBlock) x ss
  | r, x, a => Phrase r x a

/-- Later steps see no difference, and the first rule has derived the tokens it used up. -/
def Rule.Same (r r' : Rule) (x : List Token) (a : r.Result) (b : r'.Result) : Prop :=
  r.trait a = r'.trait b ∧ r.Yields x a

/-- The same rule, but for the names in what it is given. -/
inductive Rule.Like : Rule → Rule → Prop
  | refl (r : Rule) : Like r r
  | postfixTail {e e' : Expr} (h : expr.trait e = expr.trait e') :
      Like (.postfixTail e) (.postfixTail e')
  | binaryTail (level : Nat) {e e' : Expr} (h : expr.trait e = expr.trait e') :
      Like (.binaryTail level e) (.binaryTail level e')

/-- What a rule is called on, if it has nothing to complain about: a conditional at its keyword, and
never the rest of a broken line. -/
def Rule.Called : Rule → Option Token → Prop
  | .skipLine, _ => False
  | .cond, cur => ∃ t ∈ cur, t.kind = .kwIf ∨ t.kind = .kwElif
  | _, _ => True

/-- Parsers with tokens of the same outlines. -/
def Alike (p p' : Parser) : Prop := p.rest.map outline = p'.rest.map outline

namespace Alike

variable {p p' : Parser}

theorem cur (h : Alike p p') : p.cur.outline = p'.cur.outline := by
  obtain ⟨rest, finish, complaints, incomplete⟩ := p
  obtain ⟨rest', finish', complaints', incomplete'⟩ := p'
  cases rest with
  | nil =>
    obtain rfl : rest' = [] := map_eq_nil_iff.mp h.symm
    rfl
  | cons t ts =>
    obtain ⟨u, us, rfl, hu, -⟩ := map_eq_cons_iff.mp h.symm
    exact hu.symm

theorem advance (h : Alike p p') : Alike p.advance p'.advance := by
  rw [Alike, Parser.advance, Parser.advance, map_tail, map_tail, show p.rest.map outline = _ from h]

end Alike

namespace Steps

variable {α β : Type}

/-- At the given token, if it is known, the steps are the same up to the first complaint, but for
names; the tokens that they use up are in the relation with what they read. -/
inductive Matches : (List Token → α → β → Prop) → Option Token → Steps α → Steps β → Prop
  | done (h : R [] a b) : Matches R o (done a) (done b)
  | look (h : ∀ t u, u.outline = t.outline → (∀ v ∈ o, v = t) →
      Matches R (some t) (f t) (f' u)) : Matches R o (look f) (look f')
  | advance (hend : t.kind ≠ .endOfInput) (h : Matches (fun x => R (t :: x)) none s s') :
      Matches R (some t) (advance s) (advance s')
  | complain : Matches R o (complain p c s) (complain p' c' s')
  | missingBlock : Matches R o (missingBlock s) (missingBlock s')
  | call (hr : Like r r') (h : ∀ x a a', r.Same r' x a a' → (∀ t ∈ o, ∀ u ∈ x.head?, u = t) →
        Matches (fun y => R (x ++ y)) none (f a) (f' a'))
      (hcalled : r.Called o) : Matches R o (call r f) (call r' f')

end Steps

/-- Two parsers have come out of two others, both without a new complaint or both with one. -/
inductive Paired (p p' q q' : Parser) (same : List Token → Prop) : Prop
  | quiet (h : q.complaints = p.complaints) (h' : q'.complaints = p'.complaints)
      (hrest : Alike q q') (hread : ∃ x, p.rest = x ++ q.rest ∧ same x)
  | loud (h : q.complaints ≠ p.complaints) (h' : q'.complaints ≠ p'.complaints)

namespace Steps

variable {α β : Type} {R : List Token → α → β → Prop} {cur : Option Token}

theorem Matches.run {s : Steps α} {s' : Steps β} {p p' : Parser} (h : Matches R cur s s')
    (hp : Alike p p') (hcur : ∀ t ∈ cur, p.cur = t)
    (hcalls : ∀ c ∈ s.calls p, ∀ cur r' q', c.1.Like r' → c.1.Called cur →
      (∀ t ∈ cur, c.2.cur = t) → Alike c.2 q' →
      Paired c.2 q' (c.1.read c.2).2 (r'.read q').2 fun x =>
        c.1.Same r' x (c.1.read c.2).1 (r'.read q').1) :
    Paired p p' (s.run p).2 (s'.run p').2 fun x => R x (s.run p).1 (s'.run p').1 := by
  induction h generalizing p p' with
  | done h => exact .quiet rfl rfl hp ⟨[], rfl, h⟩
  | look h ih =>
    exact ih _ _ hp.cur.symm (fun t ht => (hcur t ht).symm) hp
      (fun t ht => Option.some.inj ht) hcalls
  | @advance R s s' t hend h ih =>
    have hcur : p.cur = t := hcur t rfl
    cases hrest : p.rest with
    | nil =>
      rw [← hcur, cur_of_rest_nil hrest] at hend
      exact absurd rfl hend
    | cons u us =>
      obtain rfl : u = t := (cur_of_rest hrest).symm.trans hcur
      obtain ⟨hn, hn', halike, x, hx, hsame⟩ | ⟨hn, hn'⟩ := ih hp.advance nofun hcalls
      · rw [rest_advance_of_rest hrest] at hx
        exact .quiet hn hn' halike ⟨u :: x, hrest.trans (congrArg _ hx), hsame⟩
      · exact .loud hn hn'
  | complain =>
    exact .loud (complaints_run_complain_ne _ _ _ _) (complaints_run_complain_ne _ _ _ _)
  | missingBlock =>
    exact .loud (complaints_run_missingBlock_ne _ _) (complaints_run_missingBlock_ne _ _)
  | @call r r' cur R next next' hr h hcalled ih =>
    obtain ⟨hread, hcalls⟩ := forall_mem_cons.mp hcalls
    have hlater := later_run_steps (next (r.read p).1) (r.read p).2
    have hlater' := later_run_steps (next' (r'.read p').1) (r'.read p').2
    obtain ⟨hq, hq', hrest, x, hx, hsame⟩ | ⟨hq, hq'⟩ := hread _ r' p' hr hcalled hcur hp
    · have hhead : ∀ t ∈ cur, ∀ u ∈ x.head?, u = t := by
        rintro t ht u hu
        obtain ⟨ys, rfl⟩ := head?_eq_some_iff.mp hu
        exact (cur_of_rest hx).symm.trans (hcur t ht)
      obtain ⟨hn, hn', hrest, y, hy, hR⟩ | ⟨hn, hn'⟩ := ih _ _ _ hsame hhead hrest nofun hcalls
      · refine .quiet (hn.trans hq) (hn'.trans hq') hrest ⟨x ++ y, ?_, hR⟩
        rw [hx, hy, append_assoc]
        rfl
      · exact .loud (hq ▸ hn) (hq' ▸ hn')
    · exact .loud (fun heq => hq ((later_read r p).complaints_eq hlater heq))
        (fun heq => hq' ((later_read r' p').complaints_eq hlater' heq))

section Rules

variable {t : Token} {k : Kind} {s : Steps α} {s' : Steps β}

theorem matches_ite {c : Prop} [Decidable c] {t : Steps α} {t' : Steps β}
    (hs : c → Matches R cur s s') (ht : ¬c → Matches R cur t t') :
    Matches R cur (if c then s else t) (if c then s' else t') := by
  by_cases hc : c
  · rw [if_pos hc, if_pos hc]
    exact hs hc
  · rw [if_neg hc, if_neg hc]
    exact ht hc

theorem matches_look_ite {s₁ t₁ : Token → Steps α} {s₂ t₂ : Token → Steps β}
    (hs : ∀ t u, t.kind = k → Matches R (some t) (s₁ t) (s₂ u))
    (ht : ∀ t u, t.kind ≠ k → Matches R (some t) (t₁ t) (t₂ u)) :
    Matches R cur (look fun t => if t.kind = k then s₁ t else t₁ t)
      (look fun u => if u.kind = k then s₂ u else t₂ u) :=
  .look fun t u htu _ => by
    rw [kind_of_outline htu]
    exact matches_ite (hs t u) (ht t u)

theorem matches_token (ht : t.kind = k) (hk : k ≠ .endOfInput)
    (h : Matches (fun x => R (t :: x)) none s s') : Matches R (some t) (advance s) (advance s') :=
  .advance (ht ▸ hk) h

theorem matches_expect (hk : k ≠ .endOfInput)
    (h : ∀ t, t.kind = k → Matches (fun x => R (t :: x)) none s s') :
    Matches R cur (expect k s) (expect k s') :=
  matches_look_ite (fun t _ ht => matches_token ht hk (h t ht)) fun _ _ _ => .complain

theorem matches_expect_at (hk : k ≠ .endOfInput)
    (h : t.kind = k → Matches (fun x => R (t :: x)) none s s') :
    Matches R (some t) (expect k s) (expect k s') := by
  refine .look fun v u hvu hv => ?_
  rw [kind_of_outline hvu, ← hv t rfl]
  exact matches_ite (fun ht => matches_token ht hk (h ht)) fun _ => .complain

theorem matches_checkLoopElse {a : α} {a' : β} (h : R [] a a') :
    Matches R cur (checkLoopElse (done a)) (checkLoopElse (done a')) :=
  matches_look_ite (fun _ _ _ => .complain) fun _ _ _ => .done h

theorem matches_checkTargets {es es' : List Expr}
    (h : (∀ e ∈ es, unassignable? e = none) → Matches R cur s s')
    (hes : es.map unassignable? = es'.map unassignable?) :
    Matches R cur (checkTargets s es) (checkTargets s' es') := by
  induction es generalizing es' with
  | nil =>
    obtain rfl : es' = [] := map_eq_nil_iff.mp hes.symm
    exact h nofun
  | cons e es ih =>
    obtain ⟨e', es', rfl, he', hes⟩ := map_eq_cons_iff.mp hes.symm
    rw [checkTargets, checkTargets, he']
    cases he : unassignable? e with
    | none => exact ih (fun hes => h (forall_mem_cons.mpr ⟨he, hes⟩)) hes.symm
    | some what => exact .complain

theorem matches_call {r : Rule} {next : r.Result → Steps α} {next' : r.Result → Steps β}
    (hcalled : r.Called cur)
    (h : ∀ x a a', r.Same r x a a' → Matches (fun y => R (x ++ y)) none (next a) (next' a')) :
    Matches R cur (call r next) (call r next') :=
  .call (.refl r) (fun x a a' ha _ => h x a a' ha) hcalled

theorem matches_last {r r' : Rule} {f : r.Result → α} {f' : r'.Result → β} (hcalled : r.Called cur)
    (hr : r.Like r')
    (h : ∀ x a a', r.Same r' x a a' → (∀ t ∈ cur, ∀ u ∈ x.head?, u = t) → R x (f a) (f' a')) :
    Matches R cur (call r fun a => done (f a)) (call r' fun a => done (f' a)) :=
  .call hr (fun x a a' ha hx => .done (by
    rw [append_nil]
    exact h x a a' ha hx)) hcalled

end Rules

theorem matches_integer {R : List Token → Expr → Expr → Prop} {t u : Token}
    (h : u.outline = t.outline) (hkind : t.kind = .int)
    (hR : ∀ v v', signed t.lexeme.toList = .ok v →
      R [] (.int t.pos v t.lexeme) (.int u.pos v' u.lexeme)) :
    Matches R cur (integer t) (integer u) := by
  have hok := congrArg Prod.snd h
  simp only [outline, kind_of_outline h, hkind, decide_true, Bool.true_and] at hok
  unfold integer
  cases ht : signed t.lexeme.toList with
  | ok v =>
    cases hu : signed u.lexeme.toList with
    | ok v' => exact .done (hR v v' ht)
    | error e => rw [ht, hu] at hok; cases hok
  | error e =>
    cases hu : signed u.lexeme.toList with
    | ok v' => rw [ht, hu] at hok; cases hok
    | error e' => exact .complain

/-! The steps of each function, at tokens of the same outline. -/

theorem trait_ite_isEmpty {γ : Type} {l l' : List γ} {first first' e e' : Expr}
    (hl : (l.map fun _ => (none : Option String)) = l'.map fun _ => none)
    (hfirst : unassignable? first = unassignable? first')
    (he : unassignable? e = unassignable? e') :
    [unassignable? (if l.isEmpty then first else e)] =
      [unassignable? (if l'.isEmpty then first' else e')] := by
  have hempty := congrArg List.isEmpty hl
  rw [isEmpty_map, isEmpty_map] at hempty
  rw [← hempty]
  split
  · rw [hfirst]
  · rw [he]

section Tokens

variable {t u : Token}

theorem matches_primary (h : u.outline = t.outline) :
    Matches (Same .primary .primary) (some t) (primary t) (primary u) := by
  unfold primary
  rw [kind_of_outline h]
  cases ht : t.kind
  case ident => exact matches_token ht nofun (.done ⟨rfl, .name ht⟩)
  case kwTrue => exact matches_token ht nofun (.done ⟨rfl, .kwTrue ht⟩)
  case kwFalse => exact matches_token ht nofun (.done ⟨rfl, .kwFalse ht⟩)
  case int => exact matches_token ht nofun (matches_integer h ht fun v _ hv => ⟨rfl, .int ht hv⟩)
  case lparen =>
    exact matches_token ht nofun (matches_call trivial fun _ _ _ he =>
      matches_expect nofun fun _ hv => .done ⟨he.1, .paren ht he.2 hv⟩)
  case lbracket =>
    exact matches_token ht nofun (matches_call trivial fun _ _ _ hes => .look fun _ _ _ _ =>
      matches_expect_at nofun fun hv => .done ⟨rfl, .list ht hes.2 hv⟩)
  all_goals exact .complain

theorem matches_postfixTail {e e' : Expr} (he : Rule.expr.trait e = Rule.expr.trait e')
    (h : u.outline = t.outline) :
    Matches (Same (.postfixTail e) (.postfixTail e')) (some t) (postfixTail e t)
      (postfixTail e' u) := by
  unfold postfixTail
  rw [kind_of_outline h]
  cases ht : t.kind
  case dot =>
    refine matches_token ht nofun (matches_look_ite (fun _ _ hv => matches_token hv nofun
      (matches_last trivial (.postfixTail rfl) fun x a a' ha _ => ⟨ha.1, fun y hy => ?_⟩))
      fun _ _ _ => .complain)
    simpa using ha.2 _ (.attr hy ht hv)
  case lparen =>
    refine matches_token ht nofun (matches_call trivial fun z _ _ hargs => .look fun v w hvw _ =>
      matches_expect_at nofun fun hv => matches_last trivial (.postfixTail rfl)
        fun x a a' ha _ => ⟨ha.1, fun y hy => ?_⟩)
    simpa using ha.2 _ (.call hy ht hargs.2 hv)
  all_goals exact .done ⟨he, fun y hy => (append_nil y).symm ▸ hy⟩

theorem matches_unary (h : u.outline = t.outline) :
    Matches (Same .unary .unary) (some t) (unary t) (unary u) := by
  unfold unary
  rw [kind_of_outline h]
  cases hop : signOp? t.kind with
  | some op =>
    exact .advance (ne_end_of_signOp? hop)
      (matches_last trivial (.refl _) fun _ _ _ he _ => ⟨rfl, .sign hop he.2⟩)
  | none => exact matches_last trivial (.refl _) fun _ _ _ he _ => ⟨he.1, .unsigned he.2⟩

theorem matches_binaryTail (level : Nat) {e e' : Expr}
    (he : Rule.expr.trait e = Rule.expr.trait e') (h : u.outline = t.outline) :
    Matches (Same (.binaryTail level e) (.binaryTail level e')) (some t)
      (binaryTail level e t) (binaryTail level e' u) := by
  unfold binaryTail
  rw [kind_of_outline h]
  cases hop : binaryOp? (level + 1) t.kind with
  | some op =>
    refine .advance (ne_end_of_binaryOp? hop) (matches_call trivial fun z _ _ hf =>
      matches_last trivial (.binaryTail level rfl) fun x a a' ha _ => ⟨ha.1, fun y hy => ?_⟩)
    simpa using ha.2 _ (.binary hy hop hf.2)
  | none => exact .done ⟨he, fun y hy => (append_nil y).symm ▸ hy⟩

variable (h : u.outline = t.outline)

include h

theorem matches_comparisonTail :
    Matches (Same .comparisonTail .comparisonTail) (some t) (comparisonTail t)
      (comparisonTail u) := by
  unfold comparisonTail
  rw [kind_of_outline h]
  cases hop : compareOp? t.kind with
  | some op =>
    exact .advance (ne_end_of_compareOp? hop) (matches_call trivial fun _ _ _ he =>
      matches_last trivial (.refl _) fun _ _ _ hl _ =>
        ⟨congrArg (List.cons none) hl.1, .link hop he.2 hl.2⟩)
  | none => exact .done ⟨rfl, .noLink⟩

theorem matches_exprOrYield :
    Matches (Same .exprOrYield .exprOrYield) (some t) (exprOrYield t) (exprOrYield u) := by
  unfold exprOrYield
  rw [kind_of_outline h]
  refine matches_ite (fun ht => matches_token ht nofun (.look fun v w hvw _ => ?_))
    fun _ => matches_last trivial (.refl _) fun _ _ _ he _ => ⟨he.1, .value he.2⟩
  rw [kind_of_outline hvw]
  exact matches_ite (fun _ => .done ⟨rfl, .yield ht⟩)
    fun _ => matches_last trivial (.refl _) fun _ _ _ he _ => ⟨rfl, .yieldValue ht he.2⟩

theorem matches_simpleBody :
    Matches (Same .simpleBody .simpleBody) (some t) (simpleBody t) (simpleBody u) := by
  unfold simpleBody
  rw [kind_of_outline h]
  cases ht : t.kind
  case kwReturn =>
    refine matches_token ht nofun (.look fun v w hvw _ => ?_)
    rw [kind_of_outline hvw]
    exact matches_ite (fun _ => .done ⟨rfl, .ret ht⟩)
      fun _ => matches_last trivial (.refl _) fun _ _ _ he _ => ⟨rfl, .retValue ht he.2⟩
  case kwPass => exact matches_token ht nofun (.done ⟨rfl, .pass ht⟩)
  case kwBreak => exact matches_token ht nofun (.done ⟨rfl, .brk ht⟩)
  case kwContinue => exact matches_token ht nofun (.done ⟨rfl, .cont ht⟩)
  all_goals exact matches_last trivial (.refl _) fun _ _ _ hs _ => ⟨rfl, .exprOrAssign hs.2⟩

theorem matches_params : Matches (Same .params .params) (some t) (params t) (params u) := by
  unfold params
  rw [kind_of_outline h]
  exact matches_ite (fun ht => matches_token ht nofun (matches_look_ite
      (fun _ _ hv => matches_token hv nofun (matches_last trivial (.refl _)
        fun _ _ _ hps _ => ⟨rfl, .param ht hv hps.2⟩)) fun _ _ _ => .done ⟨rfl, .lastParam ht⟩))
    fun _ => .done ⟨rfl, .noParam⟩

theorem matches_block : Matches (Same .block .block) (some t) (block t) (block u) := by
  unfold block
  rw [kind_of_outline h]
  exact matches_ite (fun ht => matches_token ht nofun (matches_look_ite
      (fun _ _ hv => matches_token hv nofun (matches_call trivial fun _ _ _ hss =>
        matches_expect nofun fun _ hw => .done ⟨rfl, .block ht hv hss.2 hw (.inr trivial)⟩))
      fun _ _ _ => .missingBlock))
    fun _ => matches_last trivial (.refl _) fun _ _ _ hs _ => ⟨rfl, .inline hs.2⟩

theorem matches_cond (hif : t.kind = .kwIf ∨ t.kind = .kwElif) :
    Matches (Same .cond .cond) (some t) (cond t) (cond u) := by
  unfold cond
  rw [kind_of_outline h]
  refine matches_ite (fun _ => ?_) fun hend => .advance hend (matches_call trivial fun _ _ _ he =>
    matches_call trivial fun y _ _ hss => .look fun v w hvw _ => ?_)
  · simp_all
  rw [kind_of_outline hvw]
  refine matches_ite (fun hv => matches_last ⟨v, rfl, .inr hv⟩ (.refl _)
      fun z o _ hs hz => ⟨rfl, ?_⟩)
    fun _ => matches_ite (fun hv => matches_token hv nofun (matches_last trivial (.refl _)
      fun _ _ _ hss' _ => ⟨rfl, .condElse hif he.2 hss.2 hv hss'.2⟩)) fun _ => .done ⟨rfl, ?_⟩
  · obtain ⟨s, rfl⟩ := hs.2.cond_eq_some
    exact .condElif hif he.2 hss.2 (fun u hu => hz v rfl u hu ▸ hv) hs.2
  · rw [append_nil]
    exact .cond hif he.2 hss.2

theorem matches_stmt : Matches (Same .stmt .stmt) (some t) (stmt t) (stmt u) := by
  unfold stmt
  rw [kind_of_outline h]
  cases ht : t.kind
  case kwDef =>
    exact matches_token ht nofun (matches_look_ite (fun _ _ hv => matches_token hv nofun
      (matches_expect nofun fun _ hl => matches_call trivial fun _ _ _ hps =>
        matches_expect nofun fun _ hr => matches_last trivial (.refl _)
          fun _ _ _ hss _ => ⟨rfl, .funcDef ht hv hl hps.2 hr hss.2⟩)) fun _ _ _ => .complain)
  case kwIf =>
    exact matches_last ⟨t, rfl, .inl ht⟩ (.refl _)
      fun _ _ _ hs hx => ⟨rfl, .ifs (fun u hu => hx t rfl u hu ▸ ht) hs.2⟩
  case kwWhile =>
    refine matches_token ht nofun (matches_call trivial fun _ _ _ he =>
      matches_call trivial fun _ _ _ hss => matches_checkLoopElse ⟨rfl, ?_⟩)
    rw [append_nil]
    exact .loop ht he.2 hss.2
  case kwFor =>
    refine matches_token ht nofun (matches_call trivial fun _ _ _ he =>
      matches_expect nofun fun _ hin => matches_call trivial fun _ _ _ hf =>
      matches_call trivial fun _ _ _ hss => matches_checkLoopElse ⟨rfl, ?_⟩)
    rw [append_nil]
    exact .each ht he.2 hin hf.2 hss.2
  case indent | kwElif | kwElse => exact .complain
  all_goals exact matches_last trivial (.refl _) fun _ _ _ hs _ => ⟨rfl, .simple hs.2⟩

end Tokens

/-- The steps of a rule do not depend on names, and follow the grammar. -/
theorem matches_ofRule {r r' : Rule} (h : r.Like r') (hcalled : r.Called cur) :
    Matches (r.Same r') cur (ofRule r) (ofRule r') := by
  cases h with
  | postfixTail he => exact .look fun _ _ h _ => matches_postfixTail he h
  | binaryTail level he => exact .look fun _ _ h _ => matches_binaryTail level he h
  | refl =>
    cases r with
    | primary => exact .look fun _ _ h _ => matches_primary h
    | postfixTail e => exact .look fun _ _ h _ => matches_postfixTail rfl h
    | postfixExpr =>
      exact matches_call trivial fun _ _ _ he => matches_last trivial (.postfixTail he.1)
        fun _ _ _ ha _ => ⟨ha.1, ha.2 _ (.atom he.2)⟩
    | unary => exact .look fun _ _ h _ => matches_unary h
    | binaryTail level left => exact .look fun _ _ h _ => matches_binaryTail level rfl h
    | binary level =>
      cases level with
      | zero => exact matches_last trivial (.refl _) fun _ _ _ he _ => ⟨he.1, .operand he.2⟩
      | succ level =>
        exact matches_call trivial fun _ _ _ he => matches_last trivial (.binaryTail level he.1)
          fun _ _ _ ha _ => ⟨ha.1, ha.2 _ (.tighter he.2)⟩
    | comparisonTail => exact .look fun _ _ h _ => matches_comparisonTail h
    | comparison =>
      exact matches_call trivial fun _ _ _ he => matches_last trivial (.refl _) fun _ _ _ hl _ =>
        ⟨trait_ite_isEmpty hl.1 (head_eq_of_cons_eq he.1) rfl, .comparison he.2 hl.2⟩
    | logicalTail level =>
      have hop : (logicalOp level).token ≠ .endOfInput := by cases logicalOp level <;> decide
      exact matches_look_ite (fun _ _ ht => matches_token ht hop
          (matches_call trivial fun _ _ _ he => matches_last trivial (.refl _) fun _ _ _ hl _ =>
            ⟨congrArg (List.cons none) hl.1, .other ht he.2 hl.2⟩))
        fun _ _ _ => .done ⟨rfl, .noOther⟩
    | logical level =>
      cases level with
      | zero =>
        exact matches_look_ite (fun _ _ ht => matches_token ht nofun (matches_last trivial (.refl _)
            fun _ _ _ he _ => ⟨rfl, .not ht he.2⟩))
          fun _ _ _ => matches_last trivial (.refl _) fun _ _ _ he _ => ⟨he.1, .affirmed he.2⟩
      | succ level =>
        exact matches_call trivial fun _ _ _ he => .look fun t _ _ _ =>
          matches_last trivial (.refl _) fun _ _ _ hl hx =>
            ⟨trait_ite_isEmpty hl.1 (head_eq_of_cons_eq he.1) rfl,
              .logical he.2 hl.2 fun u hu => congrArg Token.pos (hx t rfl u hu)⟩
    | exprList closing =>
      refine .look fun t u htu _ => ?_
      unfold exprList
      rw [kind_of_outline htu]
      refine matches_ite (fun _ => .done ⟨rfl, .noExprs⟩) fun _ =>
        matches_call trivial fun _ _ _ he => matches_look_ite (fun _ _ hv => matches_token hv nofun
          (matches_last trivial (.refl _) fun _ _ _ hes _ => ⟨rfl, .exprs he.2 hv hes.2⟩))
        fun _ _ _ => .done ⟨rfl, ?_⟩
      rw [append_nil]
      exact .lastExpr he.2
    | exprOrYield => exact .look fun _ _ h _ => matches_exprOrYield h
    | assignTail =>
      refine matches_call trivial fun _ _ _ he => matches_look_ite
        (fun _ _ ht => matches_token ht nofun (matches_last trivial (.refl _)
          fun _ _ _ ho _ => ⟨congrArg₂ (· ++ ·) he.1 ho.1, .target he.2 ht ho.2⟩))
        fun _ _ _ => .done ⟨rfl, ?_⟩
      rw [append_nil]
      exact .assigned he.2
    | exprOrAssign =>
      refine matches_call trivial fun _ _ _ he => matches_look_ite
        (fun _ _ ht => matches_token ht nofun (matches_call trivial fun _ _ _ ho =>
          matches_checkTargets (fun htargets => .done ⟨rfl, ?_⟩) (congrArg₂ (· ++ ·) he.1 ho.1)))
        fun _ _ _ => .done ⟨rfl, ?_⟩
      · rw [append_nil]
        exact .assign he.2 ht ho.2 fun f hf => isTarget_of_unassignable? (htargets f hf)
      · rw [append_nil]
        exact .expr he.2
    | simpleBody => exact .look fun _ _ h _ => matches_simpleBody h
    | simple =>
      exact matches_call trivial fun _ _ _ hs => matches_look_ite
        (fun _ _ ht => matches_token ht nofun (.done ⟨rfl, .line hs.2 ht⟩)) fun _ _ _ => .complain
    | params => exact .look fun _ _ h _ => matches_params h
    | skipLine => exact hcalled.elim
    | block => exact .look fun _ _ h _ => matches_block h
    | suite =>
      exact matches_expect nofun fun _ ht => matches_last trivial (.refl _)
        fun _ _ _ hss _ => ⟨rfl, .suite ht hss.2⟩
    | cond =>
      obtain ⟨v, hv, hif⟩ := hcalled
      exact .look fun _ _ h hcur => matches_cond h (hcur v hv ▸ hif)
    | stmt => exact .look fun _ _ h _ => matches_stmt h
    | stmts inBlock =>
      refine .look fun t u htu _ => ?_
      unfold stmts
      rw [kind_of_outline htu]
      refine matches_ite (fun _ => .done ⟨rfl, .noStmt⟩) fun _ =>
        matches_ite (fun _ => .done ⟨rfl, .noStmt⟩) fun _ =>
        matches_ite (fun ht => matches_token ht nofun (matches_last trivial (.refl _)
          fun _ _ _ hss _ => ⟨rfl, .blank trivial ht hss.2⟩))
        fun _ => matches_call trivial fun _ o _ hs =>
          matches_last trivial (.refl _) fun _ _ _ hss _ => ⟨rfl, ?_⟩
      obtain ⟨s, rfl⟩ := hs.2.stmt_eq_some
      exact .stmt hs.2 hss.2

end Steps

theorem paired_read {r r' : Rule} {p p' : Parser} {cur : Option Token} (hr : r.Like r')
    (hcalled : r.Called cur) (hcur : ∀ t ∈ cur, p.cur = t) (hp : Alike p p') :
    Paired p p' (r.read p).2 (r'.read p').2 fun x => r.Same r' x (r.read p).1 (r'.read p').1 := by
  induction r, p using induct generalizing r' p' cur with
  | step r p ih =>
    rw [Steps.read_eq_run, Steps.read_eq_run]
    exact (Steps.matches_ofRule hr hcalled).run hp hcur fun c hc _ _ _ => ih c hc

/-- **Whether there is a complaint does not depend on names.** -/
theorem complaints_read_eq_iff {r : Rule} {p p' : Parser} (hcalled : r.Called none)
    (h : Alike p p') :
    (r.read p).2.complaints = p.complaints ↔ (r.read p').2.complaints = p'.complaints := by
  obtain ⟨hq, hq', -⟩ | ⟨hq, hq'⟩ := paired_read (.refl r) hcalled nofun h
  · exact iff_of_true hq hq'
  · exact iff_of_false hq hq'

/-- **Statements that are read without a complaint are in the grammar**, with this tree. -/
theorem derives_stmts {inBlock : Bool} {p : Parser}
    (hquiet : ((Rule.stmts inBlock).read p).2.complaints = p.complaints) :
    ∃ x, p.rest = x ++ ((Rule.stmts inBlock).read p).2.rest ∧
      Derives True (.stmts inBlock) x ((Rule.stmts inBlock).read p).1 := by
  obtain ⟨-, -, -, x, hx, hsame⟩ | ⟨hloud, -⟩ :=
    paired_read (.refl (.stmts inBlock)) (show Rule.Called _ none from trivial) nofun
      (rfl : Alike p p)
  · exact ⟨x, hx, hsame.2⟩
  · exact absurd hquiet hloud

/-! ### Accepted texts -/

/-- **Accepted texts are in the grammar.** If there are no diagnostics, then the statements of the
module are derived from all of the tokens, by the grammar with empty lines; and if no line is empty,
by the grammar without them, in which every body has a statement. -/
theorem accepted_derives {text : List Char} (h : (parse text).diagnostics = []) :
    Derives True (.stmts false) (lex text).tokens (parse text).module.body ∧
    (Tidy (lex text).tokens →
      Derives False (.stmts false) (lex text).tokens (parse text).module.body ∧
      ∀ x ss, Derives False .suite x ss → ss ≠ []) := by
  obtain ⟨x, hx, hderives⟩ := derives_stmts (append_eq_nil_iff.mp h).2
  rw [rest_stmts _ (Lexer.kind_ne_of_mem_run _), append_nil] at hx
  cases hx
  exact ⟨hderives, fun htidy => ⟨hderives.strict htidy.1 fun _ _ => htidy.2,
    fun _ _ => Derives.suite_ne_nil⟩⟩

/-- A conditional is in the grammar. -/
theorem branch_derives :
    (parse "if x:\n y\n".toList).diagnostics = [] ∧ Tidy (lex "if x:\n y\n".toList).tokens ∧
    Derives False (.stmts false) (lex "if x:\n y\n".toList).tokens
      (parse "if x:\n y\n".toList).module.body := by
  have hquiet : (parse "if x:\n y\n".toList).diagnostics = [] := by decide +kernel
  have htidy : Tidy (lex "if x:\n y\n".toList).tokens := by decide +kernel
  exact ⟨hquiet, htidy, ((accepted_derives hquiet).2 htidy).1⟩

/-- The parser accepts a conditional whose body has no statement, since a line that is joined to an
empty one ends there. -/
theorem hollow_block_accepted :
    (parse "if x:\n  \\\n\ny\n".toList).diagnostics = [] ∧
    (parse "if x:\n  \\\n\ny\n".toList).module.body =
      [.cond ⟨1, 1⟩ (.name ⟨1, 4⟩ "x") [] [], .expr (.name ⟨4, 1⟩ "y")] :=
  ⟨by decide +kernel, by with_unfolding_all rfl⟩

end Parser

/-- Every comparison in a program has something on its right. -/
theorem linked_parse {text : List Char} (h : (parse text).diagnostics = []) :
    ∀ s ∈ (parse text).module.body, s.Linked := by
  obtain ⟨_, -, hderives⟩ := Parser.derives_stmts (List.append_eq_nil_iff.mp h).2
  exact hderives.linked

end Sequencer.Program
