import Sequencer.Proofs.Program.Rules
import Sequencer.Proofs.Token.Scanning

/-!
# What the first tokens of a text decide

The parser looks one token ahead and never back. So the tokens at the front of a text decide what
becomes of them: a rule is done before they run out (`Steps.Settles`), or there is a complaint about
one of them whatever follows (`Steps.Doomed`), or nothing is wrong yet and a few more tokens finish
the rule (`Steps.Pending`).
-/

namespace Sequencer.Program.Parser

open List Rule Steps
open Token (Kind)

/-! ### Other tokens to read -/

/-- The same parser with other tokens to read. -/
def withRest (p : Parser) (ts : List Token) : Parser := { p with rest := ts }

@[simp] theorem rest_withRest (p : Parser) (ts : List Token) : (p.withRest ts).rest = ts := rfl

@[simp] theorem withRest_withRest (p : Parser) (ts us : List Token) :
    (p.withRest ts).withRest us = p.withRest us := rfl

variable {p q : Parser} {k : Kind}

theorem cur_of_rest {t : Token} {ts : List Token} (h : p.rest = t :: ts) : p.cur = t := by
  rw [cur, h, headD_cons]

theorem cur_of_rest_nil (h : p.rest = []) : p.cur = p.endToken := by
  rw [cur, h, headD_nil]

theorem kind_of_rest_nil (h : p.rest = []) : p.kind = .endOfInput := by
  rw [kind, cur_of_rest_nil h]
  rfl

theorem rest_advance_of_rest {t : Token} {ts : List Token} (h : p.rest = t :: ts) :
    p.advance.rest = ts := by
  rw [advance, h, tail_cons]

/-! ### The end of the text -/

/-- A token behind the last line of a text that ends at `f`. -/
def Trailing (f : Position) (t : Token) : Prop :=
  (t.kind = .newline ∨ t.kind = .dedent ∨ t.kind = .endOfInput) ∧ t.pos = f

theorem Trailing.ne_assign {f : Position} {t : Token} (h : Trailing f t) : t.kind ≠ .assign := by
  obtain ⟨h | h | h, -⟩ := h <;> simp [h]

/-- Only tokens behind the last line are left. -/
def Trailed (p : Parser) : Prop := ∀ t ∈ p.rest, Trailing p.finish t

/-- Every new complaint stands at the end of the text. -/
def Late (p q : Parser) : Prop := ∀ d ∈ q.complaints, d ∈ p.complaints ∨ d.pos = p.finish

theorem Trailed.cur (h : p.Trailed) : Trailing p.finish p.cur := by
  cases hrest : p.rest with
  | nil => rw [cur_of_rest_nil hrest]; exact ⟨.inr (.inr rfl), rfl⟩
  | cons t ts => rw [cur_of_rest hrest]; exact h t (by simp [hrest])

theorem Trailed.mono (h : p.Trailed) (hrest : q.rest <:+ p.rest) (hfinish : q.finish = p.finish) :
    q.Trailed := by
  intro t ht
  rw [hfinish]
  exact h t (hrest.subset ht)

theorem Late.refl (p : Parser) : Late p p := fun _ => .inl

theorem Late.trans {r : Parser} (h : Late p q) (h' : Late q r) (hfinish : q.finish = p.finish) :
    Late p r := by
  intro d hd
  obtain hq | hpos := h' d hd
  · exact h d hq
  · exact .inr (hpos.trans hfinish)

theorem late_complain {pos : Position} (h : pos = p.finish) (c : Complaint) :
    Late p (p.complain pos c) := by
  intro d hd
  obtain hd | hd := mem_append.mp hd
  · exact .inl hd
  · rw [mem_singleton.mp hd]
    exact .inr h

namespace Steps

variable {α : Type} {f : Position}

/-- Every complaint stands at the token looked at last. The targets of an assignment are checked
late: only behind an `=`. -/
def Prompt : Option Token → Steps α → Prop
  | _, done _ => True
  | _, look next => ∀ t, Prompt (some t) (next t)
  | last, advance next => Prompt last next
  | last, complain pos _ next => (∃ t ∈ last, pos = t.pos) ∧ Prompt last next
  | last, missingBlock next => Prompt last next
  | last, call r next =>
    (r = .assignTail ∧ ∃ t ∈ last, t.kind = .assign) ∨ ∀ a, Prompt none (next a)

variable {last : Option Token} {s next : Steps α}

theorem late_run (h : Prompt last s) (hlast : ∀ t ∈ last, Trailing p.finish t)
    (hp : p.Trailed) (hcalls : ∀ c ∈ s.calls p, c.2.Trailed → Late c.2 (c.1.read c.2).2) :
    Late p (s.run p).2 := by
  induction s generalizing p last with
  | done a => exact Late.refl p
  | look next ih =>
    refine ih _ (h p.cur) (fun t ht => ?_) hp hcalls
    exact Option.some.inj ht ▸ hp.cur
  | advance next ih =>
    exact ih h hlast (hp.mono (tail_suffix _) rfl) hcalls
  | complain pos c next ih =>
    obtain ⟨⟨t, ht, hpos⟩, h⟩ := h
    exact (late_complain (hpos.trans (hlast t ht).2) c).trans
      (ih h hlast hp hcalls) rfl
  | missingBlock next ih =>
    refine Late.trans ?_ (ih h hlast hp hcalls) rfl
    exact late_complain hp.cur.2 .missingBlock
  | call r next ih =>
    obtain ⟨-, t, ht, hk⟩ | h := h
    · exact absurd hk (hlast t ht).ne_assign
    obtain ⟨hr, hnext⟩ := forall_mem_cons.mp hcalls
    have hlater := later_read r p
    exact (hr hp).trans (ih _ (h _) nofun (hp.mono hlater.rest hlater.finish) hnext) hlater.finish

theorem Prompt.of_none (h : Prompt none s) : Prompt last s := by
  induction s with
  | done a => trivial
  | look next => exact h
  | advance next ih | missingBlock next ih => exact ih h
  | complain pos c next => exact absurd h.1 nofun
  | call r next =>
    obtain ⟨-, t, ht, -⟩ | h := h
    · cases ht
    · exact .inr h

theorem prompt_ite {c : Prop} [Decidable c] {t : Steps α} (hs : Prompt last s)
    (ht : Prompt last t) : Prompt last (if c then s else t) := by
  split
  · exact hs
  · exact ht

theorem prompt_expect (h : Prompt none next) (wanted : Kind) : Prompt last (expect wanted next) :=
  fun t => prompt_ite h.of_none ⟨⟨t, rfl, rfl⟩, h.of_none⟩

theorem prompt_checkLoopElse (h : Prompt none next) : Prompt last (checkLoopElse next) :=
  fun t => prompt_ite ⟨⟨t, rfl, rfl⟩, h.of_none⟩ h.of_none

theorem prompt_call {r : Rule} {next : r.Result → Steps α} (h : ∀ a, Prompt none (next a)) :
    Prompt last (call r next) :=
  .inr h

theorem prompt_done {r : Rule} (g : r.Result → α) : Prompt last (call r fun a => done (g a)) :=
  prompt_call fun _ => trivial

theorem prompt_ofRule (r : Rule) : Prompt none (ofRule r) := by
  cases r with
  | primary =>
    intro t
    unfold primary
    split
    case h_2 =>
      unfold integer
      split
      · trivial
      · exact ⟨⟨t, rfl, rfl⟩, trivial⟩
    case h_5 => exact prompt_call fun _ => prompt_expect (by trivial) _
    case h_6 => exact prompt_call fun _ _ => prompt_expect (by trivial) _
    case h_7 => exact ⟨⟨t, rfl, rfl⟩, prompt_ite trivial trivial⟩
    all_goals trivial
  | postfixTail e =>
    intro t
    unfold postfixTail
    split
    case h_1 => exact fun u => prompt_ite (prompt_done _) ⟨⟨u, rfl, rfl⟩, trivial⟩
    case h_2 => exact prompt_call fun _ _ => prompt_expect (prompt_done _) _
    case h_3 => trivial
  | postfixExpr => exact prompt_call fun _ => prompt_done _
  | unary => intro t; unfold unary; split <;> exact prompt_done _
  | binaryTail level left => intro t; unfold binaryTail; split <;> simp [Prompt]
  | binary level => cases level <;> simp [ofRule, binary, Prompt]
  | comparisonTail => intro t; unfold comparisonTail; split <;> simp [Prompt]
  | comparison => exact prompt_call fun _ => prompt_done _
  | logicalTail level => exact fun _ => prompt_ite (prompt_call fun _ => prompt_done _) trivial
  | logical level =>
    cases level with
    | zero => exact fun _ => prompt_ite (prompt_done _) (prompt_done _)
    | succ => exact prompt_call fun _ _ => prompt_done _
  | exprList closing =>
    exact fun _ => prompt_ite trivial (prompt_call fun _ _ => prompt_ite (prompt_done _) trivial)
  | exprOrYield =>
    exact fun _ => prompt_ite (fun _ => prompt_ite trivial (prompt_done _)) (prompt_done _)
  | assignTail => exact prompt_call fun _ _ => prompt_ite (prompt_done _) trivial
  | exprOrAssign =>
    refine prompt_call fun _ t => ?_
    dsimp only
    split
    · exact .inl ⟨rfl, t, rfl, ‹_›⟩
    · trivial
  | simpleBody =>
    intro t
    unfold simpleBody
    split
    case h_1 => exact fun _ => prompt_ite trivial (prompt_done _)
    case h_5 => exact prompt_done _
    all_goals trivial
  | simple => exact prompt_call fun _ t => prompt_ite trivial ⟨⟨t, rfl, rfl⟩, prompt_done _⟩
  | params => exact fun _ => prompt_ite (fun _ => prompt_ite (prompt_done _) trivial) trivial
  | skipLine => exact fun _ => prompt_ite (prompt_ite trivial trivial) (prompt_done _)
  | block =>
    exact fun _ => prompt_ite
      (fun _ => prompt_ite (prompt_call fun _ => prompt_expect (by trivial) _) trivial)
      (prompt_done _)
  | suite => exact prompt_expect (prompt_done _) _
  | cond =>
    exact fun _ => prompt_ite trivial (prompt_call fun _ => prompt_call fun _ _ =>
      prompt_ite (prompt_done _) (prompt_ite (prompt_done _) trivial))
  | stmt =>
    intro t
    unfold stmt
    split
    case h_1 =>
      refine fun u => prompt_ite ?_ ⟨⟨u, rfl, rfl⟩, prompt_done _⟩
      exact (prompt_expect (prompt_call fun _ => prompt_expect (prompt_done _) _) _ : Prompt none _)
    case h_2 => exact prompt_done _
    case h_3 => exact prompt_call fun _ => prompt_call fun _ => prompt_checkLoopElse (by trivial)
    case h_4 =>
      exact prompt_call fun _ => prompt_expect
        (prompt_call fun _ => prompt_call fun _ => prompt_checkLoopElse (by trivial)) _
    case h_8 => exact prompt_done _
    all_goals exact ⟨⟨t, rfl, rfl⟩, prompt_done _⟩
  | stmts inBlock =>
    exact fun _ => prompt_ite trivial
      (prompt_ite trivial (prompt_ite (prompt_done _) (prompt_call fun _ => prompt_done _)))

end Steps

/-- **Behind the last line every complaint stands at the end of the text.** -/
theorem late_read (r : Rule) (h : p.Trailed) : Late p (r.read p).2 := by
  induction r, p using induct with
  | step r p ih =>
    rw [read_eq_run]
    exact late_run (prompt_ofRule r) nofun h ih

/-- There is no new complaint, or the parse is incomplete. -/
def Cut (p q : Parser) : Prop := q.complaints = p.complaints ∨ q.incomplete = true

theorem Cut.trans {r : Parser} (h : Cut p q) (h' : Cut q r) (hlater : Later q r) : Cut p r := by
  obtain h | h := h
  · rwa [Cut, h] at h'
  · exact .inr (hlater.incomplete h)

theorem Steps.cut_run {α : Type} {s : Steps α} (h : p.rest = [])
    (hcalls : ∀ c ∈ s.calls p, c.2.rest = [] → Cut c.2 (c.1.read c.2).2) : Cut p (s.run p).2 := by
  induction s generalizing p with
  | done a => exact .inl rfl
  | look next ih => exact ih _ h hcalls
  | advance next ih =>
    have hrest : p.advance.rest = [] := by rw [Parser.advance, h]; rfl
    exact ih hrest hcalls
  | complain pos c next ih =>
    refine .inr ((later_run_steps next _).incomplete ?_)
    simp [Parser.complain, kind_of_rest_nil h]
  | missingBlock next ih =>
    refine .inr ((later_run_steps next _).incomplete ?_)
    have hkind : ∀ b, ({ p with incomplete := b } : Parser).kind = .endOfInput :=
      fun _ => kind_of_rest_nil h
    simp [complainMissingBlock, Parser.complain, hkind]
  | call r next ih =>
    obtain ⟨hr, hnext⟩ := forall_mem_cons.mp hcalls
    have hrest : (r.read p).2.rest = [] :=
      suffix_nil.mp (h ▸ (later_read r p).rest)
    exact (hr h).trans (ih _ hrest hnext) (later_run_steps _ _)

/-- A complaint at the end of the text makes the parse incomplete. -/
theorem cut_read (r : Rule) (h : p.rest = []) : Cut p (r.read p).2 := by
  induction r, p using induct with
  | step r p ih =>
    rw [read_eq_run]
    exact cut_run h ih

/-! ### What finishes a rule -/

def operators : List Kind :=
  [.plus, .minus, .star, .slash, .percent, .shl, .shr, .pipe, .caret, .amp, .tilde, .eq, .notEq,
    .lt, .ltEq, .gt, .gtEq]

theorem mem_operators_of_signOp? {op : UnaryOp} (h : signOp? k = some op) : k ∈ operators := by
  cases k <;> first | decide | cases h

theorem mem_operators_of_binaryOp? {level : Nat} {op : BinaryOp} (h : binaryOp? level k = some op) :
    k ∈ operators := by
  unfold binaryOp? at h
  split at h <;> first | decide | cases h

theorem mem_operators_of_compareOp? {op : CompareOp} (h : compareOp? k = some op) :
    k ∈ operators := by
  cases k <;> first | decide | cases h

/-- A token that serves to finish a line. -/
def isFiller : Kind → Bool
  | .ident | .lparen | .rparen | .rbracket | .colon | .kwIn | .kwPass => true
  | _ => false

def endsExpr : Kind → Bool
  | .newline | .colon | .kwIn | .rparen | .rbracket => true
  | _ => false

/-- The tokens that finish a text that breaks off in the middle of a line, or behind one: they end
the line, if there is one, and close blocks. Behind the header of a block there is a block to
open. -/
def Filling : Bool → List Kind → Prop
  | true, ks => ∃ line n, (∀ k ∈ line, isFiller k = true) ∧
      ks = line ++ .newline :: List.replicate n .dedent
  | false, ks => ∃ n, ks = List.replicate n .dedent ∨
      ks = .indent :: .kwPass :: .newline :: List.replicate (n + 1) .dedent

namespace Rule

/-- Rules for expressions come first, then the other rules whose tokens stand in one line. No rule
calls a later one. -/
def tier : Rule → Nat
  | .simple | .skipLine | .block | .suite | .cond | .stmt | .stmts _ => 2
  | .assignTail | .exprOrAssign | .simpleBody => 1
  | _ => 0

/-- A rule whose tokens stand in one line. -/
def isInline (r : Rule) : Bool := r.tier < 2

theorem tier_le (r : Rule) : r.tier ≤ 2 := by
  cases r <;> simp [tier]

theorem isInline_of_tier_le {r r' : Rule} (h : r'.tier ≤ r.tier) (hr : r.isInline = true) :
    r'.isInline = true := by
  simp only [isInline, decide_eq_true_eq] at hr ⊢
  exact Nat.lt_of_le_of_lt h hr

/-- A rule that is done only at a token that it leaves. -/
def peeks : Rule → Bool
  | .stmts _ => true
  | _ => false

/-- The kinds of tokens before which a rule can be finished. -/
def follow : Rule → Kind → Bool
  | .exprList closing, k => k = closing
  | .params, k => k = .rparen
  | .exprOrYield, k | .assignTail, k | .exprOrAssign, k | .simpleBody, k => k = .newline
  | .simple, _ | .block, _ | .suite, _ | .skipLine, _ => true
  | .cond, k | .stmt, k => k ≠ .kwElif && k ≠ .kwElse
  | .stmts inBlock, k => k = if inBlock then .dedent else .endOfInput
  | _, k => endsExpr k

/-- The tokens that finish a rule. -/
def Fits (mid : Bool) : Rule → List Kind → Prop
  | .simple, ks => mid = true ∧ ∃ line, (∀ k ∈ line, isFiller k = true) ∧ ks = line ++ [.newline]
  | .block, ks | .suite, ks | .stmts _, ks => Filling mid ks
  | .cond, ks | .stmt, ks => ks = [] ∨ Filling mid ks
  | _, ks => mid = true ∧ ∀ k ∈ ks, isFiller k = true

/-- What a rule is called on when the tokens run out in the middle of a line, or behind one. -/
def Entry (mid : Bool) : Rule → List Token → Prop
  | .stmts _, _ => True
  | .stmt, x => x ≠ []
  | .cond, x => ∃ t ts, x = t :: ts ∧ (t.kind = .kwIf ∨ t.kind = .kwElif)
  | _, x => mid = false → x ≠ []

theorem ne_nil_of_entry {mid : Bool} {r : Rule} {x : List Token} (hr : r.isInline = true)
    (h : r.Entry mid x) (hmid : mid = false) : x ≠ [] := by
  cases r <;> first | exact h hmid | cases hr

/-- The expressions given to a rule are made of tokens of the text. -/
def Apt : Rule → Prop
  | .postfixTail e | .binaryTail _ e => e.pos.column ≠ 0
  | .exprList closing => closing = .rparen ∨ closing = .rbracket
  | .assignTail | .skipLine => False
  | _ => True

/-- What is read by a rule is made of tokens of the text. -/
def Placed : (r : Rule) → r.Result → Prop
  | .primary, e | .postfixTail _, e | .postfixExpr, e | .unary, e | .binaryTail _ _, e
  | .binary _, e | .comparison, e | .logical _, e | .exprOrYield, e => e.pos.column ≠ 0
  | _, _ => True

end Rule

namespace Steps

variable {α : Type}

/-- Whatever follows the tokens `x`, what is done with them and the tokens `y` left of them are the
same, and there is no complaint. -/
def Settles (s : Steps α) (x : List Token) (a : α) (y : List Token) : Prop :=
  ∀ p e, p.rest = x ++ e → s.run p = (a, p.withRest (y ++ e))

/-- Whatever follows the tokens `x`, there is a complaint about one of them. -/
def Doomed (s : Steps α) (x : List Token) : Prop :=
  ∃ d : Diagnostic, d.pos.column ≠ 0 ∧ ∀ p e, p.rest = x ++ e → d ∈ (s.run p).2.complaints

/-- Behind the tokens `x`, tokens of the kinds `ks` finish the steps. -/
def Fills (follow : Kind → Bool) (ks : List Kind) (s : Steps α) (x : List Token) : Prop :=
  ∀ p c v, c.map Token.kind = ks → follow (p.withRest v).kind = true → p.rest = x ++ (c ++ v) →
    ∃ a, s.run p = (a, p.withRest v)

abbrev Finishes (follow : Kind → Bool) (ks : List Kind) (s : Steps α) : Prop := Fills follow ks s []

/-- The steps are not done when the tokens `x` run out. Tokens of the kinds `ks` finish them; if the
text ends instead, every complaint stands at the end. -/
structure Pending (follow : Kind → Bool) (ks : List Kind) (s : Steps α) (x : List Token) :
    Prop where
  fills : Fills follow ks s x
  late : ∀ p e, (∀ t ∈ e, Trailing p.finish t) → p.rest = x ++ e → Late p (s.run p).2
  rest : ∀ p e, p.rest = x ++ e → (s.run p).2.rest <:+ e
  cut : ∀ p, p.rest = x → Cut p (s.run p).2
  block : ks.head? = some .indent → ∀ p e, (∀ t ∈ e, t.kind = .dedent) → p.rest = x ++ e →
    (s.run p).2.incomplete = true

/-- The tokens can run out here. -/
structure Ends (r : Rule) (mid : Bool) (ks : List Kind) (s : Steps r.Result) : Prop where
  finishes : Finishes r.follow ks s
  fits : r.Fits mid ks
  block : ks.head? = some .indent → ∀ p, (∀ t ∈ p.rest, t.kind = .dedent) →
    (s.run p).2.incomplete = true

/-- What is known of the tokens in front of a step: whether there are any, and the first. -/
structure Knows (more : Bool) (cur : Option Token) (x : List Token) : Prop where
  more : more = true → x ≠ []
  cur : ∀ t ∈ cur, ∃ ts, x = t :: ts

/-- The tokens can run out in a call of the rule `r'` that tokens of the kinds `ks` finish: then
tokens of the kinds `ks'` finish the steps. -/
structure Resumes (r : Rule) (mid : Bool) (r' : Rule) (next : r'.Result → Steps r.Result)
    (ks ks' : List Kind) : Prop where
  fits : r.Fits mid (ks ++ ks')
  meets : ∀ k, r.follow k = true → r'.follow (ks'.headD k) = true
  indent : ks = [] → ks'.head? ≠ some .indent
  finishes : ∀ a, Finishes r.follow ks' (next a)

end Steps

/-- The tokens in front decide what becomes of them. -/
inductive Verdict (mid : Bool) (r : Rule) (s : Steps r.Result) (x : List Token) : Prop
  | settled (a : r.Result) (u y : List Token) (hx : x = u ++ y)
      (hinline : r.isInline = true → ∀ t ∈ u, t.kind.isInline = true)
      (hpeek : r.peeks = true → y ≠ []) (hplaced : r.Placed a) (h : s.Settles x a y)
  | doomed (h : s.Doomed x)
  | pending (ks : List Kind) (hfits : r.Fits mid ks) (h : s.Pending r.follow ks x)

/-- Tokens of a text that run out in the middle of a line, or behind one. -/
structure Front (mid : Bool) (x : List Token) : Prop where
  placed : ∀ t ∈ x, t.pos.column ≠ 0 ∧ t.kind ≠ .endOfInput
  last : ∀ t ∈ x.getLast?, t.kind = .newline ↔ mid = false

theorem Front.mono {mid : Bool} {x y : List Token} (h : Front mid x) (hy : y <:+ x) :
    Front mid y where
  placed t ht := h.placed t (hy.subset ht)
  last := by
    intro t ht
    obtain ⟨u, rfl⟩ := hy
    refine h.last t ?_
    rw [Option.mem_def] at ht ⊢
    rw [getLast?_append, ht, Option.some_or]

/-- Behind a line the tokens do not run out behind tokens that stand within one. -/
theorem Front.ne_nil {u y : List Token} (h : Front false (u ++ y)) (hne : u ++ y ≠ [])
    (hu : ∀ t ∈ u, t.kind.isInline = true) : y ≠ [] := by
  rintro rfl
  rw [append_nil] at h hne
  have hlast := h.last _ (getLast?_eq_some_getLast hne)
  have := hu _ (getLast_mem hne)
  rw [hlast.mpr rfl] at this
  cases this

/-! ### Verdicts step by step -/

namespace Steps

section Compose

variable {α : Type} {follow : Kind → Bool} {ks : List Kind} {x y : List Token} {t : Token}
  {a : α} {s s' : Steps α} {r : Rule} {next : r.Result → Steps α} {b : r.Result}

variable {e : List Token}

theorem run_look_of_rest {next : Token → Steps α} (hp : p.rest = t :: x ++ e) :
    (look next).run p = (next t).run (p.withRest (t :: x ++ e)) := by
  rw [run, cur_of_rest hp, ← hp]
  rfl

theorem run_advance_of_rest (hp : p.rest = t :: x ++ e) :
    (advance s).run p = s.run (p.withRest (x ++ e)) := by
  rw [run, Parser.advance, hp]
  rfl

theorem run_call_of_settles (hb : (ofRule r).Settles x b y) (hp : p.rest = x ++ e) :
    (call r next).run p = (next b).run (p.withRest (y ++ e)) := by
  rw [run, read_eq_run, hb p e hp]

/-! Steps that on the tokens `x` come to other steps on the tokens `y`. -/

section

variable (hrun : ∀ p e, p.rest = x ++ e → s.run p = s'.run (p.withRest (y ++ e)))

include hrun

theorem Settles.of_run {z : List Token} (h : s'.Settles y a z) : s.Settles x a z := fun p e hp =>
  (hrun p e hp).trans (h (p.withRest (y ++ e)) e rfl)

theorem Doomed.of_run (h : s'.Doomed y) : s.Doomed x := by
  obtain ⟨d, hd, h⟩ := h
  refine ⟨d, hd, fun p e hp => ?_⟩
  rw [hrun p e hp]
  exact h (p.withRest (y ++ e)) e rfl

theorem Pending.of_run (h : s'.Pending follow ks y) : s.Pending follow ks x where
  fills p c v hc hv hp := hrun p _ hp ▸ h.fills (p.withRest (y ++ (c ++ v))) c v hc hv rfl
  late p e he hp := hrun p e hp ▸ h.late (p.withRest (y ++ e)) e he rfl
  rest p e hp := hrun p e hp ▸ h.rest (p.withRest (y ++ e)) e rfl
  cut p hp := by
    rw [hrun p [] (hp.trans (append_nil x).symm), append_nil]
    exact h.cut (p.withRest y) rfl
  block hks p e he hp := hrun p e hp ▸ h.block hks (p.withRest (y ++ e)) e he rfl

end

theorem Doomed.call (h : (ofRule r).Doomed x) : (call r next).Doomed x := by
  obtain ⟨d, hd, h⟩ := h
  refine ⟨d, hd, fun p e hp => ?_⟩
  have hmem := h p e hp
  rw [← read_eq_run] at hmem
  exact (later_run_steps (next _) _).complaints.subset hmem

theorem Fills.call {follow' : Kind → Bool} (hr : Fills follow' ks (ofRule r) x) (ks' : List Kind)
    (hmeets : ∀ k, follow k = true → follow' (ks'.headD k) = true)
    (h : ∀ b, Finishes follow ks' (next b)) : Fills follow (ks ++ ks') (Steps.call r next) x := by
  intro p c v hc hv hp
  obtain ⟨c₁, c₂, rfl, hc₁, hc₂⟩ := map_eq_append_iff.mp hc
  rw [append_assoc] at hp
  have hfollow : follow' (p.withRest (c₂ ++ v)).kind = true := by
    have := hmeets _ hv
    cases c₂ with
    | nil => rwa [← hc₂] at this
    | cons t ts => rwa [← hc₂] at this
  obtain ⟨b, hb⟩ := hr p c₁ (c₂ ++ v) hc₁ hfollow hp
  rw [run, read_eq_run, hb]
  exact h b (p.withRest (c₂ ++ v)) c₂ v hc₂ hv rfl

theorem Pending.call (hr : (ofRule r).Pending r.follow ks x) (ks' : List Kind)
    (hmeets : ∀ k, follow k = true → r.follow (ks'.headD k) = true)
    (hindent : ks = [] → ks'.head? ≠ some .indent) (hprompt : ∀ b, Prompt none (next b))
    (h : ∀ b, Finishes follow ks' (next b)) : (Steps.call r next).Pending follow (ks ++ ks') x := by
  have hrun : ∀ p, (Steps.call r next).run p =
      (next ((ofRule r).run p).1).run ((ofRule r).run p).2 := by
    intro p
    rw [run, read_eq_run]
  refine ⟨hr.fills.call ks' hmeets h, ?late, ?rest, ?cut, ?block⟩
  case late =>
    intro p e he hp
    rw [hrun]
    have hfinish := (later_run_steps (ofRule r) p).finish
    refine (hr.late p e he hp).trans (late_run (hprompt _) (by simp) ?_ fun c _ => late_read c.1)
      hfinish
    intro t ht
    rw [hfinish]
    exact he t ((hr.rest p e hp).subset ht)
  case rest =>
    intro p e hp
    rw [hrun]
    exact (later_run_steps _ _).rest.trans (hr.rest p e hp)
  case cut =>
    intro p hp
    rw [hrun]
    have hrest : ((ofRule r).run p).2.rest = [] :=
      suffix_nil.mp (hr.rest p [] (hp.trans (append_nil x).symm))
    exact (hr.cut p hp).trans (cut_run hrest fun c _ => cut_read c.1) (later_run_steps _ _)
  case block =>
    intro hks p e he hp
    rw [hrun]
    cases ks with
    | nil => exact absurd hks (hindent rfl)
    | cons k ks => exact (later_run_steps _ _).incomplete (hr.block hks p e he hp)

theorem Finishes.pending (h : Finishes follow ks s) (hprompt : Prompt none s)
    (hblock : ks.head? = some .indent → ∀ p, (∀ t ∈ p.rest, t.kind = .dedent) →
      (s.run p).2.incomplete = true) : s.Pending follow ks [] where
  fills := h
  late p e he hp := by
    refine late_run hprompt nofun ?_ fun c _ => late_read c.1
    exact fun t ht => he t (by rwa [hp] at ht)
  rest p e hp := by
    rw [← show p.rest = e from hp]
    exact (later_run_steps s p).rest
  cut p hp := cut_run hp fun c _ => cut_read c.1
  block hks p e he hp := hblock hks p (by rwa [hp])

end Compose

end Steps

/-- Steps that come to others behind the tokens `u` have their verdict. -/
theorem Verdict.of_run {mid : Bool} {r : Rule} {x u y : List Token} {s w : Steps r.Result}
    (hx : x = u ++ y) (hinline : r.isInline = true → ∀ t ∈ u, t.kind.isInline = true)
    (hrun : ∀ p e, p.rest = x ++ e → s.run p = w.run (p.withRest (y ++ e)))
    (h : Verdict mid r w y) : Verdict mid r s x := by
  cases h with
  | settled a u' z hy hu' hpeek hplaced h =>
    exact .settled a (u ++ u') z (by rw [hx, hy, append_assoc])
      (fun hr => forall_mem_append.mpr ⟨hinline hr, hu' hr⟩) hpeek hplaced (h.of_run hrun)
  | doomed h => exact .doomed (h.of_run hrun)
  | pending ks hfits h => exact .pending ks hfits (h.of_run hrun)

namespace Steps

variable {mid : Bool} {r : Rule}

/-- Wherever the tokens can run out, some tokens finish the steps of the rule `r`. If the tokens run
out in the middle of a line, then the last of them does not end a line; otherwise it does. -/
def Safe (mid : Bool) (r : Rule) : Bool → Option Token → Steps r.Result → Prop
  | more, cur, done a => r.Placed a ∧ (r.peeks = true → more = true ∨ cur.isSome = true)
  | more, cur, look next =>
    (cur = none → more = false → ∃ ks, Ends r mid ks (look next)) ∧
      ∀ t, t.pos.column ≠ 0 → t.kind ≠ .endOfInput → (∀ u ∈ cur, t = u) →
        Safe mid r more (some t) (next t)
  | _, cur, advance next =>
    ∃ t ∈ cur, (r.isInline = true → t.kind.isInline = true) ∧
      Safe mid r (decide (t.kind = .newline) == mid) none next
  | _, _, complain .. => True
  | _, cur, missingBlock _ => ∃ t ∈ cur, t.pos.column ≠ 0
  | more, cur, call r' next =>
    (∀ x, Front mid x → Knows more cur x → Verdict mid r (call r' next) x) ∨
    r'.Apt ∧ r'.tier ≤ r.tier ∧ (∀ x, Knows more cur x → r'.Entry mid x) ∧
      (∀ ks, r'.Fits mid ks → ∃ ks', Resumes r mid r' next ks ks') ∧
      ∀ a, r'.Placed a → Safe mid r (r'.peeks || (r'.isInline && !mid)) none (next a)

/-- **Safe steps have a verdict**, if the calls that they make have one. -/
theorem verdict_run {s : Steps r.Result} {more : Bool} {cur : Option Token}
    (h : Safe mid r more cur s) {last : Option Token} (hprompt : Prompt last s)
    (hlast : ∀ t ∈ last, t.pos.column ≠ 0) (hfront : Front mid p.rest)
    (hknows : Knows more cur p.rest)
    (hcalls : ∀ c ∈ s.calls p, c.1.tier ≤ r.tier → c.1.Apt → Front mid c.2.rest →
      c.1.Entry mid c.2.rest → Verdict mid c.1 (ofRule c.1) c.2.rest) : Verdict mid r s p.rest := by
  induction s generalizing more cur last p with
  | done a =>
    refine .settled a [] p.rest rfl (by simp) (fun hpeek => ?_) h.1 fun q e hq => ?_
    · obtain hmore | hcur := h.2 hpeek
      · exact hknows.more hmore
      · obtain ⟨t, rfl⟩ := Option.isSome_iff_exists.mp hcur
        obtain ⟨ts, hts⟩ := hknows.cur t rfl
        simp [hts]
    · rw [← hq]
      rfl
  | look next ih =>
    cases hrest : p.rest with
    | nil =>
      have hcur : cur = none := by
        rw [Option.eq_none_iff_forall_not_mem]
        intro t ht
        obtain ⟨ts, hts⟩ := hknows.cur t ht
        cases hrest.symm.trans hts
      have hmore : more = false := by
        rw [Bool.eq_false_iff]
        exact fun hmore => hknows.more hmore hrest
      obtain ⟨ks, hends⟩ := h.1 hcur hmore
      exact .pending ks hends.fits (hends.finishes.pending hprompt hends.block)
    | cons t ts =>
      have hplaced := hfront.placed t (by simp [hrest])
      have hnext := h.2 t hplaced.1 hplaced.2 fun u hu => by
        obtain ⟨us, hus⟩ := hknows.cur u hu
        exact (List.cons.inj (hrest.symm.trans hus)).1
      have hverdict := ih t hnext (hprompt t) (by simpa using hplaced.1) hfront
          ⟨hknows.more, by simp [hrest]⟩ (by
        rw [calls, cur_of_rest hrest] at hcalls
        exact hcalls)
      rw [hrest] at hverdict
      exact hverdict.of_run (u := []) rfl (fun _ => forall_mem_nil _) fun q e hq =>
        run_look_of_rest hq
  | advance next ih =>
    obtain ⟨t, rfl, hinline, hnext⟩ := h
    obtain ⟨ts, hts⟩ := hknows.cur t rfl
    rw [hts]
    have hadvance := rest_advance_of_rest hts
    rw [← hadvance]
    have hverdict := ih hnext hprompt hlast (hfront.mono (tail_suffix _)) ⟨?_, by simp⟩ hcalls
    · exact hverdict.of_run (u := [t]) rfl (by simpa using hinline)
        fun q e hq => run_advance_of_rest hq
    -- If the token were the last, the tokens would not run out where they are said to.
    intro hmore hnil
    have hlast := hfront.last t (by rw [hts, ← hadvance, hnil]; rfl)
    cases mid <;> simp_all
  | complain pos c next ih =>
    obtain ⟨⟨t, ht, rfl⟩, -⟩ := hprompt
    refine .doomed ⟨⟨t.pos, c⟩, hlast t ht, fun q e _ => ?_⟩
    exact (later_run_steps next _).complaints.subset (by simp [Parser.complain])
  | missingBlock next ih =>
    obtain ⟨t, rfl, hplaced⟩ := h
    obtain ⟨ts, hts⟩ := hknows.cur t rfl
    refine .doomed ⟨⟨t.pos, .missingBlock⟩, hplaced, fun q e hq => ?_⟩
    refine (later_run_steps next _).complaints.subset ?_
    rw [hts, cons_append] at hq
    simp [complainMissingBlock, Parser.complain, Parser.pos, cur_of_rest hq]
  | call r' next ih =>
    obtain hdirect | ⟨hapt, htier, hentry, hresumes, hnext⟩ := h
    · exact hdirect p.rest hfront hknows
    have hprompt : ∀ a, Prompt none (next a) := by
      refine hprompt.resolve_left ?_
      rintro ⟨rfl, -⟩
      exact hapt
    obtain ⟨hr, hcalls⟩ := forall_mem_cons.mp hcalls
    have hentry := hentry p.rest hknows
    cases hr htier hapt hfront hentry with
    | settled a u y hx hu hpeek hplaced hsettles =>
      have hread : r'.read p = (a, p.withRest y) := by
        have := hsettles p [] (by rw [append_nil])
        rwa [← read_eq_run, append_nil] at this
      rw [hread] at hcalls
      have hsuffix : y <:+ p.rest := ⟨u, hx.symm⟩
      refine .of_run hx (fun hr => hu (isInline_of_tier_le htier hr))
        (fun q e hq => run_call_of_settles hsettles hq) ?_
      refine ih a (hnext a hplaced) (hprompt a) (by simp) (hfront.mono hsuffix)
        ⟨fun hmore => ?_, by simp⟩ hcalls
      obtain hpeeks | ⟨hline, hmid⟩ : r'.peeks = true ∨ r'.isInline = true ∧ mid = false := by
        simpa using hmore
      · exact hpeek hpeeks
      · -- Behind a line the tokens do not run out in a rule whose tokens stand in one line.
        subst hmid
        rw [hx] at hfront hentry
        exact hfront.ne_nil (ne_nil_of_entry hline hentry rfl) (hu hline)
    | doomed h => exact .doomed h.call
    | pending ks hfits h =>
      obtain ⟨ks', hks'⟩ := hresumes ks hfits
      exact .pending (ks ++ ks') hks'.fits (h.call ks' hks'.meets hks'.indent hprompt hks'.finishes)

end Steps

end Sequencer.Program.Parser
