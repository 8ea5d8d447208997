import Sequencer.Proofs.Program.Reading.Expr

/-!
# Reading written statements

The rules of the grammar for statements, as lemmas about the parser. An `else` or `elif` behind a
conditional belongs to it, and an `else` behind a loop is refused, so a statement must be followed
by neither (`Settled`).
-/

namespace Sequencer.Program

open List Stmt

/-! ### Trees without positions -/

mutual

def Stmt.erase : Stmt → Stmt
  | .funcDef _ name _ params body =>
    .funcDef nowhere name nowhere (params.map fun p => ⟨p.name, nowhere⟩) (eraseStmts body)
  | .assign target others _ value =>
    .assign target.erase (eraseExprs others) nowhere value.erase
  | .expr value => .expr value.erase
  | .cond _ test body orElse => .cond nowhere test.erase (eraseStmts body) (eraseStmts orElse)
  | .loop _ test body => .loop nowhere test.erase (eraseStmts body)
  | .each _ target iter body => .each nowhere target.erase iter.erase (eraseStmts body)
  | .ret _ result => .ret nowhere (eraseOption result)
  | .pass _ => .pass nowhere
  | .brk _ => .brk nowhere
  | .cont _ => .cont nowhere

def eraseStmts : List Stmt → List Stmt
  | [] => []
  | s :: ss => s.erase :: eraseStmts ss

end

def Module.erase (m : Module) : Module := ⟨eraseStmts m.body⟩

namespace Parser

open Token (Bare bare Kind)
open Steps (ofRule run_call read_eq_run)

/-! ### Whole expressions -/

/-- The tokens `bs` read as a whole expression, or as a `yield`. -/
structure ReadsWhole (bs : List Bare) (e : Expr) : Prop where
  starts : ∃ b bs', bs = b :: bs' ∧ (startLevel b.1 ≤ 11 ∨ b.1 = .kwYield)
  parses : ∀ {p q : Parser}, p.Takes bs q → q.kind = .newline ∨ q.kind = .assign →
    ∃ v, v.erase = e.erase ∧ Rule.exprOrYield.read p = (v, q)

theorem joinLevel_of_end {k : Kind} (h : k = .newline ∨ k = .assign) : 11 < joinLevel k := by
  obtain rfl | rfl := h <;> decide

variable {bs bs' : List Bare} {e t : Expr} {ts : List Expr} {p q : Parser} {ss body : List Stmt}
  {s : Stmt}

theorem readsWhole_of_reads (h : Reads 11 bs e) : ReadsWhole bs e where
  starts := by
    obtain ⟨b, bs', hbs, hb⟩ := h.starts
    exact ⟨b, bs', hbs, .inl hb⟩
  parses {p q} hp hq := by
    obtain ⟨v, hv, hout⟩ := h.exact hp (joinLevel_of_end hq)
    have hyield : p.cur.kind ≠ .kwYield := by
      intro hk
      have hle := h.startLevel_le hp
      rw [kind, hk] at hle
      exact absurd hle (by decide)
    refine ⟨v, hv, Eq.trans ?_ hout⟩
    simp [outAt, read_eq_run .exprOrYield, ofRule, Steps.exprOrYield, hyield]

theorem readsWhole_yield (pos : Position) : ReadsWhole [fixed .kwYield] (.yield pos none) where
  starts := ⟨_, _, rfl, .inr rfl⟩
  parses {p q} hp hq := by
    have hend : q.cur.kind.endsLine = true ∨ q.cur.kind = .assign :=
      hq.imp_left fun hk => by rw [show q.cur.kind = _ from hk]; rfl
    refine ⟨.yield p.cur.pos none, rfl, ?_⟩
    simp [read_eq_run, ofRule, Steps.exprOrYield, hp.cur_kind, hp.advance_eq, hend]

theorem readsWhole_yield_some (h : Reads 11 bs e) (pos : Position) :
    ReadsWhole (fixed .kwYield :: bs) (.yield pos (some e)) where
  starts := ⟨_, _, rfl, .inr rfl⟩
  parses {p q} hp hq := by
    obtain ⟨v, hv, hout⟩ := h.exact hp.advance (joinLevel_of_end hq)
    have hend : ¬(p.advance.cur.kind.endsLine = true ∨ p.advance.cur.kind = .assign) := by
      have hle := h.startLevel_le hp.advance
      rw [kind] at hle
      revert hle
      cases p.advance.cur.kind <;> simp [startLevel, Kind.endsLine]
    refine ⟨.yield p.cur.pos (some v), by simp only [Expr.erase, eraseOption, hv], ?_⟩
    simp [read_eq_run .exprOrYield, ofRule, Steps.exprOrYield, hp.cur_kind, hend,
      run_call (r := .expr) hout]

/-! ### Lines -/

theorem read_simpleBody (h : startLevel p.kind ≤ 11 ∨ p.kind = .kwYield) :
    Rule.simpleBody.read p = Rule.exprOrAssign.read p := by
  rw [read_eq_run, ofRule, Steps.run_look, Steps.simpleBody]
  split
  case h_5 => rfl
  all_goals
    rename_i hk
    rw [kind, hk] at h
    exact absurd h (by decide)

/-- The tokens `bs` read as what follows the first `=` of an assignment. -/
def ReadsAssign (bs : List Bare) (ts : List Expr) (e : Expr) : Prop :=
  ∀ {p q : Parser}, p.Takes bs q → q.kind = .newline →
    ∃ vs v, eraseExprs vs = eraseExprs ts ∧ v.erase = e.erase ∧
      Rule.assignTail.read p = ((vs, v), q)

theorem readsAssign_nil (h : ReadsWhole bs e) : ReadsAssign bs [] e := by
  intro p q hp hq
  obtain ⟨v, hv, hout⟩ := h.parses hp (.inl hq)
  refine ⟨[], v, rfl, hv, ?_⟩
  simp [read_eq_run .assignTail, ofRule, run_call hout, show q.cur.kind = _ from hq]

theorem readsAssign_cons (h : ReadsWhole bs t) (h' : ReadsAssign bs' ts e) :
    ReadsAssign (bs ++ fixed .assign :: bs') (t :: ts) e := by
  intro p q hp hq
  obtain ⟨m, hbs, hrest⟩ := hp.append
  obtain ⟨v, hv, hout⟩ := h.parses hbs (.inr hrest.kind)
  obtain ⟨vs, w, hvs, hw, hout'⟩ := h' hrest.advance hq
  refine ⟨v :: vs, w, by simp only [eraseExprs, hv, hvs], hw, ?_⟩
  simp [read_eq_run .assignTail p, ofRule, run_call hout, hrest.cur_kind, run_call hout']

/-- The kinds with which a line starts that is a whole statement. -/
def startsLine (k : Kind) : Bool :=
  startLevel k ≤ 11 || k ∈ [.kwYield, .kwReturn, .kwPass, .kwBreak, .kwContinue]

/-- The tokens `bs` read as a statement of one line, without the line end. -/
structure ReadsLine (bs : List Bare) (s : Stmt) : Prop where
  starts : ∃ b bs', bs = b :: bs' ∧ startsLine b.1 = true
  parses : ∀ {p q : Parser}, p.Takes bs q → q.kind = .newline →
    ∃ v, v.erase = s.erase ∧ Rule.simpleBody.read p = (v, q)

theorem ReadsWhole.starts_line (h : ReadsWhole bs e) (bs' : List Bare) :
    ∃ b cs, bs ++ bs' = b :: cs ∧ startsLine b.1 = true := by
  obtain ⟨b, cs, rfl, hb⟩ := h.starts
  refine ⟨b, cs ++ bs', rfl, ?_⟩
  obtain hb | hb := hb <;> simp [startsLine, hb]

theorem ReadsWhole.start (h : ReadsWhole bs e) (hp : p.Takes bs q) :
    startLevel p.kind ≤ 11 ∨ p.kind = .kwYield := by
  obtain ⟨b, bs', rfl, hb⟩ := h.starts
  rw [hp.kind]
  exact hb

theorem readsLine_expr (h : ReadsWhole bs e) : ReadsLine bs (.expr e) where
  starts := append_nil bs ▸ h.starts_line []
  parses {p q} hp hq := by
    obtain ⟨v, hv, hout⟩ := h.parses hp (.inl hq)
    refine ⟨.expr v, by simp only [erase, hv], (read_simpleBody (h.start hp)).trans ?_⟩
    simp [read_eq_run .exprOrAssign, ofRule, run_call hout, show q.cur.kind = _ from hq]

theorem unassignable?_eq_none_of_erase_eq {v : Expr} (h : v.erase = t.erase)
    (ht : unassignable? t = none) : unassignable? v = none := by
  have herase : ∀ e : Expr, unassignable? e.erase = unassignable? e := by
    intro e
    cases e <;> rfl
  rw [← herase, h, herase, ht]

theorem forall_unassignable? {vs : List Expr} (h : eraseExprs vs = eraseExprs ts)
    (hts : ∀ t ∈ ts, unassignable? t = none) : ∀ v ∈ vs, unassignable? v = none := by
  induction vs generalizing ts with
  | nil => exact forall_mem_nil _
  | cons v vs ih =>
    cases ts with
    | nil => cases h
    | cons t ts =>
      obtain ⟨hv, hvs⟩ := List.cons.inj h
      obtain ⟨ht, hts⟩ := forall_mem_cons.mp hts
      exact forall_mem_cons.mpr
        ⟨unassignable?_eq_none_of_erase_eq hv ht, ih hvs hts⟩

theorem readsLine_assign (h : ReadsWhole bs t) (h' : ReadsAssign bs' ts e)
    (htargets : ∀ t' ∈ t :: ts, unassignable? t' = none) (pos : Position) :
    ReadsLine (bs ++ fixed .assign :: bs') (.assign t ts pos e) where
  starts := h.starts_line _
  parses {p q} hp hq := by
    obtain ⟨m, hbs, hrest⟩ := hp.append
    obtain ⟨v, hv, hout⟩ := h.parses hbs (.inr hrest.kind)
    obtain ⟨vs, w, hvs, hw, hout'⟩ := h' hrest.advance hq
    have hall : ∀ v' ∈ v :: vs, unassignable? v' = none :=
      forall_unassignable? (by simp only [eraseExprs, hv, hvs]) htargets
    refine ⟨.assign v vs m.cur.pos w, by simp only [erase, hv, hvs, hw],
      (read_simpleBody (h.start hbs)).trans ?_⟩
    simp [read_eq_run .exprOrAssign, ofRule, run_call hout, hrest.cur_kind, run_call hout',
      checkTargets_eq hall]

theorem readsLine_ret (pos : Position) : ReadsLine [fixed .kwReturn] (.ret pos none) where
  starts := ⟨_, _, rfl, rfl⟩
  parses {p q} hp hq := by
    refine ⟨.ret p.cur.pos none, rfl, ?_⟩
    simp [read_eq_run, ofRule, Steps.simpleBody, hp.cur_kind, hp.advance_eq,
      show q.cur.kind = _ from hq]

theorem readsLine_ret_some (h : Reads 11 bs e) (pos : Position) :
    ReadsLine (fixed .kwReturn :: bs) (.ret pos (some e)) where
  starts := ⟨_, _, rfl, rfl⟩
  parses {p q} hp hq := by
    obtain ⟨v, hv, hout⟩ := h.exact hp.advance (joinLevel_of_end (.inl hq))
    have hline : p.advance.cur.kind ≠ .newline := by
      intro hk
      have hle := h.startLevel_le hp.advance
      rw [kind, hk] at hle
      exact absurd hle (by decide)
    refine ⟨.ret p.cur.pos (some v), by simp only [erase, eraseOption, hv], ?_⟩
    simp [read_eq_run .simpleBody, ofRule, Steps.simpleBody, hp.cur_kind, hline,
      run_call (r := .expr) hout]

theorem readsLine_word {k : Kind} {f : Position → Stmt} (hk : startsLine k = true)
    (hf : ∀ pos pos', (f pos).erase = (f pos').erase)
    (h : ∀ w pos, Steps.simpleBody ⟨k, w, pos⟩ = .advance (.done (f pos))) (pos : Position) :
    ReadsLine [fixed k] (f pos) where
  starts := ⟨_, _, rfl, hk⟩
  parses {p q} hp _ := by
    have hsteps := h p.cur.lexeme p.cur.pos
    rw [← hp.cur_kind] at hsteps
    exact ⟨f p.cur.pos, hf _ _, by simp [read_eq_run, ofRule, hsteps, hp.advance_eq]⟩

/-! ### Blocks -/

/-- The kinds with which a statement starts. -/
def startsStmt (k : Kind) : Bool :=
  startsLine k || k ∈ [.kwDef, .kwIf, .kwWhile, .kwFor]

/-- The tokens `bs` read as parameters of the given names, up to a closing bracket. -/
def ReadsParams (bs : List Bare) (xs : List String) : Prop :=
  ∀ {p q : Parser}, p.Takes bs q → q.kind = .rparen →
    ∃ ps, ps.map Param.name = xs ∧ Rule.params.read p = (ps, q)

theorem readsParams_nil : ReadsParams [] [] := by
  intro p q hp hq
  obtain rfl := takes_nil.mp hp
  exact ⟨[], rfl, by simp [read_eq_run, ofRule, Steps.params, show p.cur.kind = _ from hq]⟩

theorem readsParams_single (x : String) : ReadsParams [(.ident, x)] [x] := by
  intro p q hp hq
  refine ⟨[⟨x, p.cur.pos⟩], rfl, ?_⟩
  simp [read_eq_run, ofRule, Steps.params, hp.cur_kind, hp.advance_eq, hp.lexeme,
    show q.cur.kind = _ from hq]

theorem readsParams_cons {xs : List String} (x : String) (h : ReadsParams bs xs) :
    ReadsParams ((.ident, x) :: fixed .comma :: bs) (x :: xs) := by
  intro p q hp hq
  obtain ⟨ps, hps, hout⟩ := h hp.advance.advance hq
  refine ⟨⟨x, p.cur.pos⟩ :: ps, by simp only [map_cons, hps], ?_⟩
  simp [read_eq_run .params p, ofRule, Steps.params, hp.cur_kind, hp.advance.cur_kind, hp.lexeme,
    run_call hout]

/-- What may follow a statement: no `else` or `elif` that would belong to it. -/
def Settled (p : Parser) : Prop := p.kind ≠ .kwElif ∧ p.kind ≠ .kwElse

/-- The tokens `bs` read as a statement. -/
structure ReadsStmt (bs : List Bare) (s : Stmt) : Prop where
  starts : ∃ b bs', bs = b :: bs' ∧ startsStmt b.1 = true
  parses : ∀ {p q : Parser}, p.Takes bs q → q.Settled →
    ∃ v, v.erase = s.erase ∧ Rule.stmt.read p = (some v, q)

/-- The tokens `bs` read as the statements of a block, or of a whole text. -/
structure ReadsStmts (bs : List Bare) (ss : List Stmt) : Prop where
  starts : bs = [] ∨ ∃ b bs', bs = b :: bs' ∧ startsStmt b.1 = true
  parses : ∀ {p q : Parser} (inBlock : Bool), p.Takes bs q →
    q.kind = .endOfInput ∨ inBlock = true ∧ q.kind = .dedent →
      ∃ vs, eraseStmts vs = eraseStmts ss ∧ (Rule.stmts inBlock).read p = (vs, q)

theorem readsStmts_nil : ReadsStmts [] [] where
  starts := .inl rfl
  parses {p q} inBlock hp hq := by
    obtain rfl := takes_nil.mp hp
    refine ⟨[], rfl, ?_⟩
    obtain hq | ⟨rfl, hq⟩ := hq <;>
      simp [read_eq_run, ofRule, Steps.stmts, show p.cur.kind = _ from hq]

theorem ReadsStmts.settled (h : ReadsStmts bs ss) (hp : p.Takes bs q)
    (hq : q.kind = .endOfInput ∨ q.kind = .dedent) : p.Settled := by
  obtain rfl | ⟨b, bs', rfl, hb⟩ := h.starts
  · obtain rfl := takes_nil.mp hp
    constructor <;> obtain hq | hq := hq <;> simp [hq]
  · have hk := hp.kind
    constructor <;> intro hk' <;> rw [← hk, hk'] at hb <;> exact absurd hb (by decide)

theorem readsStmts_cons (h : ReadsStmt bs s) (h' : ReadsStmts bs' ss) :
    ReadsStmts (bs ++ bs') (s :: ss) where
  starts := by
    obtain ⟨b, cs, rfl, hb⟩ := h.starts
    exact .inr ⟨b, cs ++ bs', rfl, hb⟩
  parses {p q} inBlock hp hq := by
    obtain ⟨m, hbs, hrest⟩ := hp.append
    obtain ⟨v, hv, hout⟩ := h.parses hbs (h'.settled hrest (hq.imp_right And.right))
    obtain ⟨vs, hvs, hout'⟩ := h'.parses inBlock hrest hq
    have hk : p.cur.kind ≠ .endOfInput ∧ p.cur.kind ≠ .dedent ∧ p.cur.kind ≠ .newline := by
      obtain ⟨b, cs, rfl, hb⟩ := h.starts
      rw [← hbs.cur_kind] at hb
      refine ⟨?_, ?_, ?_⟩ <;> intro hk <;> rw [hk] at hb <;> exact absurd hb (by decide)
    refine ⟨v :: vs, by simp only [eraseStmts, hv, hvs], ?_⟩
    simp [read_eq_run (.stmts _) p, ofRule, Steps.stmts, hk, run_call hout, run_call hout']

/-- Tokens that are read as a suite, whatever the positions. -/
structure ReadsSuite (bs : List Bare) (ss : List Stmt) : Prop where
  starts : ∃ bs', bs = fixed .colon :: bs'
  parses : ∀ {p q : Parser}, p.Takes bs q →
    ∃ vs, eraseStmts vs = eraseStmts ss ∧ Rule.suite.read p = (vs, q)

theorem ReadsSuite.lt_joinLevel (h : ReadsSuite bs ss) (hp : p.Takes bs q) :
    11 < joinLevel p.kind := by
  obtain ⟨bs', rfl⟩ := h.starts
  rw [hp.kind]
  decide

/-- The tokens of a block, with what stands around it. -/
def suiteTokens (bs : List Bare) : List Bare :=
  fixed .colon :: (.newline, "\n") :: (.indent, "") :: (bs ++ [(.dedent, "")])

theorem readsSuite_of_stmts (h : ReadsStmts bs ss) : ReadsSuite (suiteTokens bs) ss where
  starts := ⟨_, rfl⟩
  parses {p q} hp := by
    have hline := hp.expect
    obtain ⟨m, hbs, hclose⟩ := hline.advance.advance.append
    obtain ⟨vs, hvs, hout⟩ := h.parses true hbs (.inr ⟨rfl, hclose.kind⟩)
    refine ⟨vs, hvs, ?_⟩
    simp [read_eq_run .suite, read_eq_run .block, ofRule, Steps.block, hline.cur_kind,
      hline.advance.cur_kind, run_call hout, hclose.expect_eq]

/-! ### Statements -/

theorem readsStmt_line (h : ReadsLine bs s) : ReadsStmt (bs ++ [(.newline, "\n")]) s where
  starts := by
    obtain ⟨b, cs, rfl, hb⟩ := h.starts
    exact ⟨b, _, rfl, by simp [startsStmt, hb]⟩
  parses {p q} hp _ := by
    obtain ⟨m, hbs, hline⟩ := hp.append
    obtain ⟨v, hv, hout⟩ := h.parses hbs hline.kind
    have hstmt : Steps.stmt p.cur = .call .simple fun s => .done (some s) := by
      obtain ⟨b, cs, rfl, hb⟩ := h.starts
      rw [← hbs.cur_kind] at hb
      rw [Steps.stmt]
      split
      case h_8 => rfl
      all_goals
        rename_i hk
        rw [hk] at hb
        exact absurd hb (by decide)
    have hsimple : Rule.simple.read p = (v, q) := by
      simp [read_eq_run .simple, ofRule, run_call hout, Steps.endLine,
        hline.cur_kind, hline.advance_eq]
    exact ⟨v, hv, by simp [read_eq_run .stmt, ofRule, hstmt, run_call hsimple]⟩

theorem readsStmt_def {params : List Param} (h : ReadsParams bs (params.map Param.name))
    (h' : ReadsSuite bs' body) (name : String) (pos namePos : Position) :
    ReadsStmt (fixed .kwDef :: (.ident, name) :: fixed .lparen :: (bs ++ fixed .rparen :: bs'))
      (.funcDef pos name namePos params body) where
  starts := ⟨_, _, rfl, rfl⟩
  parses {p q} hp _ := by
    have hparen := hp.advance.advance.expect
    obtain ⟨m, hbs, hclose⟩ := hparen.append
    obtain ⟨ps, hps, hout⟩ := h hbs hclose.kind
    obtain ⟨vs, hvs, hout'⟩ := h'.parses hclose.expect
    refine ⟨.funcDef p.cur.pos name p.advance.cur.pos ps vs, ?_, ?_⟩
    · have hnames : ∀ l : List Param, l.map (fun p => (⟨p.name, nowhere⟩ : Param)) =
          (l.map Param.name).map fun x => ⟨x, nowhere⟩ := by
        intro l
        rw [map_map]
        rfl
      simp only [erase, hvs, hnames, hps]
    · simp [read_eq_run .stmt, ofRule, Steps.stmt, hp.cur_kind, hp.advance.cur_kind,
        hp.advance.lexeme, run_call hout, run_call hout']

theorem readsStmt_while {test : Expr} (h : Reads 11 bs test) (h' : ReadsSuite bs' body)
    (pos : Position) : ReadsStmt (fixed .kwWhile :: (bs ++ bs')) (.loop pos test body) where
  starts := ⟨_, _, rfl, rfl⟩
  parses {p q} hp hq := by
    obtain ⟨m, hbs, hbody⟩ := hp.advance.append
    obtain ⟨v, hv, hout⟩ := h.exact hbs (h'.lt_joinLevel hbody)
    obtain ⟨vs, hvs, hout'⟩ := h'.parses hbody
    refine ⟨.loop p.cur.pos v vs, by simp only [erase, hv, hvs], ?_⟩
    simp [read_eq_run .stmt, ofRule, Steps.stmt, hp.cur_kind, run_call (r := .expr) hout,
      run_call hout', Steps.checkLoopElse, show q.cur.kind ≠ _ from hq.2]

theorem readsStmt_for {bs'' : List Bare} {target iter : Expr} (h : Reads 0 bs target)
    (h' : Reads 11 bs' iter) (h'' : ReadsSuite bs'' body) (pos : Position) :
    ReadsStmt (fixed .kwFor :: (bs ++ fixed .kwIn :: (bs' ++ bs'')))
      (.each pos target iter body) where
  starts := ⟨_, _, rfl, rfl⟩
  parses {p q} hp hq := by
    obtain ⟨m, hbs, hin⟩ := hp.advance.append
    obtain ⟨n, hbs', hbody⟩ := hin.expect.append
    obtain ⟨v, hv, hout⟩ := h.exact hbs (by rw [hin.kind]; decide)
    obtain ⟨w, hw, hout'⟩ := h'.exact hbs' (h''.lt_joinLevel hbody)
    obtain ⟨vs, hvs, hout''⟩ := h''.parses hbody
    refine ⟨.each p.cur.pos v w vs, by simp only [erase, hv, hw, hvs], ?_⟩
    simp [read_eq_run .stmt, ofRule, Steps.stmt, hp.cur_kind, run_call (r := .postfixExpr) hout,
      run_call (r := .expr) hout', run_call hout'', Steps.checkLoopElse,
      show q.cur.kind ≠ _ from hq.2]

/-- The tokens `bs` read as a conditional from its `if` or `elif` on. -/
def ReadsCond (bs : List Bare) (s : Stmt) : Prop :=
  ∀ {p q : Parser}, p.Takes bs q → q.Settled →
    ∃ v, v.erase = s.erase ∧ Rule.cond.read p = (some v, q)

def Steps.orElse (f : List Stmt → Stmt) : Steps (Option Stmt) :=
  look fun u =>
    if u.kind = .kwElif then call .cond fun s => done (some (f s.toList))
    else if u.kind = .kwElse then advance (call .suite fun orElse => done (some (f orElse)))
    else done (some (f []))

/-- The tokens `bs` read as what a conditional does otherwise. -/
def ReadsElse (bs : List Bare) (ss : List Stmt) : Prop :=
  ∀ {p q : Parser} (f : List Stmt → Stmt), p.Takes bs q → q.Settled →
    ∃ vs, eraseStmts vs = eraseStmts ss ∧ (Steps.orElse f).run p = (some (f vs), q)

theorem readsElse_nil : ReadsElse [] [] := by
  intro p q f hp hq
  obtain rfl := takes_nil.mp hp
  have hq : p.cur.kind ≠ .kwElif ∧ p.cur.kind ≠ .kwElse := hq
  exact ⟨[], rfl, by simp [Steps.orElse, hq]⟩

theorem readsElse_else (h : ReadsSuite bs ss) : ReadsElse (fixed .kwElse :: bs) ss := by
  intro p q f hp _
  obtain ⟨vs, hvs, hout⟩ := h.parses hp.advance
  exact ⟨vs, hvs, by simp [Steps.orElse, hp.cur_kind, run_call hout]⟩

theorem readsElse_elif (h : ReadsCond (fixed .kwElif :: bs) s) :
    ReadsElse (fixed .kwElif :: bs) [s] := by
  intro p q f hp hq
  obtain ⟨v, hv, hout⟩ := h hp hq
  exact ⟨[v], by simp only [eraseStmts, hv], by simp [Steps.orElse, hp.cur_kind, run_call hout]⟩

theorem readsCond {bs'' : List Bare} {test : Expr} {orElse : List Stmt} (h : Reads 11 bs test)
    (h' : ReadsSuite bs' body) (h'' : ReadsElse bs'' orElse) (k : Kind)
    (hk : k ≠ .endOfInput) (pos : Position) :
    ReadsCond (fixed k :: (bs ++ (bs' ++ bs''))) (.cond pos test body orElse) := by
  intro p q hp hq
  obtain ⟨m, hbs, hrest⟩ := hp.advance.append
  obtain ⟨n, hbody, helse⟩ := hrest.append
  obtain ⟨v, hv, hout⟩ := h.exact hbs (h'.lt_joinLevel hbody)
  obtain ⟨vs, hvs, hout'⟩ := h'.parses hbody
  obtain ⟨ws, hws, hout''⟩ := h'' (.cond p.cur.pos v vs) helse hq
  refine ⟨.cond p.cur.pos v vs ws, by simp only [erase, hv, hvs, hws], ?_⟩
  rw [← hp.cur_kind] at hk
  rw [read_eq_run, ofRule, Steps.run_look, Steps.cond, if_neg hk, Steps.run_advance,
    run_call (r := .expr) hout, run_call hout']
  exact hout''

theorem readsStmt_if (h : ReadsCond (fixed .kwIf :: bs) s) : ReadsStmt (fixed .kwIf :: bs) s where
  starts := ⟨_, _, rfl, rfl⟩
  parses {p q} hp hq := by
    obtain ⟨v, hv, hout⟩ := h hp hq
    exact ⟨v, hv, by simp [read_eq_run .stmt, ofRule, Steps.stmt, hp.cur_kind, run_call hout]⟩

/-! ### Texts -/

theorem parse_of_reads {text : List Char} (hquiet : (lex text).diagnostics = [])
    (h : ReadsStmts ((lex text).tokens.map bare) ss) :
    (parse text).diagnostics = [] ∧ (parse text).incomplete = false ∧
      eraseStmts (parse text).module.body = eraseStmts ss := by
  have htakes : (start (lex text)).Takes ((lex text).tokens.map bare)
      ⟨[], (lex text).finish, [], false⟩ :=
    ⟨(lex text).tokens, rfl, by rw [append_nil]; rfl⟩
  obtain ⟨vs, hvs, hout⟩ := h.parses false htakes (.inl rfl)
  simp only [parse, hout, hquiet, append_nil, hvs, and_self]

end Parser

end Sequencer.Program
