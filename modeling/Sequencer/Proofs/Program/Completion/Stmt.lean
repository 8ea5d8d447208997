import Sequencer.Proofs.Program.Completion.Expr

/-!
# Unfinished programs can be finished

The rules of statements are safe as well, so every rule has a verdict. Assignments need an argument
of their own, since their targets are checked when everything has been read: an expression that
cannot be assigned is wrong as soon as an `=` stands behind it, but the complaint comes later.
-/

namespace Sequencer.Program.Parser

open List Rule
open Token (Kind)

namespace Steps

/-! ### Assignments -/

section Assignments

variable {mid : Bool} {x : List Token} {first : Expr} {pos : Position} {ts : List Expr}

/-- What is behind an `=`, with the targets so far. -/
def assignRest (first : Expr) (pos : Position) (ts : List Expr) : Steps Stmt :=
  call .assignTail fun o =>
    checkTargets (done (.assign first (ts ++ o.1) pos o.2)) (first :: (ts ++ o.1))

/-- What is behind an expression of an assignment. -/
def assignNext (first : Expr) (pos : Position) (ts : List Expr) (e : Expr) : Steps Stmt :=
  look fun t =>
    if t.kind = .assign then advance (assignRest first pos (ts ++ [e]))
    else done (.assign first ts pos e)

theorem run_assignRest (hts : ∀ t ∈ first :: ts, unassignable? t = none) (p : Parser) :
    (assignRest first pos ts).run p = (call .exprOrYield (assignNext first pos ts)).run p := by
  obtain ⟨⟨e, q⟩, he⟩ : ∃ o, Rule.exprOrYield.read p = o := ⟨_, rfl⟩
  rw [assignRest, run, run_checkTargets, read_eq_run .assignTail, ofRule, run_call he, run_call he]
  by_cases hk : q.cur.kind = .assign
  · simp [assignNext, assignRest, hk]
  · simp [assignNext, hk, checkTargets_eq hts]

theorem finishes_assign {s : Token → Steps Stmt} {a : Stmt} : Finishes Rule.exprOrAssign.follow []
    (look fun t => if t.kind = .assign then s t else done a) :=
  finishes_unless fun t ht hk => by simp [hk, Rule.follow] at ht

theorem prompt_assignNext (e : Expr) : Prompt none (assignNext first pos ts e) := by
  intro t
  dsimp only
  split
  · exact .inl ⟨rfl, t, rfl, ‹_›⟩
  · trivial

theorem mem_complaints_checkTargets {t : Expr} (ht : t ∈ ts) {what : String}
    (hwhat : unassignable? t = some what) (p : Parser) :
    (⟨t.pos, .notAssignable what⟩ : Diagnostic) ∈ (p.checkTargets ts).complaints := by
  induction ts generalizing p with
  | nil => cases ht
  | cons u us ih =>
    obtain rfl | ht := mem_cons.mp ht
    · rw [Parser.checkTargets, hwhat]
      have hlater := later_run_steps (checkTargets (done ()) us)
        (p.complain t.pos (.notAssignable what))
      rw [run_checkTargets] at hlater
      exact hlater.complaints.subset (by simp [Parser.complain])
    · rw [Parser.checkTargets]
      split
      · exact ih ht _
      · exact ih ht _

theorem doomed_assignRest {t : Expr} (ht : t ∈ first :: ts) (hplaced : t.pos.column ≠ 0)
    (hbad : unassignable? t ≠ none) : (assignRest first pos ts).Doomed x := by
  obtain ⟨what, hwhat⟩ := Option.ne_none_iff_exists'.mp hbad
  refine ⟨⟨t.pos, .notAssignable what⟩, hplaced, fun p e hp => ?_⟩
  rw [assignRest, run, run_checkTargets]
  exact mem_complaints_checkTargets ((prefix_append (first :: ts) _).subset ht) hwhat _

variable (hyield : ∀ x, Front mid x → (mid = false → x ≠ []) → Verdict mid .exprOrYield
  (ofRule .exprOrYield) x)

include hyield

theorem verdict_assignRest (hts : ∀ t ∈ first :: ts, unassignable? t = none) (hfront : Front mid x)
    (hne : mid = false → x ≠ []) : Verdict mid .exprOrAssign (assignRest first pos ts) x := by
  -- The induction is on the number of tokens: behind each `=` there is one less.
  induction hn : x.length using Nat.strongRecOn generalizing x ts with
  | ind n ih =>
    suffices h : Verdict mid .exprOrAssign (call .exprOrYield (assignNext first pos ts)) x from
      h.of_run (u := []) rfl (fun _ => forall_mem_nil _) fun p e hp => by
        rw [run_assignRest hts, ← hp]
        rfl
    cases hyield x hfront hne with
    | doomed h => exact .doomed h.call
    | pending ks hfits h =>
      refine .pending ks hfits ?_
      rw [← append_nil ks]
      exact h.call [] (fun _ => id) (by simp) prompt_assignNext fun _ => finishes_assign
    | settled e u y hx hu _ he hs =>
      refine .of_run hx (fun _ => hu rfl) (fun p z hp => run_call_of_settles hs hp) ?_
      cases y with
      | nil =>
        have hmid : mid = true := by
          by_contra hmid
          obtain rfl : mid = false := by simpa using hmid
          subst hx
          exact hfront.ne_nil (hne rfl) (hu rfl) rfl
        exact .pending [] ⟨hmid, by simp⟩ (finishes_assign.pending (prompt_assignNext e) (by simp))
      | cons t y =>
        by_cases ht : t.kind = .assign
        · have hfront' : Front mid (t :: y) := hfront.mono ⟨u, hx.symm⟩
          have hlt : y.length < n := by
            rw [← hn, hx]
            simp only [length_append, length_cons]
            omega
          refine .of_run (u := [t]) rfl (by simp [ht, Kind.isInline]) (fun p z hp => ?_)
            (w := assignRest first pos (ts ++ [e])) ?_
          · rw [assignNext, run_look_of_rest hp, if_pos ht, run_advance_of_rest rfl]
            rfl
          by_cases hbad : unassignable? e = none
          · refine ih y.length hlt ?_ (hfront'.mono (suffix_cons t y)) ?_ rfl
            · simpa [or_imp, forall_and, hbad] using hts
            · rintro rfl
              exact Front.ne_nil (u := [t]) hfront' (by simp) (by simp [ht, Kind.isInline])
          · exact .doomed (doomed_assignRest (by simp) he hbad)
        · refine .settled (.assign first ts pos e) [] (t :: y) rfl (fun _ => forall_mem_nil _)
            (fun _ => cons_ne_nil _ _) trivial fun p z hp => ?_
          rw [assignNext, run_look_of_rest hp, if_neg ht]
          rfl

theorem safe_exprOrAssign : Safe mid .exprOrAssign (!mid) none (ofRule .exprOrAssign) := by
  refine safe_call rfl (Nat.zero_le _) trivial [] (by simp) (fun _ => id) fun first =>
    ready_look rfl (by simp) finishes_assign fun hfirst t => ?_
  split
  · refine safe_advance (‹t.kind = _› ▸ rfl) (.inl fun x hfront hknows => ?_)
    change Verdict mid .exprOrAssign (assignRest first t.pos []) x
    by_cases hbad : unassignable? first = none
    · exact verdict_assignRest hyield (by simpa using hbad) hfront
        fun hmid => hknows.more (hmid ▸ rfl)
    · exact .doomed (doomed_assignRest (by simp) hfirst hbad)
  · exact safe_done trivial rfl

end Assignments

/-! ### Statements -/

theorem filling_line {line : List Kind} (h : ∀ k ∈ line, isFiller k = true) :
    Filling true (line ++ [.newline]) :=
  ⟨line, 0, h, rfl⟩

theorem head?_line_ne_indent {line : List Kind} (h : ∀ k ∈ line, isFiller k = true) :
    (line ++ [Kind.newline]).head? ≠ some .indent := by
  cases line with
  | nil => nofun
  | cons k ks => exact fun hhead => head?_ne_indent h hhead

theorem filling_append_dedent {mid : Bool} {ks : List Kind} (h : Filling mid ks) :
    Filling mid (ks ++ [.dedent]) := by
  have hreplicate (n : Nat) : List.replicate n Kind.dedent ++ [.dedent] =
      List.replicate (n + 1) .dedent := replicate_succ'.symm
  cases mid with
  | true =>
    obtain ⟨line, n, hline, rfl⟩ := h
    refine ⟨line, n + 1, hline, ?_⟩
    rw [append_assoc, cons_append, hreplicate]
  | false =>
    obtain ⟨n, rfl | rfl⟩ := h
    · exact ⟨n + 1, .inl (hreplicate n)⟩
    · refine ⟨n + 1, .inr ?_⟩
      rw [cons_append, cons_append, cons_append, hreplicate]

theorem incomplete_complainMissingBlock {p : Parser} (h : ∀ t ∈ p.rest, t.kind = .dedent) :
    p.complainMissingBlock.incomplete = true := by
  obtain ⟨rest, finish, complaints, incomplete⟩ := p
  match rest, h with
  | [], _ => simp [complainMissingBlock, Parser.complain, Parser.kind, Parser.cur, endToken]
  | [t], h =>
    simp [complainMissingBlock, Parser.complain, Parser.kind, Parser.cur, Parser.peek, endToken,
      h t]
  | t :: u :: us, h =>
    simp [complainMissingBlock, Parser.complain, Parser.kind, Parser.cur, Parser.peek, h t, h u]

section Statements

variable {mid more : Bool} {r r' : Rule} {cur : Option Token}

/-- A rule whose tokens go on over lines and blocks. -/
structure Spans (r : Rule) : Prop where
  tier : r.tier = 2
  fits : ∀ {mid ks}, Filling mid ks → r.Fits mid ks

theorem ends_of_line {s : Steps r.Result} (hr : Spans r) (line : List Kind)
    (hline : ∀ k ∈ line, isFiller k = true) (h : Finishes r.follow (line ++ [.newline]) s) :
    ∃ ks, Ends r true ks s := by
  refine ⟨line ++ [.newline], h, hr.fits (filling_line hline), fun hhead => ?_⟩
  exact absurd hhead (head?_line_ne_indent hline)

/-- The tokens can run out in a rule that stands in one line, and in what is behind it. -/
theorem safe_call_line {next : r'.Result → Steps r.Result} (hr : Spans r) (hr' : r'.isInline = true)
    (hapt : r'.Apt) (k : Kind) (line : List Kind) (hline : ∀ k' ∈ k :: line, isFiller k' = true)
    (hmeets : r'.follow k = true) (h : ∀ a, Ready mid r (k :: line ++ [.newline]) True (next a)) :
    Safe mid r (!mid) cur (call r' next) := by
  refine safe_call_inline hr' (hr.tier ▸ tier_le _) hapt (fun hmid => .inl (hmid ▸ rfl))
    (fun ks hks => ?_) fun a _ => (h a).safe trivial
  refine ⟨k :: line ++ [.newline], ?_, fun k' _ => ?_, fun _ => head?_line_ne_indent hline,
    fun a => (h a).finishes⟩
  · rw [← append_assoc]
    exact hr.fits (filling_line (forall_mem_append.mpr ⟨hks, hline⟩))
  · rwa [cons_append, headD_cons]

theorem ready_expect_line {next : Steps r.Result} (hr : Spans r) {k : Kind} (hk : k.isInline = true)
    (line : List Kind) (hline : ∀ k' ∈ k :: line, isFiller k' = true)
    (h : Ready mid r (line ++ [.newline]) True next) :
    Ready mid r (k :: line ++ [.newline]) True (expect k next) := by
  have hfinishes := finishes_expect (k := k) h.finishes
  exact ⟨hfinishes, fun _ => safe_expect hk (fun _ => ends_of_line hr _ hline hfinishes)
    (h.safe trivial)⟩

theorem safe_advance_layout {next : Steps r.Result} {t : Token} (hr : r.isInline = false)
    (h : Safe mid r (decide (t.kind = .newline) == mid) none next) :
    Safe mid r more (some t) (advance next) :=
  ⟨t, rfl, by simp [hr], h⟩

theorem safe_call_stmt {next : r'.Result → Steps r.Result} (hr : r.tier = 2)
    (hapt : r'.Apt) (hentry : ∀ x, Knows more cur x → r'.Entry mid x)
    (hfits : ∀ ks, r'.Fits mid ks → r.Fits mid ks)
    (hmeets : ∀ k, r.follow k = true → r'.follow k = true)
    (hfinishes : ∀ a, Finishes r.follow [] (next a))
    (hnext : ∀ a, Safe mid r (r'.peeks || (r'.isInline && !mid)) none (next a)) :
    Safe mid r more cur (call r' next) := by
  refine .inr ⟨hapt, hr ▸ r'.tier_le, hentry, fun ks hks => ?_, fun a _ => hnext a⟩
  exact ⟨[], by rw [append_nil]; exact hfits ks hks, hmeets, fun _ => nofun, hfinishes⟩

theorem safe_simple : Safe mid .simple (!mid) none (ofRule .simple) := by
  have hline (s : Stmt) : Finishes Rule.simple.follow [.newline] (endLine (done s)) :=
    finishes_endLine (finishes_done s)
  refine safe_call_inline rfl (tier_le _) trivial (fun hmid => .inl (hmid ▸ rfl)) ?_
    fun s _ => ?_
  · intro ks hks
    exact ⟨[.newline], ⟨rfl, ks, hks, rfl⟩, fun _ _ => rfl, fun _ => nofun, hline⟩
  · refine safe_look (fun _ => ?_) fun t _ => ?_
    · exact ⟨[.newline], hline s, ⟨rfl, [], by simp, rfl⟩, nofun⟩
    · split
      · exact safe_advance_layout rfl (safe_done trivial rfl)
      · trivial

theorem finishes_stmt : Finishes Rule.stmt.follow [.kwPass, .newline] (ofRule .stmt) := by
  refine finishes_look fun t ht => ?_
  simp only [stmt, ht]
  exact (finishes_call_done finishes_simple).mono fun _ _ => rfl

theorem finishes_stmts_pass :
    Finishes (Rule.stmts true).follow [.kwPass, .newline] (ofRule (.stmts true)) := by
  refine finishes_look fun t ht => ?_
  have hstep : stmts true t =
      call .stmt fun s => call (.stmts true) fun ss => done (s.toList ++ ss) := by
    simp [stmts, ht]
  rw [hstep]
  refine finishes_call_last (finishes_stmt.mono fun k hk => ?_) fun _ =>
    finishes_call_done (finishes_stmts true)
  have hk : k = .dedent := by simpa [Rule.follow] using hk
  rw [hk]
  rfl

theorem safe_block : Safe mid .block (!mid) none (ofRule .block) := by
  refine safe_look (fun _ => ends_of_line ⟨rfl, id⟩ [.kwPass] (by decide)
    finishes_block) fun t _ => ?_
  unfold block
  split
  · rename_i hline
    refine safe_advance_layout rfl ?_
    rw [hline]
    refine ⟨fun _ hmid => ?_, fun u hu _ _ => ?_⟩
    · -- The header of the block ends the text.
      obtain rfl : mid = false := by simpa using hmid
      refine ⟨[.indent, .kwPass, .newline, .dedent], ?_, ⟨0, .inr rfl⟩, fun _ p hp => ?_⟩
      · exact finishes_token fun _ => finishes_stmts_pass.call [.dedent] (fun _ _ => rfl)
          fun _ => finishes_expect (finishes_done _)
      · have hindent : p.cur.kind ≠ .indent := by
          cases hrest : p.rest with
          | nil =>
            rw [cur_of_rest_nil hrest]
            exact show Kind.endOfInput ≠ .indent by decide
          | cons u us =>
            rw [cur_of_rest hrest, hp u (by simp [hrest])]
            decide
        simp only [run]
        rw [if_neg hindent]
        exact incomplete_complainMissingBlock hp
    · dsimp only
      split
      · refine safe_advance_layout rfl (.inr ⟨trivial, tier_le _, fun _ _ => trivial,
          fun ks hks => ?_, ?_⟩)
        · exact ⟨[.dedent], filling_append_dedent hks, fun _ _ => rfl, fun _ => by decide,
            fun ss => finishes_expect (finishes_done ss)⟩
        · refine fun ss _ => safe_look_more fun v _ => ?_
          split
          · exact safe_advance_layout rfl (safe_done trivial rfl)
          · trivial
      · exact ⟨u, rfl, hu⟩
  · refine safe_call_stmt rfl trivial (fun x hx _ => hx.ne_nil (.inr rfl)) ?_ (fun _ _ => rfl)
      (fun _ => finishes_done _) fun _ => safe_done trivial rfl
    rintro _ ⟨rfl, line, hline, rfl⟩
    exact filling_line hline

theorem safe_suite : Safe mid .suite (!mid) none (ofRule .suite) := by
  refine safe_expect rfl (fun _ => ends_of_line ⟨rfl, id⟩ [.colon, .kwPass] (by decide)
    finishes_suite) ?_
  exact safe_call_stmt rfl trivial (fun x hx hmid => hx.more (hmid ▸ rfl)) (fun _ => id)
    (fun _ => id) finishes_done fun _ => safe_done trivial rfl

/-- What is behind the block of a conditional. -/
theorem finishes_clauses {s : Stmt} {s₁ s₂ : Steps (Option Stmt)} :
    Finishes Rule.cond.follow [] (look fun u =>
      if u.kind = .kwElif then s₁ else if u.kind = .kwElse then s₂ else done (some s)) := by
  refine finishes_look_nil fun u hu => ?_
  have hu : u.kind ≠ .kwElif ∧ u.kind ≠ .kwElse := by simpa [Rule.follow] using hu
  rw [if_neg hu.1, if_neg hu.2]
  exact finishes_done _

theorem ready_suite {next : List Stmt → Steps r.Result} (hr : Spans r)
    (hfinishes : ∀ body, Finishes r.follow [] (next body))
    (hnext : ∀ body, Safe mid r false none (next body)) :
    Ready mid r [.colon, .kwPass, .newline] True (call .suite next) :=
  ⟨finishes_suite.call [] (fun _ _ => rfl) hfinishes,
    fun _ => safe_call_stmt hr.tier trivial (fun _ hx hmid => hx.more (hmid ▸ rfl))
      (fun _ => hr.fits) (fun _ _ => rfl) hfinishes hnext⟩

theorem safe_cond {t : Token} (ht : t.kind = .kwIf ∨ t.kind = .kwElif) :
    Safe mid .cond true (some t) (ofRule .cond) := by
  have hspans : Spans .cond := ⟨rfl, .inr⟩
  refine safe_look_some fun _ hend => ?_
  unfold cond
  rw [if_neg hend]
  refine safe_advance (by obtain ht | ht := ht <;> rw [ht] <;> rfl) ?_
  refine safe_call_line hspans rfl trivial .colon [.kwPass] (by decide) rfl fun test =>
    ready_suite hspans (fun _ => finishes_clauses) fun body => ⟨fun _ _ => ?_, fun u _ _ _ => ?_⟩
  · exact ⟨[], finishes_clauses, .inl rfl, nofun⟩
  · dsimp only
    split
    · refine safe_call_stmt rfl trivial (fun x hx => ?_) (fun _ => id) (fun _ => id)
        (fun _ => finishes_done _) fun _ => safe_done trivial rfl
      obtain ⟨us, rfl⟩ := hx.cur u rfl
      exact ⟨u, us, rfl, .inr ‹_›⟩
    · split
      · exact safe_advance (‹u.kind = .kwElse› ▸ rfl)
          ((ready_suite hspans (fun _ => finishes_done _) fun _ => safe_done trivial rfl).safe
            trivial)
      · exact safe_done trivial rfl

theorem finishes_checkLoopElse (s : Stmt) :
    Finishes Rule.stmt.follow [] (checkLoopElse (done (some s))) :=
  finishes_unless fun u hu hk => by simp [hk, Rule.follow] at hu

theorem safe_checkLoopElse (s : Stmt) :
    Safe mid .stmt false none (checkLoopElse (done (some s))) := by
  refine ⟨fun _ _ => ⟨[], finishes_checkLoopElse s, .inl rfl, nofun⟩, fun t _ _ _ => ?_⟩
  dsimp only
  split
  · trivial
  · exact safe_done trivial rfl

theorem ready_loop (mid : Bool) (g : List Stmt → Stmt) :
    Ready mid .stmt [.colon, .kwPass, .newline] True
      (call .suite fun body => checkLoopElse (done (some (g body)))) :=
  ready_suite ⟨rfl, .inr⟩ (fun _ => finishes_checkLoopElse _) fun _ => safe_checkLoopElse _

theorem safe_stmt : Safe mid .stmt true none (ofRule .stmt) := by
  have hspans : Spans .stmt := ⟨rfl, .inr⟩
  refine safe_look_more fun t _ => ?_
  unfold stmt
  split
  case h_1 hk =>
    have hparams (u : Token) : Ready mid .stmt [.lparen, .rparen, .colon, .kwPass, .newline] True
        (expect .lparen (call .params fun ps => expect .rparen (call .suite fun body =>
          done (some (Stmt.funcDef t.pos u.lexeme u.pos ps body))))) := by
      have hsuite (ps : List Param) : Ready mid .stmt [.rparen, .colon, .kwPass, .newline] True
          (expect .rparen (call .suite fun body =>
            done (some (Stmt.funcDef t.pos u.lexeme u.pos ps body)))) :=
        ready_expect_line hspans rfl [.colon, .kwPass] (by decide)
          (ready_suite hspans (fun _ => finishes_done _) fun _ => safe_done trivial rfl)
      exact ready_expect_line hspans rfl [.rparen, .colon, .kwPass] (by decide)
        ⟨finishes_params.call _ (fun _ _ => rfl) fun ps => (hsuite ps).finishes,
          fun _ => safe_call_line hspans rfl trivial .rparen [.colon, .kwPass] (by decide) rfl
            hsuite⟩
    refine safe_advance (hk ▸ rfl) (safe_look (fun _ => ?_) fun u _ => ?_)
    · exact ends_of_line hspans [.ident, .lparen, .rparen, .colon, .kwPass] (by decide)
        (finishes_token fun u => (hparams u).finishes)
    · split
      · exact safe_advance (‹u.kind = .ident› ▸ rfl) ((hparams u).safe trivial)
      · trivial
  case h_2 hk =>
    refine safe_call_stmt rfl trivial (fun x hx => ?_) (fun _ => id) (fun _ => id) finishes_done
      fun _ => safe_done trivial rfl
    obtain ⟨ts, rfl⟩ := hx.cur t rfl
    exact ⟨t, ts, rfl, .inl hk⟩
  case h_3 hk =>
    exact safe_advance (hk ▸ rfl) (safe_call_line hspans rfl trivial .colon [.kwPass] (by decide)
      rfl fun _ => ready_loop mid _)
  case h_4 hk =>
    refine safe_advance (hk ▸ rfl) (safe_call_line hspans rfl trivial .kwIn
      [.ident, .colon, .kwPass] (by decide) rfl fun target => ready_expect_line hspans rfl
        [.ident, .colon, .kwPass] (by decide) ⟨?_, fun _ => ?_⟩)
    · exact (finishes_logical 2).call [.colon, .kwPass, .newline] (fun _ _ => rfl)
        fun _ => (ready_loop mid _).finishes
    · exact safe_call_line hspans rfl trivial .colon [.kwPass] (by decide) rfl
        fun _ => ready_loop mid _
  case h_8 =>
    refine safe_call_stmt rfl trivial (fun x hx _ => hx.ne_nil (.inr rfl)) ?_ (fun _ _ => rfl)
      (fun _ => finishes_done _) fun _ => safe_done trivial rfl
    rintro _ ⟨rfl, line, hline, rfl⟩
    exact .inr (filling_line hline)
  all_goals trivial

theorem follow_stmt_of_stmts {inBlock : Bool} (k : Kind)
    (h : (Rule.stmts inBlock).follow k = true) : Rule.stmt.follow k = true := by
  have hk : k = if inBlock then .dedent else .endOfInput := by simpa [Rule.follow] using h
  cases inBlock <;> rw [hk] <;> rfl

theorem safe_stmts (inBlock : Bool) :
    Safe mid (.stmts inBlock) false none (ofRule (.stmts inBlock)) := by
  refine ⟨fun _ _ => ?_, fun t ht hend _ => ?_⟩
  · cases mid with
    | true =>
      exact ⟨[.newline], finishes_stmts_newline inBlock, ⟨[], 0, by simp, rfl⟩,
        nofun⟩
    | false => exact ⟨[], finishes_stmts inBlock, ⟨0, .inl rfl⟩, nofun⟩
  · unfold stmts
    rw [if_neg hend]
    split
    · exact ⟨trivial, fun _ => .inr rfl⟩
    · split
      · exact safe_advance_layout rfl (safe_call_stmt rfl trivial (fun _ _ => trivial)
          (fun _ => id) (fun _ => id) finishes_done fun _ => ⟨trivial, fun _ => .inl rfl⟩)
      · refine .inr ⟨trivial, tier_le _, fun x hx => hx.ne_nil (.inr rfl), fun ks hks => ?_, ?_⟩
        · obtain rfl | hks := hks
          · cases mid with
            | true =>
              exact ⟨[.newline], ⟨[], 0, by simp, rfl⟩, fun _ _ => rfl, fun _ => nofun,
                fun s => finishes_call_done (finishes_stmts_newline inBlock)⟩
            | false =>
              exact ⟨[], ⟨0, .inl rfl⟩, follow_stmt_of_stmts, fun _ => nofun,
                fun s => finishes_call_done (finishes_stmts inBlock)⟩
          · exact ⟨[], by rwa [append_nil], follow_stmt_of_stmts, fun _ => nofun,
              fun s => finishes_call_done (finishes_stmts inBlock)⟩
        · exact fun s _ => safe_call_stmt rfl trivial (fun _ _ => trivial) (fun _ => id)
            (fun _ => id) (fun _ => finishes_done _) fun _ => ⟨trivial, fun _ => .inl rfl⟩

end Statements

end Steps

/-! ### Every rule -/

open Steps in
/-- **The first tokens of a text decide what becomes of them.** -/
theorem verdict_ofRule {mid : Bool} {r : Rule} {p : Parser} (hapt : r.Apt)
    (hfront : Front mid p.rest) (hentry : r.Entry mid p.rest) :
    Verdict mid r (ofRule r) p.rest := by
  have hyield : ∀ x, Front mid x → (mid = false → x ≠ []) →
      Verdict mid .exprOrYield (ofRule .exprOrYield) x := fun x hx hne =>
    verdict_of_tier_zero (p := ⟨x, ⟨0, 0⟩, [], false⟩) rfl trivial hx hne
  induction r, p using induct with
  | step r p ih =>
    have hrun {more : Bool} {cur : Option Token} (h : Safe mid r more cur (ofRule r))
        (hknows : Knows more cur p.rest) : Verdict mid r (ofRule r) p.rest :=
      verdict_run h (prompt_ofRule r) nofun hfront hknows fun c hc _ => ih c hc
    cases r with
    | exprOrAssign => exact hrun (safe_exprOrAssign hyield) (knows_not hentry)
    | simpleBody => exact hrun safe_simpleBody (knows_not hentry)
    | simple => exact hrun safe_simple (knows_not hentry)
    | assignTail | skipLine => cases hapt
    | block => exact hrun safe_block (knows_not hentry)
    | suite => exact hrun safe_suite (knows_not hentry)
    | cond =>
      obtain ⟨t, ts, hts, ht⟩ := hentry
      refine hrun (safe_cond ht) ⟨by simp [hts], fun u hu => ⟨ts, ?_⟩⟩
      rw [hts, Option.some.inj hu]
    | stmt => exact hrun safe_stmt ⟨fun _ => hentry, nofun⟩
    | stmts inBlock => exact hrun (safe_stmts inBlock) ⟨nofun, nofun⟩
    | _ => exact verdict_of_tier_zero rfl hapt hfront hentry

end Sequencer.Program.Parser
