import Sequencer.Proofs.Program.Verdict

/-!
# Unfinished expressions can be finished

Wherever the tokens of a program can run out, a few more of them finish what is being read
(`Steps.Finishes`); that they never run out anywhere else is the condition `Steps.Safe`. Here it is
shown for the rules whose tokens stand in one line.
-/

namespace Sequencer.Program.Parser

open List Rule
open Token (Kind)

namespace Steps

/-! ### Tokens that finish a rule -/

section Finishes

variable {α : Type} {follow : Kind → Bool} {k : Kind} {ks : List Kind}

theorem finishes_done (a : α) : Finishes follow [] (done a) := by
  intro p c v hc _ hp
  obtain rfl := map_eq_nil_iff.mp hc
  exact ⟨a, by rw [← show p.rest = v from hp]; rfl⟩

theorem finishes_look {next : Token → Steps α}
    (h : ∀ t, t.kind = k → Finishes follow (k :: ks) (next t)) :
    Finishes follow (k :: ks) (look next) := by
  intro p c v hc hv hp
  obtain ⟨t, ts, rfl, ht, -⟩ := map_eq_cons_iff.mp hc
  rw [run, cur_of_rest hp]
  exact h t ht p _ v hc hv hp

theorem finishes_look_nil {next : Token → Steps α}
    (h : ∀ t, follow t.kind = true → Finishes follow [] (next t)) :
    Finishes follow [] (look next) := by
  intro p c v hc hv hp
  obtain rfl := map_eq_nil_iff.mp hc
  refine h p.cur ?_ p [] v rfl hv hp
  rwa [← show p.rest = v from hp] at hv

variable {next : Steps α} {r : Rule}

theorem finishes_advance (h : Finishes follow ks next) :
    Finishes follow (k :: ks) (advance next) := by
  intro p c v hc hv hp
  obtain ⟨t, ts, rfl, -, hts⟩ := map_eq_cons_iff.mp hc
  exact h p.advance ts v hts hv (rest_advance_of_rest hp)

theorem Fills.mono {follow' : Kind → Bool} {s : Steps α} (h : Finishes follow ks s)
    (hmeets : ∀ k, follow' k = true → follow k = true) : Finishes follow' ks s :=
  fun p c v hc hv hp => h p c v hc (hmeets _ hv) hp

theorem finishes_call_last {next : r.Result → Steps α} (hr : Finishes follow ks (ofRule r))
    (hnext : ∀ a, Finishes follow [] (next a)) : Finishes follow ks (call r next) := by
  have := hr.call [] (fun _ => id) hnext
  rwa [append_nil] at this

theorem finishes_call_done {g : r.Result → α} (hr : Finishes follow ks (ofRule r)) :
    Finishes follow ks (call r fun a => done (g a)) :=
  finishes_call_last hr fun _ => finishes_done _

theorem finishes_token {next other : Token → Steps α} (h : ∀ t, Finishes follow ks (next t)) :
    Finishes follow (k :: ks)
      (look fun t => if t.kind = k then advance (next t) else other t) := by
  refine finishes_look fun t ht => ?_
  rw [if_pos ht]
  exact finishes_advance (h t)

theorem finishes_expect (h : Finishes follow ks next) : Finishes follow (k :: ks) (expect k next) :=
  finishes_token fun _ => h

theorem finishes_endLine (h : Finishes follow ks next) :
    Finishes follow (.newline :: ks) (endLine next) :=
  finishes_token fun _ => h

/-- A rule that goes on with some tokens only, and not with those that may follow. -/
theorem finishes_unless {c : Token → Prop} [DecidablePred c] {more : Token → Steps α}
    {a : Token → α} (h : ∀ t, follow t.kind = true → ¬ c t) :
    Finishes follow [] (look fun t => if c t then more t else done (a t)) := by
  refine finishes_look_nil fun t ht => ?_
  rw [if_neg (h t ht)]
  exact finishes_done _

/-- A rule that stops at some tokens, among which are those that may follow. -/
theorem finishes_where {c : Token → Prop} [DecidablePred c] {more : Token → Steps α}
    {a : Token → α} (h : ∀ t, follow t.kind = true → c t) :
    Finishes follow [] (look fun t => if c t then done (a t) else more t) := by
  refine finishes_look_nil fun t ht => ?_
  rw [if_pos (h t ht)]
  exact finishes_done _

end Finishes

theorem finishes_primary : Finishes endsExpr [.ident] (ofRule .primary) := by
  refine finishes_look fun t ht => ?_
  simp only [primary, ht]
  exact finishes_advance (finishes_done _)

theorem finishes_postfixTail (e : Expr) : Finishes endsExpr [] (ofRule (.postfixTail e)) := by
  refine finishes_look_nil fun t ht => ?_
  unfold postfixTail
  split
  case h_3 => exact finishes_done e
  all_goals simp_all [endsExpr]

theorem finishes_postfixExpr : Finishes endsExpr [.ident] (ofRule .postfixExpr) :=
  finishes_call_last finishes_primary fun e =>
    finishes_call_done (finishes_postfixTail e)

theorem finishes_unary : Finishes endsExpr [.ident] (ofRule .unary) := by
  refine finishes_look fun t ht => ?_
  rw [unary, ht]
  exact finishes_call_done finishes_postfixExpr

theorem finishes_binaryTail (level : Nat) (left : Expr) :
    Finishes endsExpr [] (ofRule (.binaryTail level left)) := by
  refine finishes_look_nil fun t ht => ?_
  have hnone : binaryOp? (level + 1) t.kind = none := by
    unfold binaryOp?
    split <;> simp_all [endsExpr]
  rw [binaryTail, hnone]
  exact finishes_done left

theorem finishes_binary (level : Nat) : Finishes endsExpr [.ident] (ofRule (.binary level)) := by
  induction level with
  | zero => exact finishes_call_done finishes_unary
  | succ level ih =>
    exact finishes_call_last ih fun left =>
      finishes_call_done (finishes_binaryTail level left)

theorem finishes_comparisonTail : Finishes endsExpr [] (ofRule .comparisonTail) := by
  refine finishes_look_nil fun t ht => ?_
  have hnone : compareOp? t.kind = none := by
    unfold compareOp?
    split <;> simp_all [endsExpr]
  rw [comparisonTail, hnone]
  exact finishes_done []

theorem finishes_comparison : Finishes endsExpr [.ident] (ofRule .comparison) :=
  finishes_call_last (finishes_binary 6) fun _ =>
    finishes_call_done finishes_comparisonTail

theorem finishes_logicalTail (level : Nat) :
    Finishes endsExpr [] (ofRule (.logicalTail level)) := by
  refine finishes_unless fun t ht hk => ?_
  rw [hk] at ht
  cases hop : logicalOp level <;> simp [hop, BoolOp.token, endsExpr] at ht

theorem finishes_logical (level : Nat) :
    Finishes endsExpr [.ident] (ofRule (.logical level)) := by
  induction level with
  | zero =>
    refine finishes_look fun t ht => ?_
    rw [if_neg (by simp [ht])]
    exact finishes_call_done finishes_comparison
  | succ level ih =>
    exact finishes_call_last ih fun _ => finishes_look_nil fun _ _ =>
      finishes_call_done (finishes_logicalTail level)

theorem finishes_exprList (closing : Kind) :
    Finishes (Rule.exprList closing).follow [] (ofRule (.exprList closing)) :=
  finishes_where fun t ht => by
    have hclosing : t.kind = closing := by simpa [follow] using ht
    simp [hclosing]

theorem finishes_params : Finishes Rule.params.follow [] (ofRule .params) :=
  finishes_unless fun t ht hk => by simp [hk, follow] at ht

theorem endsExpr_of_newline (k : Kind) (h : Rule.exprOrYield.follow k = true) :
    endsExpr k = true := by
  have hk : k = .newline := by simpa [follow] using h
  rw [hk]
  rfl

theorem finishes_exprOrYield : Finishes Rule.exprOrYield.follow [.ident] (ofRule .exprOrYield) := by
  refine finishes_look fun t ht => ?_
  rw [exprOrYield, if_neg (by simp [ht])]
  exact (finishes_call_done (finishes_logical 2)).mono endsExpr_of_newline

theorem finishes_simpleBody : Finishes Rule.simpleBody.follow [.kwPass] (ofRule .simpleBody) := by
  refine finishes_look fun t ht => ?_
  simp only [simpleBody, ht]
  exact finishes_advance (finishes_done _)

theorem finishes_simple : Finishes Rule.simple.follow [.kwPass, .newline] (ofRule .simple) :=
  finishes_simpleBody.call [.newline] (fun _ _ => rfl) fun _ => finishes_endLine (finishes_done _)

theorem finishes_block : Finishes Rule.block.follow [.kwPass, .newline] (ofRule .block) := by
  refine finishes_look fun t ht => ?_
  rw [block, if_neg (by simp [ht])]
  exact finishes_call_done finishes_simple

theorem finishes_suite : Finishes Rule.suite.follow [.colon, .kwPass, .newline] (ofRule .suite) :=
  finishes_expect (finishes_call_done finishes_block)

theorem finishes_stmts (inBlock : Bool) :
    Finishes (Rule.stmts inBlock).follow [] (ofRule (.stmts inBlock)) := by
  refine finishes_look_nil fun t ht => ?_
  cases inBlock with
  | true =>
    have hdedent : t.kind = .dedent := by simpa [follow] using ht
    simp only [stmts, hdedent]
    exact finishes_done []
  | false =>
    have hend : t.kind = .endOfInput := by simpa [follow] using ht
    simp only [stmts, hend]
    exact finishes_done []

theorem finishes_stmts_newline (inBlock : Bool) :
    Finishes (Rule.stmts inBlock).follow [.newline] (ofRule (.stmts inBlock)) := by
  refine finishes_look fun t ht => ?_
  have hstep : stmts inBlock t = advance (call (.stmts inBlock) done) := by simp [stmts, ht]
  rw [hstep]
  exact finishes_advance (finishes_call_done (finishes_stmts inBlock))

/-! ### Rules within a line -/

variable {r : Rule} {ks : List Kind} {mid : Bool}

theorem fits_of_isInline (hr : r.isInline = true) (h : ∀ k ∈ ks, isFiller k = true) :
    r.Fits true ks := by
  cases r <;> first | exact ⟨rfl, h⟩ | cases hr

theorem isFiller_of_fits (hr : r.isInline = true) (h : r.Fits mid ks) :
    mid = true ∧ ∀ k ∈ ks, isFiller k = true := by
  cases r <;> first | exact h | cases hr

theorem entry_of_isInline {x : List Token} (hr : r.isInline = true) (h : mid = false → x ≠ []) :
    r.Entry mid x := by
  cases r <;> first | exact h | cases hr

theorem head?_ne_indent (h : ∀ k ∈ ks, isFiller k = true) : ks.head? ≠ some .indent := by
  intro hks
  cases h _ (mem_of_mem_head? hks)

section Safe

variable {more : Bool} {r' : Rule} {cur : Option Token}

theorem Knows.ne_nil {x : List Token} (h : Knows more cur x)
    (hmore : more = true ∨ cur.isSome = true) : x ≠ [] := by
  obtain hmore | hcur := hmore
  · exact h.more hmore
  · obtain ⟨t, rfl⟩ := Option.isSome_iff_exists.mp hcur
    obtain ⟨ts, rfl⟩ := h.cur t rfl
    exact cons_ne_nil t ts

theorem safe_done {a : r.Result} (hplaced : r.Placed a) (hpeeks : r.peeks = false) :
    Safe mid r more cur (done a) :=
  ⟨hplaced, by simp [hpeeks]⟩

variable {next : Token → Steps r.Result} {t : Token} {k : Kind}

theorem safe_look (hends : mid = true → ∃ ks, Ends r true ks (look next))
    (h : ∀ t, t.pos.column ≠ 0 → Safe mid r (!mid) (some t) (next t)) :
    Safe mid r (!mid) none (look next) := by
  refine ⟨fun _ hmid => ?_, fun t ht _ _ => h t ht⟩
  obtain rfl : mid = true := by simpa using hmid
  exact hends rfl

theorem safe_look_more (h : ∀ t, t.pos.column ≠ 0 → Safe mid r true (some t) (next t)) :
    Safe mid r true none (look next) :=
  ⟨fun _ hmore => absurd hmore.symm Bool.false_ne_true, fun t ht _ _ => h t ht⟩

theorem safe_look_some
    (h : t.pos.column ≠ 0 → t.kind ≠ .endOfInput → Safe mid r more (some t) (next t)) :
    Safe mid r more (some t) (look next) := by
  refine ⟨nofun, fun u hu hend heq => ?_⟩
  obtain rfl := heq t rfl
  exact h hu hend

theorem safe_advance {next : Steps r.Result} (ht : t.kind.isInline = true)
    (h : Safe mid r (!mid) none next) : Safe mid r more (some t) (advance next) := by
  refine ⟨t, rfl, fun _ => ht, ?_⟩
  have hline : t.kind ≠ .newline := by
    intro hk
    simp [hk, Kind.isInline] at ht
  simpa [hline] using h

theorem safe_expect_some {next : Steps r.Result} (hk : k.isInline = true)
    (h : Safe mid r (!mid) none next) : Safe mid r (!mid) (some t) (expect k next) := by
  refine safe_look_some fun _ _ => ?_
  split
  · exact safe_advance (‹t.kind = k› ▸ hk) h
  · trivial

theorem safe_expect {next : Steps r.Result} (hk : k.isInline = true)
    (hends : mid = true → ∃ ks, Ends r true ks (expect k next)) (h : Safe mid r (!mid) none next) :
    Safe mid r (!mid) none (expect k next) := by
  refine safe_look hends fun t ht => ?_
  split
  · exact safe_advance (‹t.kind = k› ▸ hk) h
  · trivial

theorem ends_of_isInline {s : Steps r.Result} (hr : r.isInline = true)
    (hks : ∀ k ∈ ks, isFiller k = true) (h : Finishes r.follow ks s) : ∃ ks, Ends r true ks s :=
  ⟨ks, h, fits_of_isInline hr hks, fun h => absurd h (head?_ne_indent hks)⟩

theorem safe_look_inline (hr : r.isInline = true) (ks : List Kind)
    (hks : ∀ k ∈ ks, isFiller k = true) (hfinishes : Finishes r.follow ks (look next))
    (h : ∀ t, t.pos.column ≠ 0 → Safe mid r (!mid) (some t) (next t)) :
    Safe mid r (!mid) none (look next) :=
  safe_look (fun _ => ends_of_isInline hr hks hfinishes) h

section

variable {next : r'.Result → Steps r.Result}

theorem safe_call_inline (hr : r'.isInline = true) (htier : r'.tier ≤ r.tier) (hapt : r'.Apt)
    (hentry : mid = false → more = true ∨ cur.isSome = true)
    (hresumes : ∀ ks, (∀ k ∈ ks, isFiller k = true) → ∃ ks', Resumes r true r' next ks ks')
    (hnext : ∀ a, r'.Placed a → Safe mid r (!mid) none (next a)) :
    Safe mid r more cur (call r' next) := by
  refine .inr ⟨hapt, htier, ?_, ?_, fun a ha => ?_⟩
  · exact fun x hx => entry_of_isInline hr fun hmid => hx.ne_nil (hentry hmid)
  · intro ks hfits
    obtain ⟨rfl, hks⟩ := isFiller_of_fits hr hfits
    exact hresumes ks hks
  · have hpeeks : r'.peeks = false := by
      cases r' <;> first | rfl | cases hr
    simpa [hpeeks, hr] using hnext a ha

/-- Steps that tokens of the kinds `ks` finish, and that are safe where `P` holds. -/
structure Ready (mid : Bool) (r : Rule) (ks : List Kind) (P : Prop) (s : Steps r.Result) :
    Prop where
  finishes : Finishes r.follow ks s
  safe : P → Safe mid r (!mid) none s

theorem safe_call (hr : r.isInline = true) (htier : r'.tier ≤ r.tier) (hapt : r'.Apt)
    (ks : List Kind) (hks : ∀ k ∈ ks, isFiller k = true)
    (hmeets : ∀ k, r.follow k = true → r'.follow (ks.headD k) = true)
    (h : ∀ a, Ready mid r ks (r'.Placed a) (next a)) : Safe mid r (!mid) cur (call r' next) := by
  refine safe_call_inline (isInline_of_tier_le htier hr) htier hapt (fun hmid => .inl (hmid ▸ rfl))
    (fun ks' hks' => ?_) fun a => (h a).safe
  exact ⟨ks, fits_of_isInline hr (forall_mem_append.mpr ⟨hks', hks⟩), hmeets,
    fun _ => head?_ne_indent hks, fun a => (h a).finishes⟩

end

variable {P : Prop}

theorem ready_done {a : r.Result} (hr : r.isInline = true) (h : P → r.Placed a) :
    Ready mid r [] P (done a) := by
  refine ⟨finishes_done a, fun hP => safe_done (h hP) ?_⟩
  cases r <;> first | rfl | cases hr

theorem ready_look (hr : r.isInline = true) (hks : ∀ k ∈ ks, isFiller k = true)
    (hfinishes : Finishes r.follow ks (look next))
    (h : P → ∀ t, Safe mid r (!mid) (some t) (next t)) : Ready mid r ks P (look next) :=
  ⟨hfinishes, fun hP => safe_look_inline hr ks hks hfinishes fun t _ => h hP t⟩

theorem ready_expect {next : Steps r.Result} (hr : r.isInline = true) (hk : k.isInline = true)
    (hks : ∀ k' ∈ k :: ks, isFiller k' = true) (h : Ready mid r ks P next) :
    Ready mid r (k :: ks) P (expect k next) :=
  ⟨finishes_expect h.finishes, fun hP => safe_expect hk
    (fun _ => ends_of_isInline hr hks (finishes_expect h.finishes)) (h.safe hP)⟩

theorem safe_call_done {g : r'.Result → r.Result} (hr : r.isInline = true)
    (htier : r'.tier ≤ r.tier) (hapt : r'.Apt)
    (hmeets : ∀ k, r.follow k = true → r'.follow k = true)
    (hplaced : ∀ a, r'.Placed a → r.Placed (g a)) :
    Safe mid r (!mid) cur (call r' fun a => done (g a)) :=
  safe_call hr htier hapt [] (by simp) hmeets fun a => ready_done hr (hplaced a)

/-- A rule that can be called last. -/
theorem ready_call {tail : Rule} {g : tail.Result → r.Result}
    (hr : r.isInline = true ∧ tail.tier = 0) (hapt : P → tail.Apt)
    (hmeets : ∀ k, r.follow k = true → tail.follow k = true)
    (htail : Finishes tail.follow [] (ofRule tail))
    (hplaced : P → ∀ a, tail.Placed a → r.Placed (g a)) :
    Ready mid r [] P (call tail fun a => done (g a)) :=
  ⟨(finishes_call_done htail).mono hmeets,
    fun hP => safe_call_done hr.1 (by simp [hr]) (hapt hP) hmeets (hplaced hP)⟩

theorem isInline_of_mem_operators (h : k ∈ operators) : k.isInline = true :=
  all_eq_true.mp (by decide : operators.all Kind.isInline = true) k h

/-! Every rule within a line, and what it is called with. -/

theorem safe_primary : Safe mid .primary (!mid) none (ofRule .primary) := by
  refine safe_look_inline rfl _ (by decide) finishes_primary fun t ht => ?_
  unfold primary
  split
  case h_2 hk =>
    refine safe_advance (hk ▸ rfl) ?_
    unfold integer
    split
    · exact safe_done ht rfl
    · trivial
  case h_5 hk =>
    exact safe_advance (hk ▸ rfl) (safe_call rfl (Nat.zero_le _) trivial [.rparen] (by decide)
      (fun _ _ => rfl) fun e => ready_expect rfl rfl (by decide) (ready_done rfl id))
  case h_6 hk =>
    refine safe_advance (hk ▸ rfl) (safe_call rfl (Nat.zero_le _) (.inr rfl) [.rbracket] (by decide)
      (fun _ _ => rfl) fun es => ready_look rfl (by decide) ?_ fun _ u => ?_)
    · exact finishes_look fun _ _ => finishes_expect (finishes_done _)
    · exact safe_expect_some rfl (safe_done ht rfl)
  case h_7 => trivial
  all_goals exact safe_advance (‹t.kind = _› ▸ rfl) (safe_done ht rfl)

theorem safe_postfixTail {e : Expr} (he : e.pos.column ≠ 0) :
    Safe mid (.postfixTail e) (!mid) none (ofRule (.postfixTail e)) := by
  refine safe_look_inline rfl _ (by simp) (finishes_postfixTail e) fun t _ => ?_
  have htail (e' : Expr) : Ready mid (.postfixTail e) [] (e'.pos.column ≠ 0)
      (call (.postfixTail e') done) :=
    ready_call ⟨rfl, rfl⟩ id (fun _ => id) (finishes_postfixTail e') fun _ _ => id
  unfold postfixTail
  split
  case h_1 hk =>
    refine safe_advance (hk ▸ rfl) (safe_look_inline rfl [.ident] (by decide)
      (finishes_token fun _ => (htail _).finishes) fun u _ => ?_)
    split
    · exact safe_advance (‹u.kind = _› ▸ rfl) ((htail (.attr e u.lexeme u.pos)).safe he)
    · trivial
  case h_2 hk =>
    refine safe_advance (hk ▸ rfl) (safe_call rfl (Nat.zero_le _) (.inl rfl) [.rparen] (by decide)
      (fun _ _ => rfl) fun args => ready_look rfl (by decide) ?_ fun _ u => ?_)
    · exact finishes_look fun _ _ => finishes_expect (htail _).finishes
    · exact safe_expect_some rfl ((htail (.call e t.pos args u.pos)).safe he)
  case h_3 => exact safe_done he rfl

theorem safe_postfixExpr : Safe mid .postfixExpr (!mid) none (ofRule .postfixExpr) :=
  safe_call rfl (Nat.zero_le _) trivial [] (by simp) (fun _ => id) fun e =>
    ready_call ⟨rfl, rfl⟩ id (fun _ => id) (finishes_postfixTail e) fun _ _ => id

theorem safe_unary : Safe mid .unary (!mid) none (ofRule .unary) := by
  refine safe_look_inline rfl _ (by decide) finishes_unary fun t ht => ?_
  unfold unary
  split
  · exact safe_advance (isInline_of_mem_operators (mem_operators_of_signOp? ‹_›))
      (safe_call_done rfl (Nat.zero_le _) trivial (fun _ => id) fun _ _ => ht)
  · exact safe_call_done rfl (Nat.zero_le _) trivial (fun _ => id) fun _ => id

theorem safe_binaryTail {level : Nat} {left : Expr} (hleft : left.pos.column ≠ 0) :
    Safe mid (.binaryTail level left) (!mid) none (ofRule (.binaryTail level left)) := by
  refine safe_look_inline rfl _ (by simp) (finishes_binaryTail level left)
    fun t _ => ?_
  unfold binaryTail
  split
  · exact safe_advance (isInline_of_mem_operators (mem_operators_of_binaryOp? ‹_›))
      (safe_call rfl (Nat.zero_le _) trivial [] (by simp) (fun _ => id) fun right =>
        ready_call ⟨rfl, rfl⟩ (fun _ => hleft) (fun _ => id) (finishes_binaryTail level _)
          fun _ _ => id)
  · exact safe_done hleft rfl

theorem safe_binary {level : Nat} :
    Safe mid (.binary level) (!mid) none (ofRule (.binary level)) := by
  cases level with
  | zero => exact safe_call_done rfl (Nat.zero_le _) trivial (fun _ => id) fun _ => id
  | succ level =>
    exact safe_call rfl (Nat.zero_le _) trivial [] (by simp) (fun _ => id) fun left =>
      ready_call ⟨rfl, rfl⟩ id (fun _ => id) (finishes_binaryTail level left) fun _ _ => id

theorem safe_comparisonTail : Safe mid .comparisonTail (!mid) none (ofRule .comparisonTail) := by
  refine safe_look_inline rfl _ (by simp) finishes_comparisonTail fun t _ => ?_
  unfold comparisonTail
  split
  · exact safe_advance (isInline_of_mem_operators (mem_operators_of_compareOp? ‹_›))
      (safe_call rfl (Nat.zero_le _) trivial [] (by simp) (fun _ => id) fun _ => ready_call
        ⟨rfl, rfl⟩ (fun _ => trivial) (fun _ => id) finishes_comparisonTail fun _ _ _ => trivial)
  · exact safe_done trivial rfl

theorem safe_comparison : Safe mid .comparison (!mid) none (ofRule .comparison) := by
  refine safe_call rfl (Nat.zero_le _) trivial [] (by simp) (fun _ => id) fun first =>
    ready_call ⟨rfl, rfl⟩ (fun _ => trivial) (fun _ => id) finishes_comparisonTail
      fun hfirst links _ => ?_
  split
  · exact hfirst
  · exact hfirst

theorem safe_logicalTail {level : Nat} :
    Safe mid (.logicalTail level) (!mid) none (ofRule (.logicalTail level)) := by
  refine safe_look_inline rfl _ (by simp) (finishes_logicalTail level) fun t _ => ?_
  unfold logicalTail
  split
  · have hop : (logicalOp level).token.isInline = true := by cases logicalOp level <;> rfl
    exact safe_advance (‹t.kind = _› ▸ hop) (safe_call rfl (Nat.zero_le _) trivial [] (by simp)
      (fun _ => id) fun _ => ready_call ⟨rfl, rfl⟩ (fun _ => trivial) (fun _ => id)
        (finishes_logicalTail level) fun _ _ _ => trivial)
  · exact safe_done trivial rfl

theorem safe_logical {level : Nat} :
    Safe mid (.logical level) (!mid) none (ofRule (.logical level)) := by
  cases level with
  | zero =>
    refine safe_look_inline rfl _ (by decide) (finishes_logical 0) fun t ht => ?_
    split
    · exact safe_advance (‹t.kind = _› ▸ rfl)
        (safe_call_done rfl (Nat.zero_le _) trivial (fun _ => id) fun _ _ => ht)
    · exact safe_call_done rfl (Nat.zero_le _) trivial (fun _ => id) fun _ => id
  | succ level =>
    refine safe_call rfl (Nat.zero_le _) trivial [] (by simp) (fun _ => id) fun first => ready_look
      rfl (by simp) (finishes_look_nil fun _ _ => finishes_call_done (finishes_logicalTail level))
      fun hfirst t => safe_call_done rfl (Nat.zero_le _) trivial (fun _ => id) fun others _ => ?_
    split
    · exact hfirst
    · exact hfirst

theorem safe_exprList {closing : Kind} (hclosing : closing = .rparen ∨ closing = .rbracket) :
    Safe mid (.exprList closing) (!mid) none (ofRule (.exprList closing)) := by
  refine safe_look_inline rfl _ (by simp) (finishes_exprList closing) fun t _ => ?_
  unfold exprList
  split
  · exact safe_done trivial rfl
  · refine safe_call rfl (Nat.zero_le _) trivial [] (by simp) (fun k hk => ?_) fun e => ready_look
      rfl (by simp) (finishes_unless fun u hu huk => ?_) fun _ u => ?_
    · have hk : k = closing := by simpa [follow] using hk
      obtain rfl | rfl := hclosing <;> rw [hk] <;> rfl
    · obtain rfl | rfl := hclosing <;> simp [huk, follow] at hu
    · split
      · exact safe_advance (‹u.kind = _› ▸ rfl)
          (safe_call_done rfl (Nat.zero_le _) hclosing (fun _ => id) fun _ _ => trivial)
      · exact safe_done trivial rfl

theorem safe_exprOrYield : Safe mid .exprOrYield (!mid) none (ofRule .exprOrYield) := by
  refine safe_look_inline rfl _ (by decide) finishes_exprOrYield fun t ht => ?_
  unfold exprOrYield
  split
  · refine safe_advance (‹t.kind = _› ▸ rfl) (safe_look_inline rfl _ (by simp)
      (finishes_where fun u hu => ?_) fun u _ => ?_)
    · have hu : u.kind = .newline := by simpa [follow] using hu
      simp [hu, Kind.endsLine]
    · split
      · exact safe_done ht rfl
      · exact safe_call_done rfl (Nat.zero_le _) trivial endsExpr_of_newline fun _ _ => ht
  · exact safe_call_done rfl (Nat.zero_le _) trivial endsExpr_of_newline fun _ => id

theorem safe_simpleBody : Safe mid .simpleBody (!mid) none (ofRule .simpleBody) := by
  refine safe_look_inline rfl _ (by decide) finishes_simpleBody fun t ht => ?_
  unfold simpleBody
  split
  case h_1 hk =>
    refine safe_advance (hk ▸ rfl) (safe_look_inline rfl _ (by simp)
      (finishes_where fun u hu => by simpa [follow] using hu) fun u _ => ?_)
    split
    · exact safe_done trivial rfl
    · exact safe_call_done rfl (Nat.zero_le _) trivial endsExpr_of_newline fun _ _ => trivial
  case h_5 => exact safe_call_done rfl (Nat.le_refl 1) trivial (fun _ => id) fun _ => id
  all_goals exact safe_advance (‹t.kind = _› ▸ rfl) (safe_done trivial rfl)

theorem safe_params : Safe mid .params (!mid) none (ofRule .params) := by
  refine safe_look_inline rfl _ (by simp) finishes_params fun t ht => ?_
  unfold params
  split
  · refine safe_advance (‹t.kind = _› ▸ rfl) (safe_look_inline rfl _ (by simp)
      (finishes_unless fun u hu hk => by simp [hk, follow] at hu) fun u _ => ?_)
    split
    · exact safe_advance (‹u.kind = _› ▸ rfl)
        (safe_call_done rfl (Nat.zero_le _) trivial (fun _ => id) fun _ _ => trivial)
    · exact safe_done trivial rfl
  · exact safe_done trivial rfl

end Safe

/-! ### Every rule of expressions -/

theorem safe_of_tier_zero (htier : r.tier = 0) (hapt : r.Apt) :
    Safe mid r (!mid) none (ofRule r) := by
  cases r with
  | primary => exact safe_primary
  | postfixTail e => exact safe_postfixTail hapt
  | postfixExpr => exact safe_postfixExpr
  | unary => exact safe_unary
  | binaryTail level left => exact safe_binaryTail hapt
  | binary level => exact safe_binary
  | comparisonTail => exact safe_comparisonTail
  | comparison => exact safe_comparison
  | logicalTail level => exact safe_logicalTail
  | logical level => exact safe_logical
  | exprList closing => exact safe_exprList hapt
  | exprOrYield => exact safe_exprOrYield
  | params => exact safe_params
  | _ => cases htier

theorem knows_not {x : List Token} (h : mid = false → x ≠ []) : Knows (!mid) none x :=
  ⟨fun hmid => h (by simpa using hmid), nofun⟩

end Steps

open Steps in
/-- **The first tokens of an expression decide what becomes of them.** -/
theorem verdict_of_tier_zero {mid : Bool} {r : Rule} {p : Parser} (htier : r.tier = 0)
    (hapt : r.Apt) (hfront : Front mid p.rest) (hentry : r.Entry mid p.rest) :
    Verdict mid r (ofRule r) p.rest := by
  induction r, p using induct with
  | step r p ih =>
    have hinline : r.isInline = true := by rw [isInline, htier]; rfl
    refine verdict_run (safe_of_tier_zero htier hapt) (prompt_ofRule r) (by simp) hfront
      (knows_not (ne_nil_of_entry hinline hentry)) fun c hc hle => ?_
    exact ih c hc (Nat.le_zero.mp (htier ▸ hle))

end Sequencer.Program.Parser
