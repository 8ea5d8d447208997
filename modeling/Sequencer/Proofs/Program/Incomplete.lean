import Sequencer.Proofs.Program.Completion.Stmt
import Sequencer.Proofs.Program.Names
import Sequencer.Proofs.Token.Ending

/-!
# Which texts are incomplete

A text that ends with a line end breaks off behind tokens that every longer text has as well, and
the verdict on these decides what more text can do. The parser calls a text incomplete if it has a
complaint at the end, whatever is wrong before. It misses no text that can be completed, except for
one whose last line is joined with a next one.
-/

namespace Sequencer.Program.Parser

open List Lexer Steps Rule Token
open Token (Kind nest nestAll nestAll_append nestAll_eq foldl_nest_dedent Lines Spelled)

/-! ### What is left open -/

theorem foldl_nest_filler {line : List Kind} (h : ∀ k ∈ line, isFiller k = true) (n : Nat × Nat) :
    line.foldl nest n = (line.foldl depthAfter n.1, n.2) := by
  induction line generalizing n with
  | nil => rfl
  | cons k ks ih =>
    obtain ⟨hk, hks⟩ := forall_mem_cons.mp h
    have hnest : nest n k = (depthAfter n.1 k, n.2) := by
      cases k <;> first | rfl | cases hk
    rw [foldl_cons, hnest, ih hks]
    rfl

variable {n : Nat} {w : List Token} {text : List Char}

theorem eq_of_add_sub {m : Nat} (h : ∀ b, b + m - n = b) : n = m := by
  have := h n
  omega

/-- Tokens of the kinds `ks` finish a program that begins with the tokens `w`. -/
abbrev Finishable (ks : List Kind) (w : List Token) : Prop :=
  (Steps.ofRule (.stmts false)).Pending (Rule.stmts false).follow ks w

/-- The tokens that finish a text close the brackets and blocks that are open. -/
theorem closes_of_pending {ks : List Kind} {depth blocks : Nat}
    (hnest : ∀ b, nestAll (0, b) w = (depth, b + blocks)) (h : Finishable ks w) (b : Nat) :
    ks.foldl nest (depth, b + blocks) = (0, b) := by
  have hkinds : (ks.map fun k => (⟨k, "", ⟨0, 0⟩⟩ : Token)).map Token.kind = ks := by
    rw [map_map]
    exact map_id ks
  generalize ks.map (fun k => (⟨k, "", ⟨0, 0⟩⟩ : Token)) = c at hkinds
  obtain ⟨a, ha⟩ := h.fills ⟨w ++ (c ++ []), ⟨0, 0⟩, [], false⟩ c [] hkinds rfl rfl
  rw [← read_eq_run] at ha
  obtain ⟨u, hu, hderives⟩ := derives_stmts (congrArg (·.2.complaints) ha)
  rw [ha] at hu
  have hu : w ++ c = u := by simpa using hu
  have hcloses := hderives.nestAll_eq (0, b)
  rwa [← hu, nestAll_append, hnest, nestAll_eq, hkinds] at hcloses

theorem eq_blocks {depth blocks : Nat} (hnest : ∀ b, nestAll (0, b) w = (depth, b + blocks))
    (h : Finishable (replicate n .dedent) w) : n = blocks :=
  eq_of_add_sub fun b => by
    have := closes_of_pending hnest h b
    rw [foldl_nest_dedent] at this
    exact congrArg Prod.snd this

/-! ### Text for the tokens -/

def fillerWord (k : Kind) : String := if k = .ident then "x" else k.spelling

theorem spelled_fillerWord {k : Kind} (h : isFiller k = true) : Spelled k (fillerWord k) := by
  cases k <;> first
    | exact .name (by decide) (by decide)
    | exact .fixed (by decide)
    | cases h

/-! ### Where a text breaks off -/

/-- The lexer at the end of the lines of a text, behind the tokens `w` and the complaints `ds`.
Every longer text has the same tokens in front, but for names, and the same complaints. -/
structure BreaksOff (text : List Char) (w : List Token) (ds : List Diagnostic) (s : Lexer) :
    Prop where
  lines : Lines text
  scans : Lexer.Scans (Lexer.start text) w ds s
  ends : Lexer.Paused s ∨ Lexer.Halted s
  sane : Lexer.Sane s
  extend : ∀ t, ∃ w' x, Lexer.Extends s x t ∧ lex (text ++ t) = x.run.cons w' ds ∧
    w'.map Token.outline = w.map Token.outline

theorem exists_breaksOff (hline : text.getLast? = some '\n') : ∃ w ds s, BreaksOff text w ds s := by
  have hlines : Lines text := fun c hc => Option.some.inj (hc.symm.trans hline)
  obtain ⟨w, ds, s, hscans, hends, hsane, hextend⟩ :=
    exists_scans (sane_start hlines)
  refine ⟨w, ds, s, hlines, hscans, hends, hsane, fun t => ?_⟩
  obtain ⟨w', x, hx, hextends, hw, -⟩ := hextend _ t (extends_start text t)
  exact ⟨w', x, hextends, hx.run_eq, hw⟩

theorem diagnostics_parse (text : List Char) : (parse text).diagnostics =
    (lex text).diagnostics ++ ((Rule.stmts false).read (start (lex text))).2.complaints := rfl

theorem incomplete_parse (text : List Char) : (parse text).incomplete =
    ((Rule.stmts false).read (start (lex text))).2.incomplete := rfl

theorem trailing_finalTokens (s : Lexer) (f : Position) : ∀ t ∈ s.finalTokens f, Trailing f t := by
  intro t ht
  obtain ⟨k, hk, rfl⟩ := mem_finalTokens ht
  exact ⟨(by simpa using hk : k = .newline ∨ k = .dedent).imp_right .inl, rfl⟩

theorem pos_of_pending {s : Lexer} {f : Position} {ks : List Kind}
    (hlex : lex text = ⟨w ++ s.finalTokens f, [], f⟩) (hpending : Finishable ks w) :
    ∀ d ∈ (parse text).diagnostics, d.pos = f := by
  intro d hd
  rw [diagnostics_parse, read_eq_run, hlex] at hd
  exact (hpending.late _ _ (trailing_finalTokens s f) rfl d hd).resolve_left nofun

namespace BreaksOff

variable {ds : List Diagnostic} {s : Lexer}

section

variable (h : BreaksOff text w ds s)

include h

theorem tokens : Lexer.Tokens (Lexer.start text) s w ds :=
  h.scans.tokens h.lines (Cursor.placed_start text)

theorem front : Front (decide (s.last ≠ .newline)) w where
  placed := h.tokens.column
  last t ht := by
    have hlast : s.last = t.kind := by
      rw [h.tokens.last, lastKind, Option.mem_def.mp ht]
      rfl
    simp [hlast]

theorem lex_eq : ∃ f,
    (Paused s ∧ f.column = 0 ∨ Halted s ∧ f.column ≠ 0) ∧
      lex text = ⟨w ++ s.finalTokens f, ds, f⟩ := by
  have hlex : ∀ f, s.run = ⟨s.finalTokens f, [], f⟩ →
      lex text = ⟨w ++ s.finalTokens f, ds, f⟩ := by
    intro f hrun
    rw [lex, h.scans.run_eq, hrun, Lexed.cons, append_nil]
  obtain hpaused | hhalted := h.ends
  · obtain ⟨f, hf, hrun⟩ := hpaused.run_eq h.sane
    exact ⟨f, .inl ⟨hpaused, hf⟩, hlex f hrun⟩
  · exact ⟨s.stop.pos, .inr ⟨hhalted, hhalted.column_ne h.sane⟩,
      hlex _ (hhalted.run_eq h.sane (.refl s))⟩

/-- A longer text is read behind the tokens of the shorter one. -/
theorem clean_iff (t : List Char) : ∃ x, Extends s x t ∧
    ((parse (text ++ t)).diagnostics = [] ↔ ds = [] ∧ x.run.diagnostics = [] ∧
      ((Rule.stmts false).read (start (x.run.cons w ds))).2.complaints = []) := by
  obtain ⟨w', x, hx, hlex, hw⟩ := h.extend t
  have halike : Alike (start (x.run.cons w' ds)) (start (x.run.cons w ds)) := by
    simp only [Alike, start, Lexed.cons, map_append, hw]
  refine ⟨x, hx, ?_⟩
  rw [diagnostics_parse, hlex, append_eq_nil_iff, Lexed.cons, append_eq_nil_iff, and_assoc]
  exact and_congr_right' (and_congr_right' (complaints_read_eq_iff trivial halike))

theorem doomed_or_pending :
    (ofRule (.stmts false)).Doomed w ∨
      ∃ ks, Filling (decide (s.last ≠ .newline)) ks ∧ Finishable ks w := by
  have hfront := h.front
  obtain ⟨a, u, y, -, -, hpeek, -, hsettles⟩ | hdoomed | ⟨ks, hfits, hpending⟩ :=
    verdict_ofRule (r := .stmts false) (p := ⟨w, ⟨0, 0⟩, [], false⟩) trivial hfront trivial
  · have hrun := hsettles ⟨w, ⟨0, 0⟩, [], false⟩ [] (append_nil w).symm
    have hrest := rest_stmts ⟨w, ⟨0, 0⟩, [], false⟩ fun t ht => (hfront.placed t ht).2
    rw [read_eq_run, hrun, rest_withRest, append_nil] at hrest
    exact absurd hrest (hpeek rfl)
  · exact .inl hdoomed
  · exact .inr ⟨ks, hfits, hpending⟩

/-- Something is wrong with the tokens of a text. -/
def Bad (w : List Token) (ds : List Diagnostic) : Prop :=
  ds ≠ [] ∨ (ofRule (.stmts false)).Doomed w

theorem exists_complaint (hbad : Bad w ds) : ∃ d ∈ (parse text).diagnostics, d.pos.column ≠ 0 := by
  obtain ⟨f, -, hlex⟩ := h.lex_eq
  rw [diagnostics_parse, hlex]
  obtain hds | ⟨d, hcolumn, hdoomed⟩ := hbad
  · obtain ⟨d, ds', rfl⟩ := exists_cons_of_ne_nil hds
    exact ⟨d, mem_append_left _ mem_cons_self, h.tokens.complaints d mem_cons_self⟩
  · refine ⟨d, mem_append_right _ ?_, hcolumn⟩
    rw [read_eq_run]
    exact hdoomed _ (s.finalTokens f) rfl

/-- What is wrong with the tokens of a text is wrong with every longer one. -/
theorem not_completable (hbad : Bad w ds) (t : List Char) :
    (parse (text ++ t)).diagnostics ≠ [] := by
  obtain ⟨x, -, hclean⟩ := h.clean_iff t
  intro hnil
  obtain ⟨hds, -, hcomplaints⟩ := hclean.mp hnil
  obtain hne | ⟨d, -, hdoomed⟩ := hbad
  · exact hne hds
  · have hmem := hdoomed (start (x.run.cons w ds)) x.run.tokens rfl
    rw [← read_eq_run, hcomplaints] at hmem
    cases hmem

/-- Something is wrong with the tokens of a text, or there are tokens that finish them. -/
theorem bad_or_pending :
    Bad w ds ∨ ds = [] ∧ ∃ ks, Filling (decide (s.last ≠ .newline)) ks ∧ Finishable ks w := by
  by_cases hds : ds = []
  · exact h.doomed_or_pending.imp .inr (.intro hds)
  · exact .inl (.inl hds)

end

variable {ks : List Kind}

section

variable (h : BreaksOff text w [] s)

include h

theorem clean_of_delivers (hpending : Finishable ks w) (t : List Char)
    (hdelivers : ∀ x, Extends s x t → x.Delivers ks) : (parse (text ++ t)).diagnostics = [] := by
  obtain ⟨x, hx, hclean⟩ := h.clean_iff t
  obtain ⟨hds, hkinds⟩ := hdelivers x hx
  have hrest : (start (x.run.cons w [])).rest = w ++ (x.run.tokens ++ []) := by
    rw [append_nil]
    rfl
  obtain ⟨a, ha⟩ := hpending.fills _ _ [] hkinds rfl hrest
  refine hclean.mpr ⟨rfl, hds, ?_⟩
  rw [read_eq_run, ha]
  rfl

variable (hpaused : Paused s)

include hpaused

theorem clean_line (hlast : s.last ≠ .newline) {line : List Kind}
    (hline : ∀ k ∈ line, isFiller k = true)
    (hpending : Finishable (line ++ .newline :: replicate n .dedent) w) :
    (parse (text ++ (Lexer.spell (line.map fun k => (k, fillerWord k)) ++ ['\n']))).diagnostics =
      [] := by
  have hcloses : ∀ b,
      (line.foldl depthAfter s.depth, b + s.indents.length - n) = (0, b) := by
    intro b
    have := closes_of_pending h.tokens.nest hpending b
    rw [foldl_append, foldl_nest_filler hline] at this
    exact (foldl_nest_dedent n _).symm.trans this
  have hn : n = s.indents.length := eq_of_add_sub fun b => congrArg Prod.snd (hcloses b)
  have hspelled : ∀ b ∈ line.map fun k => (k, fillerWord k), Spelled b.1 b.2 := by
    intro b hb
    obtain ⟨k, hk, rfl⟩ := mem_map.mp hb
    exact spelled_fillerWord (hline k hk)
  have hdepth : (line.map fun k => (k, fillerWord k)).foldl
      (fun d b => depthAfter d b.1) s.depth = 0 := by
    rw [foldl_map]
    exact congrArg Prod.fst (hcloses 0)
  refine h.clean_of_delivers hpending _ fun x hx => ?_
  have hdelivers := finish_line h.sane hpaused hlast hspelled hdepth hx
  rw [map_map] at hdelivers
  rw [hn]
  exact (map_id line) ▸ hdelivers

theorem clean_blocks (hlast : s.last = .newline) (hpending : Finishable (replicate n .dedent) w) :
    (parse (text ++ ['\n'])).diagnostics = [] := by
  have hn : n = s.indents.length := eq_blocks h.tokens.nest hpending
  refine h.clean_of_delivers hpending _ fun x hx => ?_
  rw [hn]
  exact finish_blocks h.sane hpaused hlast hx

theorem clean_header (hlast : s.last = .newline)
    (hpending : Finishable (.indent :: .kwPass :: .newline :: replicate (n + 1) .dedent) w) :
    (parse (text ++ ('\n' :: (replicate (s.indents.headD 0 + 1) ' ' ++
      "pass\n".toList)))).diagnostics = [] := by
  have hn : n = s.indents.length := eq_of_add_sub fun b => by
    have := (foldl_nest_dedent (n + 1) (s.depth, b + s.indents.length + 1)).symm.trans
      (closes_of_pending h.tokens.nest hpending b)
    have hblocks : b + s.indents.length + 1 - (n + 1) = b := congrArg Prod.snd this
    omega
  refine h.clean_of_delivers hpending _ fun x hx => ?_
  rw [hn]
  exact finish_header h.sane hpaused hlast hx

/-- **A text with nothing wrong before its end can be completed.** -/
theorem exists_completion (hfilling : Filling (decide (s.last ≠ .newline)) ks)
    (hpending : Finishable ks w) : ∃ t, (parse (text ++ t)).diagnostics = [] := by
  by_cases hlast : s.last = .newline
  · rw [decide_eq_false (not_not_intro hlast)] at hfilling
    obtain ⟨n, rfl | rfl⟩ := hfilling
    · exact ⟨_, h.clean_blocks hpaused hlast hpending⟩
    · exact ⟨_, h.clean_header hpaused hlast hpending⟩
  · rw [decide_eq_true hlast] at hfilling
    obtain ⟨line, n, hline, rfl⟩ := hfilling
    exact ⟨_, h.clean_line hpaused hlast hline hpending⟩

end

theorem diagnostics_of_halted (h : BreaksOff text w ds s) (hhalted : Halted s)
    {t : List Char} (ht : (parse (text ++ t)).diagnostics = []) :
    (parse text).diagnostics = [] := by
  obtain ⟨x, hx, hclean⟩ := h.clean_iff t
  obtain ⟨y, hy, hclean'⟩ := h.clean_iff []
  rw [hhalted.run_eq h.sane hx] at hclean
  rw [hhalted.run_eq h.sane hy, append_nil] at hclean'
  exact hclean'.mpr (hclean.mp ht)

/-- A text whose last line is not joined with a next one ends within brackets or behind a line. -/
theorem depth_pos_or_last (h : BreaksOff text w ds s) (hpaused : Paused s)
    (hjoin : ¬['\\', '\n'] <:+ text) : 0 < s.depth ∨ s.last = .newline := by
  cases hstart : s.lineStart with
  | true => exact .inr (h.sane.start hstart)
  | false =>
    have hrest : s.cursor.rest = [] := by
      by_contra hne
      obtain ⟨u, hu, -⟩ := joined_of_gap h.sane.lines hne (hpaused.gap_eq h.sane)
      exact hjoin (IsSuffix.trans ⟨u, hu.symm⟩ h.scans.rest_suffix)
    exact .inl (h.sane.inside hrest hstart)

/-- **A text that lacks something is incomplete.** -/
theorem incomplete_of_pending (h : BreaksOff text w [] s) (hpaused : Paused s)
    (hjoin : ¬['\\', '\n'] <:+ text) (hfilling : Filling (decide (s.last ≠ .newline)) ks)
    (hpending : Finishable ks w) (hdiagnostics : (parse text).diagnostics ≠ []) :
    (parse text).incomplete = true := by
  obtain ⟨f, -, hlex⟩ := h.lex_eq
  rw [diagnostics_parse, read_eq_run] at hdiagnostics
  rw [incomplete_parse, read_eq_run]
  rw [hlex] at hdiagnostics ⊢
  by_cases hdepth : s.depth = 0
  · have hlast := (h.depth_pos_or_last hpaused hjoin).resolve_left (by omega)
    have hfinal : s.finalTokens f = s.indents.map fun _ => ⟨.dedent, "", f⟩ := by
      rw [Lexer.finalTokens, if_neg (by omega), if_pos hlast, nil_append]
    rw [decide_eq_false (not_not_intro hlast)] at hfilling
    obtain ⟨n, rfl | rfl⟩ := hfilling
    · -- The end of the text closes the blocks: there is nothing to complain about.
      have hn : n = s.indents.length := eq_blocks h.tokens.nest hpending
      have hkinds : (s.finalTokens f).map Token.kind = replicate n .dedent := by
        rw [hfinal, hn, map_map]
        exact map_const' ..
      have hrest : w ++ s.finalTokens f = w ++ (s.finalTokens f ++ []) := by rw [append_nil]
      obtain ⟨a, ha⟩ := hpending.fills (start ⟨w ++ s.finalTokens f, [], f⟩) _ [] hkinds rfl hrest
      rw [ha] at hdiagnostics
      exact absurd rfl hdiagnostics
    · refine hpending.block rfl _ (s.finalTokens f) ?_ rfl
      rw [hfinal]
      simp
  · have hfinal : s.finalTokens f = [] := by
      rw [Lexer.finalTokens, if_pos (by omega)]
    exact (hpending.cut _ (by rw [hfinal, append_nil]; rfl)).resolve_left hdiagnostics

end BreaksOff

/-! ### Texts that can be completed -/

/-- **A text can be completed exactly if every complaint stands behind its last line.** -/
theorem completable_iff (hline : text.getLast? = some '\n') :
    (∃ more, (parse (text ++ more)).diagnostics = []) ↔
      ∀ d ∈ (parse text).diagnostics, d.pos.column = 0 := by
  obtain ⟨w, ds, s, h⟩ := exists_breaksOff hline
  obtain hbad | ⟨rfl, ks, hfilling, hpending⟩ := h.bad_or_pending
  · obtain ⟨d, hd, hcolumn⟩ := h.exists_complaint hbad
    refine iff_of_false ?_ fun hlate => hcolumn (hlate d hd)
    rintro ⟨more, hmore⟩
    exact h.not_completable hbad more hmore
  · obtain ⟨f, hf, hlex⟩ := h.lex_eq
    have hpos := pos_of_pending hlex hpending
    obtain ⟨hpaused, hf⟩ | ⟨hhalted, hf⟩ := hf
    · exact iff_of_true (h.exists_completion hpaused hfilling hpending)
        fun d hd => hpos d hd ▸ hf
    · constructor
      · rintro ⟨more, hmore⟩ d hd
        rw [h.diagnostics_of_halted hhalted hmore] at hd
        cases hd
      · intro hlate
        refine ⟨[], ?_⟩
        rw [append_nil, eq_nil_iff_forall_not_mem]
        exact fun d hd => hf (hpos d hd ▸ hlate d hd)

/-- A text with a complaint that can be completed is incomplete, unless its last line is joined with
a next one. -/
theorem incomplete_of_completable (hline : text.getLast? = some '\n')
    (hjoin : ¬['\\', '\n'] <:+ text) (hdiagnostics : (parse text).diagnostics ≠ [])
    (h : ∃ more, (parse (text ++ more)).diagnostics = []) : (parse text).incomplete = true := by
  obtain ⟨more, hmore⟩ := h
  obtain ⟨w, ds, s, h⟩ := exists_breaksOff hline
  obtain hbad | ⟨rfl, ks, hfilling, hpending⟩ := h.bad_or_pending
  · exact absurd hmore (h.not_completable hbad more)
  · obtain hpaused | hhalted := h.ends
    · exact h.incomplete_of_pending hpaused hjoin hfilling hpending hdiagnostics
    · exact absurd (h.diagnostics_of_halted hhalted hmore) hdiagnostics

theorem diagnostics_ne_nil (h : (parse text).incomplete = true) :
    (parse text).diagnostics ≠ [] := by
  intro hnil
  rw [diagnostics_parse, append_eq_nil_iff] at hnil
  have hquiet := (later_read (.stmts false) (start (lex text))).quiet hnil.2
  rw [incomplete_parse, hquiet] at h
  cases h

/-- **What it means to be incomplete.** A text that ends with a line end can be completed exactly if
every complaint stands behind its last line, in column zero. Unless the last line is joined with a
next one, the parser is right about the text exactly if it does not call it incomplete with a
complaint further up. -/
theorem incomplete_exact_iff {text : List Char} (hline : text.getLast? = some '\n') :
    ((∃ more, (parse (text ++ more)).diagnostics = []) ↔
      ∀ d ∈ (parse text).diagnostics, d.pos.column = 0) ∧
    (¬['\\', '\n'] <:+ text → (((parse text).incomplete = true ↔
          (parse text).diagnostics ≠ [] ∧ ∃ more, (parse (text ++ more)).diagnostics = []) ↔
        ((parse text).incomplete = true → ∀ d ∈ (parse text).diagnostics, d.pos.column = 0))) := by
  have hcompletable := completable_iff hline
  refine ⟨hcompletable, fun hjoin => ⟨fun h hincomplete => ?_, fun h => ⟨?_, ?_⟩⟩⟩
  · exact hcompletable.mp (h.mp hincomplete).2
  · exact fun hincomplete => ⟨diagnostics_ne_nil hincomplete, hcompletable.mpr (h hincomplete)⟩
  · rintro ⟨hdiagnostics, hmore⟩
    exact incomplete_of_completable hline hjoin hdiagnostics hmore

/-- The parser is right about a function whose body breaks off in the arguments of a call. -/
theorem unclosed_incomplete :
    "def f():\n  g(1,\n".toList.getLast? = some '\n' ∧
    ¬['\\', '\n'] <:+ "def f():\n  g(1,\n".toList ∧
    (parse "def f():\n  g(1,\n".toList).incomplete = true ∧
    ((parse "def f():\n  g(1,\n".toList).incomplete = true ↔
      (parse "def f():\n  g(1,\n".toList).diagnostics ≠ [] ∧
        ∃ more, (parse ("def f():\n  g(1,\n".toList ++ more)).diagnostics = []) := by
  have hjoin : ¬['\\', '\n'] <:+ "def f():\n  g(1,\n".toList := by decide
  refine ⟨rfl, hjoin, by decide +kernel, ((incomplete_exact_iff rfl).2 hjoin).mpr fun _ => ?_⟩
  decide +kernel

/-- The parser is wrong both ways. It calls a text incomplete that ends within brackets, although
there is an error further up that no text completes; and it does not call a text incomplete that
ends where a line is joined with a next one, although the next line completes it. -/
theorem incomplete_misleads :
    ((parse "x y\nf(\n".toList).incomplete = true ∧
      ∀ more, (parse ("x y\nf(\n".toList ++ more)).diagnostics ≠ []) ∧
    ((parse "x = \\\n".toList).incomplete = false ∧
      (parse "x = \\\n".toList).diagnostics ≠ [] ∧
      ∃ more, (parse ("x = \\\n".toList ++ more)).diagnostics = []) := by
  refine ⟨⟨by decide +kernel, fun more hmore => ?_⟩, by decide +kernel, by decide +kernel,
    (completable_iff rfl).mpr (by decide +kernel)⟩
  exact absurd ((completable_iff rfl).mp ⟨more, hmore⟩) (by decide +kernel)

end Sequencer.Program.Parser
