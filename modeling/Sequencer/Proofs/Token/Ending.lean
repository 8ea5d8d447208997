import Sequencer.Proofs.Token.Continuation
import Sequencer.Proofs.Token.Layout

/-!
# Texts that are finished

A text that breaks off behind a line end has tokens of its own at the end. More text takes their
place: it can spell any tokens in the middle of a line, and behind a line it can close the open
blocks, or open one more.
-/

namespace Sequencer

namespace Lexer

open Token (Kind Bare bare Spelled Emits)

open Token Cursor List

variable {s x : Lexer}

/-! ### The end of a text -/

theorem Paused.run_eq (h : Paused s) (hs : Sane s) :
    ∃ f, f.column = 0 ∧ s.run = ⟨s.finalTokens f, [], f⟩ := by
  cases hstart : s.lineStart with
  | true =>
    have hrest : s.cursor.rest = [] := h.resolve_right (by simp [hstart])
    exact ⟨s.cursor.pos, hs.placed.mpr hrest, run_of_rest_nil hstart hrest⟩
  | false =>
    have hrest : s.stop.rest = [] := by
      obtain hrest | ⟨-, hrest⟩ := h
      · rw [stop_of_rest_nil hrest, hrest]
      · exact hrest
    have hstopped : Stopped s := ⟨hstart, by simp [hrest]⟩
    exact ⟨s.stop.pos, (hs.placed.advanceBy hs.lines _).mpr hrest, hstopped.run_eq⟩

/-- A text that a NUL ends is not read further, whatever follows. -/
theorem Halted.run_eq {t : List Char} (h : Halted s) (hs : Sane s) (hx : Extends s x t) :
    x.run = ⟨s.finalTokens s.stop.pos, [], s.stop.pos⟩ := by
  obtain ⟨hstart, cs, hrest⟩ := h
  obtain ⟨-, hrest', hpos⟩ := hx.stop (.inl hs.lines) hrest
  have hstopped : Stopped x := ⟨hx.lineStart.trans hstart, by simp [hrest']⟩
  rw [hstopped.run_eq, hpos]
  simp only [finalTokens, hx.depth, hx.last, hx.indents]

theorem Halted.column_ne (h : Halted s) (hs : Sane s) : s.stop.pos.column ≠ 0 := by
  obtain ⟨-, cs, hrest⟩ := h
  intro hcolumn
  have hnil := (hs.placed.advanceBy hs.lines _).mp hcolumn
  cases hrest.symm.trans hnil

/-! ### Text that follows -/

/-- A lexer does not depend on what it passes before the next token. -/
theorem run_of_stop_eq {c : Cursor} (hstart : s.lineStart = false)
    (hstop : { s with cursor := c }.stop = s.stop) : s.run = { s with cursor := c }.run := by
  simp only [stop] at hstop
  rw [run, if_neg (by simp [hstart]), run, if_neg (by simp [hstart])]
  dsimp only
  rw [hstop]
  rfl

/-- What is left of the shorter text is passed in the longer one. -/
theorem Extends.exists_run {t : List Char} (h : Extends s x t) (hs : Sane s) (hpaused : Paused s)
    (hstart : s.lineStart = false) :
    ∃ c : Cursor, c.rest = t ∧ x.run = { x with cursor := c }.run := by
  have hgap := hpaused.gap_eq hs
  have hgap' : gap x.cursor.rest = s.cursor.rest.length + gap t := by
    rw [h.cursor.rest]
    obtain ⟨hlt, -⟩ | ⟨-, heq⟩ := gap_append (.inl hs.lines)
    · omega
    · exact heq
  have hrest : (x.cursor.advanceBy s.cursor.rest.length).rest = t := by
    rw [rest_advanceBy, h.cursor.rest, drop_left]
  refine ⟨x.cursor.advanceBy s.cursor.rest.length, hrest, ?_⟩
  refine run_of_stop_eq (h.lineStart.trans hstart) ?_
  simp only [Lexer.stop]
  rw [hrest, hgap', advanceBy_add]

/-- Tokens, each with a blank before it. -/
def spell (bs : List Bare) : List Char := bs.flatMap fun b => ' ' :: b.2.toList

theorem emits_spell {bs : List Bare} (hbs : ∀ b ∈ bs, Spelled b.1 b.2) {rest : List Char}
    (hstart : s.lineStart = false) (hrest : s.cursor.rest = spell bs ++ '\n' :: rest) :
    ∃ (c : Cursor) (last : Kind), c.rest = '\n' :: rest ∧ (s.last ≠ .newline → last ≠ .newline) ∧
      Emits s bs { s with
        cursor := c, depth := bs.foldl (fun d b => depthAfter d b.1) s.depth, last := last } := by
  induction bs generalizing s with
  | nil => exact ⟨s.cursor, s.last, hrest, id, rfl, rfl⟩
  | cons b bs ih =>
    obtain ⟨hb, hbs⟩ := forall_mem_cons.mp hbs
    have hends : Ends b.1 (spell bs ++ '\n' :: rest) := by
      cases bs with
      | nil => exact .inr ⟨'\n', rest, rfl, rfl⟩
      | cons b' bs => exact .inr ⟨' ', _, rfl, rfl⟩
    have hrest' : s.cursor.rest =
        (if true then [' '] else []) ++ (b.2.toList ++ (spell bs ++ '\n' :: rest)) := by
      rw [hrest]
      simp [spell]
    obtain ⟨c, hc, hemits⟩ := emits_piece hstart hb hrest' hends
    obtain ⟨c', last, hc', hlast, hemits'⟩ := ih hbs
      (s := { s with cursor := c, depth := depthAfter s.depth b.1, last := b.1 }) hstart hc
    exact ⟨c', last, hc', fun _ => hlast (kind_of_spelled hb).1, hemits.trans hemits'⟩

/-- The kinds of the tokens of a text without a complaint. -/
def Delivers (s : Lexer) (ks : List Kind) : Prop :=
  s.run.diagnostics = [] ∧ s.run.tokens.map kind = ks

theorem Delivers.of_emits {s' : Lexer} {bs : List Bare} {ks : List Kind} (h : Emits s bs s')
    (h' : Delivers s' ks) : Delivers s (bs.map Prod.fst ++ ks) := by
  have hkind : ∀ ts : List Token, ts.map kind = (ts.map bare).map Prod.fst := by
    intro ts
    rw [map_map]
    rfl
  refine ⟨h.2.trans h'.1, ?_⟩
  rw [hkind, h.1, map_append, ← hkind, h'.2]

theorem delivers_end (hstart : s.lineStart = true) (hrest : s.cursor.rest = [])
    (hdepth : s.depth = 0) (hlast : s.last = .newline) :
    Delivers s (replicate s.indents.length .dedent) := by
  rw [Delivers, run_of_rest_nil hstart hrest]
  refine ⟨rfl, ?_⟩
  simp [finalTokens, hdepth, hlast, map_const']

/-- **In the middle of a line any tokens can follow**, if they close the brackets. -/
theorem finish_line (hs : Sane s) (hpaused : Paused s) (hlast : s.last ≠ .newline)
    {bs : List Bare} (hbs : ∀ b ∈ bs, Spelled b.1 b.2)
    (hdepth : bs.foldl (fun d b => depthAfter d b.1) s.depth = 0)
    (h : Extends s x (spell bs ++ ['\n'])) :
    Delivers x (bs.map Prod.fst ++ .newline :: replicate s.indents.length .dedent) := by
  have hstart : s.lineStart = false := by
    rw [Bool.eq_false_iff]
    exact fun hstart => hlast (hs.start hstart)
  have hstart' : x.lineStart = false := h.lineStart.trans hstart
  have hdepth' : bs.foldl (fun d b => depthAfter d b.1) x.depth = 0 := by rw [h.depth, hdepth]
  obtain ⟨c, hc, hrun⟩ := h.exists_run hs hpaused hstart
  obtain ⟨c', last, hc', hlast', hemits⟩ := emits_spell hbs (s := { x with cursor := c }) hstart' hc
  obtain ⟨c'', hc'', hemits'⟩ := emits_newline (s := { x with
      cursor := c', depth := bs.foldl (fun d b => depthAfter d b.1) x.depth, last := last })
    hstart' hdepth' (hlast' (h.last ▸ hlast)) hc'
  have hend := delivers_end (s := { x with
      cursor := c'', depth := bs.foldl (fun d b => depthAfter d b.1) x.depth, last := .newline,
      lineStart := true }) rfl hc'' hdepth' rfl
  rw [Delivers, hrun, ← h.indents]
  exact (hend.of_emits hemits').of_emits hemits

theorem exists_start (hs : Sane s) (hpaused : Paused s) (hlast : s.last = .newline)
    {more : List Char} (h : Extends s x ('\n' :: more)) :
    ∃ c : Cursor, c.rest = more ∧ x.run = { x with cursor := c, lineStart := true }.run := by
  have hskip : ∀ {y : Lexer}, y.lineStart = false → y.depth = 0 → y.last = .newline →
      y.cursor.rest = '\n' :: more →
      ∃ c : Cursor, c.rest = more ∧ y.run = { y with cursor := c, lineStart := true }.run := by
    intro y hstart hdepth hlast hrest
    have hstop : y.stop = y.cursor := by
      rw [stop, hrest]
      rfl
    refine ⟨y.stop.advance, by rw [rest_advance, hstop, hrest]; rfl, ?_⟩
    exact (Stepped.skip hstart (hstop ▸ hrest) (by omega) hlast).run_eq
  have hdepth : x.depth = 0 := h.depth.trans (hs.depth hlast)
  cases hstart : s.lineStart with
  | true =>
    have hrest : x.cursor.rest = '\n' :: more := by
      rw [h.cursor.rest, hpaused.resolve_right (by simp [hstart]), nil_append]
    have hindented : x.indented = x.cursor := by
      rw [indented, blanks, hrest]
      rfl
    have hblank := Stepped.blank (h.lineStart.trans hstart) (by rw [hindented, hrest]; rfl)
    obtain ⟨c, hc, hrun⟩ := hskip (y := { x with cursor := x.indented, lineStart := false }) rfl
      hdepth (h.last.trans hlast) (by rw [hindented, hrest])
    exact ⟨c, hc, hblank.run_eq.trans hrun⟩
  | false =>
    obtain ⟨c, hc, hrun⟩ := h.exists_run hs hpaused hstart
    obtain ⟨c', hc', hrun'⟩ := hskip (y := { x with cursor := c }) (h.lineStart.trans hstart)
      hdepth (h.last.trans hlast) hc
    exact ⟨c', hc', hrun.trans hrun'⟩

/-- **Behind a line the open blocks can be closed.** -/
theorem finish_blocks (hs : Sane s) (hpaused : Paused s) (hlast : s.last = .newline)
    (h : Extends s x ['\n']) : Delivers x (replicate s.indents.length .dedent) := by
  obtain ⟨c, hc, hrun⟩ := exists_start hs hpaused hlast h
  rw [Delivers, hrun, ← h.indents]
  exact delivers_end rfl hc (h.depth.trans (hs.depth hlast)) (h.last.trans hlast)

/-- A line that is indented more than the innermost block opens one. -/
theorem delivers_block (hstart : s.lineStart = true) (hdepth : s.depth = 0) {n : Nat}
    (hn : s.indents.headD 0 < n) (hrest : s.cursor.rest = replicate n ' ' ++ "pass\n".toList) :
    Delivers s (.indent :: .kwPass :: .newline :: replicate (s.indents.length + 1) .dedent) := by
  have hblanks : s.blanks = replicate n ' ' := by
    rw [blanks, hrest]
    exact takeWhile_isSpace_replicate (by decide) _
  have hindented : s.indented.rest = "pass\n".toList := by
    rw [indented, rest_advanceBy, hblanks, hrest, drop_left]
  have hindent : indentTokens s.indents (indentWidth s.blanks) s.indented.pos =
      ([⟨.indent, "", s.indented.pos⟩], [], n :: s.indents) := by
    rw [hblanks, indentWidth_replicate, indentTokens, if_pos hn]
  have hstep := Stepped.indent hstart (by rw [hindented]; rfl) hindent
  have hspelled : Spelled .kwPass "pass" := .fixed (by decide)
  have hpass : s.indented.rest = (if false then [' '] else []) ++ ("pass".toList ++ ['\n']) :=
    hindented
  obtain ⟨c, hc, hemits⟩ := emits_piece (s := { s with
      cursor := s.indented, indents := n :: s.indents, lineStart := false, last := .indent }) rfl
    hspelled hpass (.inr ⟨'\n', [], rfl, rfl⟩)
  obtain ⟨c', hc', hnewline⟩ := emits_newline (s := { s with
      cursor := c, indents := n :: s.indents, lineStart := false, last := .kwPass }) rfl hdepth
    (show Token.Kind.kwPass ≠ .newline by decide) hc
  have hend := delivers_end (s := { s with
      cursor := c', indents := n :: s.indents, last := .newline, lineStart := true }) rfl hc'
    hdepth rfl
  exact ((hend.of_emits hnewline).of_emits hemits).of_emits (emits_of_stepped hstep)

/-- **Behind a line a block can be opened.** -/
theorem finish_header (hs : Sane s) (hpaused : Paused s) (hlast : s.last = .newline)
    (h : Extends s x ('\n' :: (replicate (s.indents.headD 0 + 1) ' ' ++ "pass\n".toList))) :
    Delivers x (.indent :: .kwPass :: .newline :: replicate (s.indents.length + 1) .dedent) := by
  obtain ⟨c, hc, hrun⟩ := exists_start hs hpaused hlast h
  rw [← h.indents] at hc ⊢
  rw [Delivers, hrun]
  exact delivers_block rfl
    (h.depth.trans (hs.depth hlast)) (Nat.lt_succ_self _) hc

end Lexer

end Sequencer
