import Sequencer.Proofs.Token.Continuation
import Sequencer.Proofs.Token.Likeness

/-!
# Blank lines do not matter

A blank line can be put in wherever a line starts: the lexer passes it and is as before, one line
further down. A line end that is joined with the next line by a backslash starts no line, but within
a comment a backslash does not join anything.
-/

namespace Sequencer

open List Token Cursor Position Lexer Lexed
open Token (bare nul)
open Cursor (place reads_start)

namespace Position

def below (k : Nat) (p : Position) : Position := if p.line < k then p else ⟨p.line + 1, p.column⟩

theorem line_behind (u : List Char) : (behind u).line = u.count '\n' + 1 := by
  have hfold : ∀ p : Position, (u.foldl next p).line = p.line + u.count '\n' := by
    induction u with
    | nil => exact fun _ => rfl
    | cons c u ih =>
      intro p
      rw [foldl_cons, ih, next, count_cons]
      by_cases hc : c = '\n' <;> simp [hc]
      omega
  rw [behind, hfold, Nat.add_comm]

theorem behind_newline {u l : List Char} (hl : '\n' ∉ l) :
    behind (u ++ (l ++ ['\n'])) = ⟨(behind u).line + 1, 1⟩ := by
  have hcount : l.count '\n' = 0 := count_eq_zero.mpr hl
  rw [← append_assoc, behind_concat, next, if_pos rfl, line_behind, line_behind,
    count_append, hcount, Nat.add_zero]

theorem behind_of_lines {u : List Char} (h : Lines u) : behind u = ⟨(behind u).line, 1⟩ := by
  obtain rfl | ⟨v, c, hu⟩ := eq_nil_or_concat u
  · rfl
  · rw [hu, concat_eq_append] at h ⊢
    obtain rfl : c = '\n' := h c getLast?_concat
    rw [behind_concat]
    rfl

end Position

namespace Token

/-! ### Blank lines -/

/-- A line of white space, with a comment or without. -/
inductive BlankLine : List Char → Prop
  | mk (w c : List Char) (space : ∀ x ∈ w, isSpace x = true) (comment : ∀ x ∈ c.head?, x = '#')
      (line : '\n' ∉ c) (nul : nul ∉ c) : BlankLine (w ++ (c ++ ['\n']))

theorem BlankLine.nul_notMem {line : List Char} (h : BlankLine line) : nul ∉ line := by
  obtain ⟨w, c, space, -, -, hc⟩ := h
  simp only [mem_append, mem_singleton, not_or]
  refine ⟨fun hmem => ?_, hc, by decide⟩
  cases space _ hmem

/-- Whole lines, behind which another line starts. -/
structure Boundary (pre : List Char) : Prop where
  lines : Lines pre
  unjoined : ∀ u, pre = u ++ ['\\', '\n'] → inComment u = true

variable {w c post : List Char}

theorem gap_space (hw : ∀ x ∈ w, isSpace x = true) (r : List Char) :
    gap (w ++ r) = w.length + gap r := by
  induction w with
  | nil => exact (Nat.zero_add _).symm
  | cons x w ih =>
    obtain ⟨hx, hw⟩ := forall_mem_cons.mp hw
    rw [cons_append, gap.eq_2 _ _ (by rintro _ rfl; cases hx), if_pos hx, ih hw,
      length_cons]
    omega

theorem gap_comment (hc : ∀ x ∈ c.head?, x = '#') (hline : '\n' ∉ c) (hnul : nul ∉ c) :
    gap (c ++ '\n' :: post) = c.length := by
  cases c with
  | nil => rfl
  | cons x d =>
    obtain rfl := hc x rfl
    have hd : ∀ y ∈ d, (y ≠ '\n' && y ≠ nul) = true := by
      intro y hy
      have hmem := mem_cons_of_mem '#' hy
      simp [show y ≠ '\n' by rintro rfl; exact hline hmem,
        show y ≠ nul by rintro rfl; exact hnul hmem]
    rw [cons_append, gap.eq_2 _ _ (by simp), if_neg (by decide), if_pos rfl,
      takeWhile_append_of_pos hd, takeWhile_cons_of_neg (by simp), append_nil,
      length_cons]

end Token

open Token (BlankLine Boundary Lines)

namespace Lexer

variable {s x : Lexer} {line post pre : List Char}

/-- A lexer that has come to the start of a line, or inside brackets. -/
def Ready (s : Lexer) : Prop :=
  s.lineStart = true ∧ s.depth = 0 ∧ s.last = .newline ∨ s.lineStart = false ∧ 0 < s.depth

theorem Ready.run_eq (h : s.Ready) (hline : BlankLine line) (hrest : s.cursor.rest = line ++ post) :
    s.run = { s with cursor := s.cursor.advanceBy line.length }.run := by
  obtain ⟨w, c, space, comment, hbreak, hnul⟩ := hline
  rw [append_assoc, append_assoc, cons_append, nil_append] at hrest
  have hgap : gap (c ++ '\n' :: post) = c.length := gap_comment comment hbreak hnul
  have hlength : (w ++ (c ++ ['\n'])).length = w.length + (c.length + 1) := by simp
  have hbehind : (s.cursor.advanceBy w.length).rest = c ++ '\n' :: post := by
    rw [rest_advanceBy, hrest, drop_left]
  obtain ⟨hstart, hdepth, hlast⟩ | ⟨hstart, hdepth⟩ := h
  · obtain ⟨y, ys, hy, hkind⟩ : ∃ y ys, c ++ '\n' :: post = y :: ys ∧ (y = '#' ∨ y = '\n') := by
      cases c with
      | nil => exact ⟨_, _, rfl, .inr rfl⟩
      | cons y c => exact ⟨y, _, rfl, .inl (comment y rfl)⟩
    have hindented : s.indented = s.cursor.advanceBy w.length := by
      rw [indented, blanks, hrest, hy, takeWhile_append_of_pos space,
        takeWhile_cons_of_neg (by obtain rfl | rfl := hkind <;> decide), append_nil]
    have hblank : isBlankAt s.indented.rest = true := by
      rw [hindented, hbehind, hy]
      obtain rfl | rfl := hkind <;> rfl
    have hstop : { s with cursor := s.indented, lineStart := false }.stop =
        s.cursor.advanceBy (w.length + c.length) := by
      rw [stop, hindented, hbehind, hgap, advanceBy_add]
    have hrest' : (s.cursor.advanceBy (w.length + c.length)).rest = '\n' :: post := by
      rw [advanceBy_add, rest_advanceBy, hbehind, drop_left]
    have hskip := Stepped.skip (s := { s with cursor := s.indented, lineStart := false }) rfl
      (hstop ▸ hrest') (by simp [hdepth]) hlast
    refine (Stepped.blank hstart hblank).run_eq.trans (hskip.run_eq.trans ?_)
    rw [hstop, hlength, ← Nat.add_assoc, advanceBy_add _ _ 1, hstart]
    rfl
  · have hstop : s.stop = s.cursor.advanceBy (w.length + c.length) := by
      rw [stop, hrest, gap_space space, hgap]
    have hrest' : s.stop.rest = '\n' :: post := by
      rw [hstop, advanceBy_add, rest_advanceBy, hbehind, drop_left]
    rw [(Stepped.inside hstart hrest' hdepth).run_eq, hstop, hlength, ← Nat.add_assoc,
      advanceBy_add _ _ 1]
    rfl

theorem line_lt_of_visits {c : Cursor} {before : List Char} (hreads : c.Reads before)
    (hlines : Lines c.rest) {pos : Position} (hpos : c.Visits pos) :
    pos.line < (behind (before ++ c.rest)).line := by
  obtain ⟨n, hne, rfl⟩ := hpos
  have hmem := (hlines.mono (drop_suffix n _)).newline_mem (c.rest_advanceBy n ▸ hne)
  have hcount := count_pos_iff.mpr hmem
  rw [(hreads.advanceBy n).pos_eq hne, line_behind, line_behind]
  nth_rewrite 2 [← take_append_drop n c.rest]
  simp only [count_append]
  omega

/-- Where the lexer is behind some steps, and where their tokens are if they read whole lines. -/
theorem Scans.exists_passed {ts : List Token} {ds : List Diagnostic} (h : Scans s ts ds x)
    (hnul : nul ∉ s.cursor.rest) {before : List Char} (hreads : s.cursor.Reads before) :
    ∃ u, s.cursor.rest = u ++ x.cursor.rest ∧ x.cursor.Reads (before ++ u) ∧
      inComment u = false ∧ (Lines s.cursor.rest →
        (∀ t ∈ ts, t.pos.line < (behind (before ++ s.cursor.rest)).line) ∧
        ∀ d ∈ ds, d.pos.line < (behind (before ++ s.cursor.rest)).line) := by
  induction h generalizing before with
  | nil s => exact ⟨[], rfl, (append_nil before).symm ▸ hreads, rfl, by simp⟩
  | @cons s s' s'' _ _ _ _ h _ ih =>
    obtain ⟨u, hsplit, hcursor, hclosed⟩ := (h.passes hnul).exists_passed
    have hreads' := hreads.advanceBy u.length
    rw [← hcursor, hsplit, take_left] at hreads'
    obtain ⟨v, hsplit', hreads'', hclosed', hlt⟩ := ih (h.nul_notMem hnul) hreads'
    refine ⟨u ++ v, ?_, ?_, (inComment_append hclosed).trans hclosed', fun hlines => ?_⟩
    · rw [hsplit, hsplit', append_assoc]
    · rwa [← append_assoc]
    · obtain ⟨hts, hds⟩ := hlt (h.lines hlines)
      rw [append_assoc, ← hsplit] at hts hds
      obtain ⟨hvisits, hvisits'⟩ := h.visits
      exact ⟨forall_mem_append.mpr
        ⟨fun t ht => line_lt_of_visits hreads hlines (hvisits t ht), hts⟩, forall_mem_append.mpr
        ⟨fun d hd => line_lt_of_visits hreads hlines (hvisits' d hd), hds⟩⟩

/-- **Behind whole lines the lexer is ready for another**, whatever comes. -/
theorem exists_ready (h : Boundary pre) (hnul : nul ∉ pre) :
    ∃ (ts : List Token) (ds : List Diagnostic) (s : Lexer), s.Ready ∧
      (∀ t ∈ ts, t.pos.line < (behind pre).line) ∧
      (∀ d ∈ ds, d.pos.line < (behind pre).line) ∧
      ∀ post, nul ∉ post → lex (pre ++ post) =
        { s with cursor := ⟨post, place pre post⟩ }.run.cons ts ds := by
  obtain ⟨ts, ds, s, hscans, hends, hsane, hextend⟩ := exists_scans (sane_start h.lines)
  obtain ⟨u, hsplit, -, hclosed, hlt⟩ := hscans.exists_passed hnul (reads_start pre)
  obtain ⟨hts, hds⟩ := hlt h.lines
  have hrest : s.cursor.rest = [] := by
    by_contra hne
    have hpaused : Paused s := by
      refine hends.resolve_right fun ⟨_, cs, hnul'⟩ => hnul ?_
      refine hscans.rest_suffix.subset (mem_of_mem_drop (i := gap s.cursor.rest) ?_)
      rw [← rest_advanceBy, ← stop, hnul']
      exact mem_cons_self
    obtain ⟨v, hv, hclosed'⟩ := joined_of_gap hsane.lines hne (hpaused.gap_eq hsane)
    have hjoined := h.unjoined (u ++ v) (by rw [append_assoc, ← hv]; exact hsplit)
    rw [inComment_append hclosed, hclosed'] at hjoined
    cases hjoined
  refine ⟨ts, ds, s, ?_, hts, hds, fun post hpost => ?_⟩
  · cases hstart : s.lineStart with
    | true =>
      have hlast := hsane.start hstart
      exact .inl ⟨hstart, hsane.depth hlast, hlast⟩
    | false => exact .inr ⟨hstart, hsane.inside hrest hstart⟩
  · obtain ⟨ts', x, hx, hextends, -, hsame⟩ := hextend _ post (extends_start pre post)
    obtain ⟨v, hv, hreads, -⟩ := hx.exists_passed (by simp [start, Cursor.start, hnul, hpost])
      (reads_start (pre ++ post))
    have hrest' : x.cursor.rest = post := by rw [hextends.cursor.rest, hrest, nil_append]
    rw [hrest'] at hv
    obtain rfl : pre = v := append_cancel_right hv
    have hcursor := hreads.eq_mk hrest'
    obtain ⟨_, _, _, _, _⟩ := x
    obtain ⟨-, rfl, rfl, rfl, rfl⟩ := hextends
    obtain rfl := hcursor
    rw [lex, hx.run_eq, hsame hnul]
    rfl

/-! ### The lines below -/

/-- A cursor in the same text, one line further down and not above line `k`. -/
def Lowered (k : Nat) (c d : Cursor) : Prop :=
  d.rest = c.rest ∧ k ≤ c.pos.line ∧ d.pos = ⟨c.pos.line + 1, c.pos.column⟩

variable {k : Nat} {c d : Cursor}

theorem Lowered.advance (h : Lowered k c d) : Lowered k c.advance d.advance := by
  obtain ⟨rest, pos⟩ := c
  obtain ⟨rest', pos'⟩ := d
  obtain ⟨hrest, hk, hpos⟩ := h
  dsimp only at hrest hk hpos
  subst hrest hpos
  cases rest' with
  | nil => exact ⟨rfl, hk, rfl⟩
  | cons x xs =>
    by_cases hx : x = '\n' <;> cases xs <;>
      simp [Lowered, Cursor.advance, Cursor.after, hx] <;> omega

theorem Lowered.advanceBy (h : Lowered k c d) (n : Nat) :
    Lowered k (c.advanceBy n) (d.advanceBy n) := by
  induction n generalizing c d with
  | zero => exact h
  | succ n ih => exact ih h.advance

theorem Lowered.stop (h : Lowered k s.cursor x.cursor) : Lowered k s.stop x.stop := by
  rw [Lexer.stop, Lexer.stop, h.1]
  exact h.advanceBy _

theorem likeness_lowered (k : Nat) : Likeness (.below k) id (Lowered k) where
  pos h := by rw [below, if_neg (Nat.not_lt.mpr h.2.1), id, h.2.2]
  indented {s x} h := by
    have hblanks : x.blanks = s.blanks := by rw [blanks, h.1, blanks]
    have hindented : Lowered k s.indented x.indented := by
      rw [indented, indented, hblanks]
      exact h.advanceBy _
    exact ⟨hindented, by rw [hblanks], by rw [hindented.1]⟩
  stop h := ⟨h.stop, by rw [h.stop.1]⟩
  advance h _ _ := h.advance
  front h hc hd _ pos := by
    obtain ⟨-, rfl⟩ := cons.inj (hc.symm.trans (h.stop.1.symm.trans hd))
    exact ⟨rfl, h.stop.advanceBy _⟩

end Lexer

/-- A blank line moves down what follows it, and changes nothing else. -/
theorem lex_insert {pre line post : List Char} (hpre : Boundary pre) (hline : BlankLine line)
    (hnul : nul ∉ pre ++ post) :
    lex (pre ++ (line ++ post)) = (lex (pre ++ post)).move (.below (behind pre).line) := by
  obtain ⟨hnul, hnul'⟩ := not_or.mp (mem_append.not.mp hnul)
  obtain ⟨ts, ds, s, hready, hts, hds, hlex⟩ := exists_ready hpre hnul
  have hbelow : behind (pre ++ line) = ⟨(behind pre).line + 1, 1⟩ := by
    obtain ⟨w, c, space, -, hbreak, -⟩ := hline
    rw [← append_assoc w]
    refine behind_newline fun hmem => ?_
    obtain hmem | hmem := mem_append.mp hmem
    · cases space _ hmem
    · exact hbreak hmem
  have hmates : Lexer.Mates (Lowered (behind pre).line)
      { s with cursor := ⟨post, place pre post⟩ }
      { s with cursor := ⟨post, place (pre ++ line) post⟩ } := by
    refine ⟨⟨rfl, ?_, ?_⟩, rfl, rfl, rfl, rfl⟩ <;> simp only [place, hbelow]
    · split <;> exact Nat.le_refl _
    · rw [behind_of_lines hpre.lines]
      split <;> rfl
  have hcursor : (⟨line ++ post, place pre (line ++ post)⟩ : Cursor).advanceBy line.length =
      ⟨post, place (pre ++ line) post⟩ := by
    have hreads : Cursor.Reads pre ⟨line ++ post, place pre (line ++ post)⟩ := rfl
    have hreads := hreads.advanceBy line.length
    rw [take_left] at hreads
    exact hreads.eq_mk (by rw [rest_advanceBy, drop_left])
  have hnul'' : nul ∉ line ++ post := by
    rw [mem_append, not_or]
    exact ⟨hline.nul_notMem, hnul'⟩
  have hpass := Ready.run_eq (s := { s with cursor :=
    ⟨line ++ post, place pre (line ++ post)⟩ }) hready hline rfl
  rw [hlex (line ++ post) hnul'', hlex post hnul', move_cons, hpass, hcursor,
    ← move_id (Lexer.run _), (likeness_lowered _).run_eq hmates]
  congr 1
  · refine (map_id _).symm.trans (map_congr_left fun t ht => ?_)
    rw [Token.move, below, if_pos (hts t ht)]
    rfl
  · refine (map_id _).symm.trans (map_congr_left fun d hd => ?_)
    rw [Diagnostic.move, below, if_pos (hds d hd)]
    rfl

/-- Blank lines are put into a text, one after the other, and what is below them moves. -/
inductive Padded (text : List Char) : List Char → (Position → Position) → Prop
  | refl : Padded text text id
  | insert {pre line post : List Char} {f : Position → Position}
      (h : Padded text (pre ++ post) f) (boundary : Boundary pre) (blank : BlankLine line) :
      Padded text (pre ++ (line ++ post)) (.below (behind pre).line ∘ f)

variable {text text' : List Char} {f : Position → Position}

theorem Padded.lex_eq (h : Padded text text' f) (hnul : nul ∉ text) :
    nul ∉ text' ∧ lex text' = (lex text).move f := by
  induction h with
  | refl => exact ⟨hnul, (move_id _).symm⟩
  | @insert pre line post f _ boundary blank ih =>
    obtain ⟨hnul', hlex⟩ := ih
    refine ⟨?_, ?_⟩
    · simp only [mem_append, not_or] at hnul' ⊢
      exact ⟨hnul'.1, blank.nul_notMem, hnul'.2⟩
    · rw [lex_insert boundary blank hnul', hlex]
      simp only [Lexed.move, map_map]
      rfl

/-- **Blank lines do not matter.** The tokens are the same, and they and the complaints move to
other lines. -/
theorem blank_lines_do_not_matter (hnul : nul ∉ text) (h : Padded text text' f) :
    (lex text').tokens.map bare = (lex text).tokens.map bare ∧
    lex text' = (lex text).move f ∧ ∀ p, (f p).column = p.column ∧ p.line ≤ (f p).line := by
  have hlex := (h.lex_eq hnul).2
  refine ⟨?_, hlex, ?_⟩
  · rw [hlex, Lexed.move, map_map]
    rfl
  · clear hlex
    induction h with
    | refl => exact fun p => ⟨rfl, Nat.le_refl _⟩
    | insert _ _ _ ih =>
      intro p
      obtain ⟨hcolumn, hline⟩ := ih p
      rw [Function.comp, Position.below]
      split
      · exact ⟨hcolumn, hline⟩
      · exact ⟨hcolumn, Nat.le_succ_of_le hline⟩

/-- A comment between the header of a block and the block. -/
theorem comment_in_block :
    (lex "if a:\n\t# c\n  b\n".toList).tokens.map bare =
      (lex "if a:\n  b\n".toList).tokens.map bare := by
  have hheader : Boundary "if a:\n".toList :=
    ⟨fun _ hc => (Option.some.inj hc).symm, fun u hu =>
      absurd ⟨u, hu.symm⟩ (by decide : ¬['\\', '\n'] <:+ "if a:\n".toList)⟩
  have hcomment : BlankLine "\t# c\n".toList := .mk ['\t'] "# c".toList
    (forall_mem_singleton.mpr rfl) (fun _ hx => (Option.some.inj hx).symm) (by decide) (by decide)
  have hpadded : Padded ("if a:\n".toList ++ "  b\n".toList) _ _ :=
    .insert .refl hheader hcomment
  exact (blank_lines_do_not_matter (by decide) hpadded).1

end Sequencer
