import Sequencer.Proofs.Token.Scanning

/-!
# Laid out lines

A **layout** is a line of tokens with a block of layouts below it. The lexer leads from its text to
its tokens. It closes a block only when it sees the next line; in the proof the block is closed at
its end already (`emits_dedent`).
-/

namespace Sequencer.Token

open List Lexer Cursor

/-! ### Pieces -/

/-- A token on a line, and whether it wants a blank before and after it. -/
structure Piece where
  kind : Kind
  lexeme : String
  before : Bool
  after : Bool
deriving DecidableEq, Repr

def Piece.bare (p : Piece) : Bare := (p.kind, p.lexeme)

/-- A spelled token that has a blank on each side, or needs none. -/
structure Piece.Sound (p : Piece) : Prop where
  spelled : Spelled p.kind p.lexeme
  before : p.before = false → p.kind.isClosing = true
  after : p.after = false → p.kind.isOpening = true

def spaced : List Piece → List Char
  | [] => []
  | [p] => p.lexeme.toList
  | p :: q :: ps =>
    p.lexeme.toList ++ ((if p.after && q.before then [' '] else []) ++ spaced (q :: ps))

/-- The number of brackets open after a line. -/
def depthOf (depth : Nat) (ps : List Piece) : Nat :=
  ps.foldl (fun d p => depthAfter d p.kind) depth

/-! ### Layouts -/

/-- A line and the block below it. -/
inductive Layout where
  | line (pieces : List Piece) (block : List Layout)

mutual

def Layout.text (level : Nat) : Layout → List Char
  | .line ps block =>
    replicate (4 * level) ' ' ++ (spaced ps ++ '\n' :: textAll (level + 1) block)

def textAll (level : Nat) : List Layout → List Char
  | [] => []
  | l :: ls => l.text level ++ textAll level ls

end

mutual

def Layout.tokens : Layout → List Bare
  | .line ps block =>
    ps.map Piece.bare ++ (.newline, "\n") ::
      if block.isEmpty then [] else (.indent, "") :: (tokensAll block ++ [(.dedent, "")])

def tokensAll : List Layout → List Bare
  | [] => []
  | l :: ls => l.tokens ++ tokensAll ls

end

theorem tokensAll_append (ls ls' : List Layout) :
    tokensAll (ls ++ ls') = tokensAll ls ++ tokensAll ls' := by
  induction ls with
  | nil => rfl
  | cons l ls ih => rw [cons_append, tokensAll, tokensAll, ih, append_assoc]

theorem tokensAll_line (ps : List Piece) :
    tokensAll [.line ps []] = ps.map Piece.bare ++ [(.newline, "\n")] :=
  append_nil _

/-- A layout of sound pieces, in which no line is empty or leaves a bracket open. -/
inductive Layout.Sound : Layout → Prop
  | line {ps : List Piece} {block : List Layout} (nonempty : ps ≠ []) (pieces : ∀ p ∈ ps, p.Sound)
      (balanced : depthOf 0 ps = 0) (hblock : ∀ l ∈ block, l.Sound) : Sound (.line ps block)

/-! ### Steps of the lexer -/

/-- A lexer reads some tokens without a complaint, and goes on like another. -/
def Emits (s : Lexer) (bs : List Bare) (s' : Lexer) : Prop :=
  s.run.tokens.map bare = bs ++ s'.run.tokens.map bare ∧ s.run.diagnostics = s'.run.diagnostics

variable {s s' : Lexer} {c : Char} {cs rest : List Char} {k d : Nat}

theorem Emits.trans {s'' : Lexer} {as bs : List Bare} (h : Emits s as s') (h' : Emits s' bs s'') :
    Emits s (as ++ bs) s'' := by
  refine ⟨?_, h.2.trans h'.2⟩
  rw [h.1, h'.1, append_assoc]

theorem emits_of_stepped {ts : List Token} (h : Stepped s ts [] s') : Emits s (ts.map bare) s' := by
  rw [Emits, h.run_eq]
  simp [Lexed.cons]

theorem gap_of_isLead (h : isLead c = true) (cs : List Char) : gap (c :: cs) = 0 := by
  obtain ⟨hspace, -, hcomment, -, hjoin⟩ := isLead_iff.mp h
  unfold gap
  split
  · rename_i heq
    exact absurd (cons.inj heq).1 hjoin
  · rename_i heq
    obtain ⟨rfl, rfl⟩ := cons.inj heq
    simp [hspace, hcomment]
  · rfl

theorem emits_piece (hstart : s.lineStart = false) {k : Kind} {w : String} (h : Spelled k w)
    {blank : Bool} (hs : s.cursor.rest = (if blank then [' '] else []) ++ (w.toList ++ rest))
    (hrest : Ends k rest) :
    ∃ cursor : Cursor, cursor.rest = rest ∧ Emits s [(k, w)]
      { s with cursor := cursor, depth := depthAfter s.depth k, last := k } := by
  obtain ⟨c, cs, hw, -⟩ := front_of_spelled h ⟨0, 0⟩ hrest
  have hlead := isLead_of_spelled h hw
  have hgap : gap s.cursor.rest = (if blank then [' '] else []).length := by
    rw [hs, hw]
    cases blank with
    | false => exact gap_of_isLead hlead _
    | true =>
      have : gap (' ' :: (c :: cs ++ rest)) = gap (c :: cs ++ rest) + 1 := by
        simp [gap, isSpace]
      exact this.trans (congrArg (· + 1) (gap_of_isLead hlead _))
  have hstop : s.stop.rest = c :: (cs ++ rest) := by
    rw [stop, rest_advanceBy, hgap, hs, drop_left, hw, cons_append]
  obtain ⟨c', cs', hw', hfront⟩ := front_of_spelled h s.stop.pos hrest
  obtain ⟨rfl, rfl⟩ := cons.inj (hw.symm.trans hw')
  obtain ⟨-, hline, -, hnul, -⟩ := isLead_iff.mp hlead
  have hstep := Lexer.Stepped.token hstart hstop hnul hline hfront
  rw [show complaints ⟨k, w, s.stop.pos⟩ = [] from if_neg (kind_of_spelled h).2] at hstep
  refine ⟨s.stop.advanceBy (cs.length + 1), ?_, emits_of_stepped hstep⟩
  rw [rest_advanceBy, hstop, drop_succ_cons, drop_left]

theorem spaced_cons (p : Piece) (ps : List Piece) :
    ∃ more, spaced (p :: ps) = p.lexeme.toList ++ more := by
  cases ps with
  | nil => exact ⟨[], (append_nil _).symm⟩
  | cons q ps => exact ⟨_, rfl⟩

theorem ends_of_sound {p q : Piece} (hp : p.Sound) (hq : q.Sound) (ps : List Piece)
    (rest : List Char) :
    Ends p.kind ((if p.after && q.before then [' '] else []) ++ (spaced (q :: ps) ++ rest)) := by
  cases hafter : p.after with
  | false => exact .inl (hp.after hafter)
  | true =>
    cases hbefore : q.before with
    | true => exact .inr ⟨' ', _, rfl, rfl⟩
    | false =>
      obtain ⟨c, cs, hw, -⟩ := exists_lead hq.spelled
      obtain ⟨more, hmore⟩ := spaced_cons q ps
      refine .inr ⟨c, cs ++ more ++ rest, by simp [hmore, hw], ?_⟩
      exact isDelimiter_of_spelled hq.spelled (hq.before hbefore) hw

/-- The tokens of a line. -/
theorem emits_line (hstart : s.lineStart = false) {p : Piece} {ps : List Piece}
    (h : ∀ q ∈ p :: ps, q.Sound) {blank : Bool}
    (hs : s.cursor.rest = (if blank then [' '] else []) ++ (spaced (p :: ps) ++ '\n' :: rest)) :
    ∃ (cursor : Cursor) (last : Kind), cursor.rest = '\n' :: rest ∧ last ≠ .newline ∧
      Emits s ((p :: ps).map Piece.bare)
        { s with cursor := cursor, depth := depthOf s.depth (p :: ps), last := last } := by
  induction ps generalizing s p blank with
  | nil =>
    have hp := h p mem_cons_self
    obtain ⟨cursor, hcursor, hemits⟩ := emits_piece hstart hp.spelled hs
      (.inr ⟨'\n', rest, rfl, rfl⟩)
    exact ⟨cursor, p.kind, hcursor, (kind_of_spelled hp.spelled).1, hemits⟩
  | cons q ps ih =>
    obtain ⟨hp, htail⟩ := forall_mem_cons.mp h
    have hends := ends_of_sound hp (htail q mem_cons_self) ps ('\n' :: rest)
    rw [spaced, append_assoc, append_assoc] at hs
    obtain ⟨cursor, hcursor, hemits⟩ := emits_piece hstart hp.spelled hs hends
    obtain ⟨cursor', last, hcursor', hlast, hemits'⟩ := ih
      (s := { s with
        cursor := cursor, depth := depthAfter s.depth p.kind, last := p.kind })
      hstart htail hcursor
    exact ⟨cursor', last, hcursor', hlast, hemits.trans hemits'⟩

theorem emits_newline (hstart : s.lineStart = false) (hdepth : s.depth = 0)
    (hlast : s.last ≠ .newline) (hs : s.cursor.rest = '\n' :: rest) :
    ∃ cursor : Cursor, cursor.rest = rest ∧ Emits s [(.newline, "\n")]
      { s with cursor := cursor, last := .newline, lineStart := true } := by
  have hstop : s.stop = s.cursor := by
    rw [stop, hs]
    rfl
  refine ⟨s.stop.advance, by rw [hstop, rest_advance, hs]; rfl, ?_⟩
  exact emits_of_stepped (.line hstart (hstop ▸ hs) (by simp [hdepth]) hlast)

/-! ### Indentation -/

/-- The indentations of some open blocks, innermost first. -/
def widths : Nat → List Nat
  | 0 => []
  | d + 1 => 4 * (d + 1) :: widths d

theorem headD_widths (d : Nat) : (widths d).headD 0 = 4 * d := by
  cases d <;> rfl

theorem indentTokens_closing (h : k ≤ d) (pos : Position) :
    indentTokens (widths d) (4 * k) pos =
      (replicate (d - k) ⟨.dedent, "", pos⟩, [], widths k) := by
  have hsplit : ∀ n, (widths (k + n)).dropWhile (4 * k < ·) = widths k ∧
      ((widths (k + n)).takeWhile (4 * k < ·)).length = n := by
    intro n
    induction n with
    | zero => cases k <;> simp [widths]
    | succ n ih =>
      have hlt : 4 * k < 4 * (k + n + 1) := by omega
      rw [← Nat.add_assoc, widths]
      simp only [hlt, decide_true, dropWhile_cons_of_pos, takeWhile_cons_of_pos,
        length_cons, ih, and_self]
  obtain ⟨n, rfl⟩ := Nat.exists_eq_add_of_le h
  have hhead : ¬4 * (k + n) < 4 * k := by omega
  obtain ⟨hopen, hclosed⟩ := hsplit n
  simp only [indentTokens, headD_widths, hhead, if_false, hopen, if_true,
    map_const', hclosed, Nat.add_sub_cancel_left]

theorem indentTokens_opening (d : Nat) (pos : Position) :
    indentTokens (widths d) (4 * (d + 1)) pos =
      ([⟨.indent, "", pos⟩], [], widths (d + 1)) := by
  have hlt : 4 * d < 4 * (d + 1) := by omega
  simp only [indentTokens, headD_widths, hlt, if_true, widths]

/-- A lexer at the start of a line, with a number of blocks open. -/
structure AtLine (s : Lexer) (d : Nat) (rest : List Char) : Prop where
  rest : s.cursor.rest = rest
  indents : s.indents = widths d
  depth : s.depth = 0
  last : s.last = .newline
  lineStart : s.lineStart = true

theorem run_last (hstart : s.lineStart = false) (hs : s.cursor.rest = c :: cs)
    (hc : isLead c = true) (last : Kind) : Lexer.run { s with last := last } = s.run := by
  obtain ⟨-, hline, -, hnul, -⟩ := isLead_iff.mp hc
  have hstop : s.stop.rest = c :: cs := by
    rw [stop, hs, gap_of_isLead hc]
    exact hs
  rw [(Lexer.Stepped.token (s := { s with last := last }) hstart hstop hnul hline rfl).run_eq,
    (Lexer.Stepped.token hstart hstop hnul hline rfl).run_eq]
  rfl

theorem indentWidth_replicate (n : Nat) : indentWidth (replicate n ' ') = n := by
  induction n with
  | zero => rfl
  | succ n ih =>
    rw [indentWidth, replicate_succ', foldl_append]
    exact congrArg (· + 1) ih

theorem takeWhile_isSpace_replicate {n : Nat} (hc : isSpace c = false) (cs : List Char) :
    (replicate n ' ' ++ c :: cs).takeWhile isSpace = replicate n ' ' := by
  have hall : ∀ x ∈ replicate n ' ', isSpace x = true := by
    intro x hx
    rw [eq_of_mem_replicate hx]
    rfl
  rw [takeWhile_append_of_pos hall, takeWhile_cons_of_neg (by simp [hc]),
    append_nil]

theorem emits_start (h : AtLine s d (replicate (4 * k) ' ' ++ c :: cs)) (hc : isLead c = true)
    {ts : List Token} (hts : indentTokens (widths d) (4 * k) (s.cursor.advanceBy (4 * k)).pos
      = (ts, [], widths k)) :
    Emits s (ts.map bare)
      { s with cursor := s.cursor.advanceBy (4 * k), indents := widths k, lineStart := false } := by
  obtain ⟨hspace, hline, hcomment, hnul, -⟩ := isLead_iff.mp hc
  have hblanks : s.blanks = replicate (4 * k) ' ' := by
    rw [blanks, h.rest, takeWhile_isSpace_replicate hspace]
  have hindented : s.indented = s.cursor.advanceBy (4 * k) := by
    rw [indented, hblanks, length_replicate]
  have hcursor : (s.cursor.advanceBy (4 * k)).rest = c :: cs := by
    rw [rest_advanceBy, h.rest, drop_left' (length_replicate ..)]
  have hblank : isBlankAt s.indented.rest = false := by
    rw [hindented, hcursor]
    simp [isBlankAt, hline, hcomment, hnul]
  have hemits := emits_of_stepped (.indent h.lineStart hblank
    (by rw [hblanks, indentWidth_replicate, h.indents, hindented, hts]))
  rw [hindented] at hemits
  have hlast := run_last
    (s := { s with cursor := s.cursor.advanceBy (4 * k), indents := widths k, lineStart := false })
    rfl hcursor hc (lastKind s.last ts)
  rwa [Emits, hlast] at hemits

theorem run_end (h : AtLine s d []) :
    s.run.tokens.map bare = replicate d (.dedent, "") ∧ s.run.diagnostics = [] := by
  have hlength : ∀ d, (widths d).length = d := by
    intro d
    induction d with
    | zero => rfl
    | succ d ih => exact congrArg (· + 1) ih
  rw [run_of_rest_nil h.lineStart h.rest]
  simp [finalTokens, h.depth, h.last, h.indents, bare, map_const', hlength]

/-- What can stand behind a block: the end of the text, or a line that is not inside it. -/
def Follows (k : Nat) (rest : List Char) : Prop :=
  rest = [] ∨ ∃ j ≤ k, ∃ c cs, rest = replicate (4 * j) ' ' ++ c :: cs ∧ isLead c = true

theorem Follows.mono {k' : Nat} (h : Follows k rest) (hk : k ≤ k') : Follows k' rest :=
  h.imp_right fun ⟨j, hj, hrest⟩ => ⟨j, Nat.le_trans hj hk, hrest⟩

theorem Emits.cancel {s'' : Lexer} {as bs : List Bare} (h : Emits s (as ++ bs) s'')
    (h' : Emits s' bs s'') : Emits s as s' := by
  refine ⟨?_, h.2.trans h'.2.symm⟩
  rw [h.1, h'.1, append_assoc]

theorem emits_indent (h : AtLine s k (replicate (4 * (k + 1)) ' ' ++ c :: cs))
    (hc : isLead c = true) : Emits s [(.indent, "")] { s with indents := widths (k + 1) } := by
  have hin : AtLine { s with indents := widths (k + 1) } (k + 1)
      (replicate (4 * (k + 1)) ' ' ++ c :: cs) :=
    { h with indents := rfl }
  have hopen := emits_start h hc (indentTokens_opening k _)
  have hopened := emits_start hin hc (indentTokens_closing (Nat.le_refl _) _)
  rw [Nat.sub_self] at hopened
  exact Emits.cancel hopen hopened

theorem emits_dedent (h : AtLine s (k + 1) rest) (hrest : Follows k rest) :
    Emits s [(.dedent, "")] { s with indents := widths k } := by
  have hout : AtLine { s with indents := widths k } k rest := { h with indents := rfl }
  obtain rfl | ⟨j, hj, c, cs, rfl, hc⟩ := hrest
  · obtain ⟨htokens, hquiet⟩ := run_end h
    obtain ⟨htokens', hquiet'⟩ := run_end hout
    refine ⟨?_, hquiet.trans hquiet'.symm⟩
    rw [htokens, htokens']
    rfl
  · -- Both lexers close all blocks down to the level of the line, one of them one more.
    have hfar := emits_start h hc (indentTokens_closing (Nat.le_succ_of_le hj) _)
    have hnear := emits_start hout hc (indentTokens_closing hj _)
    rw [Nat.succ_sub hj, replicate_succ, map_cons] at hfar
    exact Emits.cancel hfar hnear

/-! ### Whole layouts -/

theorem exists_lead_text {l : Layout} (h : l.Sound) (k : Nat) :
    ∃ c cs, l.text k = replicate (4 * k) ' ' ++ c :: cs ∧ isLead c = true := by
  obtain ⟨nonempty, pieces, -, -⟩ := h
  rename_i ps block
  obtain ⟨p, ps, rfl⟩ := exists_cons_of_ne_nil nonempty
  obtain ⟨c, cs, hw, hc⟩ := exists_lead (pieces p mem_cons_self).spelled
  obtain ⟨more, hmore⟩ := spaced_cons p ps
  refine ⟨c, cs ++ (more ++ '\n' :: textAll (k + 1) block), ?_, hc⟩
  rw [Layout.text, hmore, hw, append_assoc, cons_append]

theorem follows_textAll {ls : List Layout} (h : ∀ l ∈ ls, l.Sound) (hrest : Follows k rest) :
    Follows k (textAll k ls ++ rest) := by
  cases ls with
  | nil => exact hrest
  | cons l ls =>
    obtain ⟨c, cs, htext, hc⟩ := exists_lead_text (h l mem_cons_self) k
    refine .inr ⟨k, Nat.le_refl k, c, cs ++ (textAll k ls ++ rest), ?_, hc⟩
    rw [textAll, htext, append_assoc, append_assoc, cons_append]

theorem emits_first {ps : List Piece} (nonempty : ps ≠ []) (pieces : ∀ p ∈ ps, p.Sound)
    (balanced : depthOf 0 ps = 0)
    (h : AtLine s k (replicate (4 * k) ' ' ++ (spaced ps ++ '\n' :: rest))) :
    ∃ s', AtLine s' k rest ∧ Emits s (ps.map Piece.bare ++ [(.newline, "\n")]) s' := by
  obtain ⟨p, ps, rfl⟩ := exists_cons_of_ne_nil nonempty
  obtain ⟨c, cs, hw, hc⟩ := exists_lead (pieces p mem_cons_self).spelled
  obtain ⟨more, hmore⟩ := spaced_cons p ps
  have hline : spaced (p :: ps) ++ '\n' :: rest = c :: (cs ++ (more ++ '\n' :: rest)) := by
    rw [hmore, hw, append_assoc, cons_append]
  have hstart := emits_start (hline ▸ h) hc (indentTokens_closing (Nat.le_refl k) _)
  rw [Nat.sub_self] at hstart
  have hrest : (s.cursor.advanceBy (4 * k)).rest =
      (if false then [' '] else []) ++ (spaced (p :: ps) ++ '\n' :: rest) := by
    rw [rest_advanceBy, h.rest, drop_left' (length_replicate ..)]
    rfl
  obtain ⟨cursor, last, hcursor, hlast, hpieces⟩ := emits_line
    (s := { s with cursor := s.cursor.advanceBy (4 * k), indents := widths k, lineStart := false })
    rfl pieces hrest
  obtain ⟨cursor', hcursor', hend⟩ := emits_newline
    (s := { s with
      cursor := cursor, indents := widths k, depth := depthOf s.depth (p :: ps), last := last,
      lineStart := false })
    rfl (h.depth.symm ▸ balanced) hlast hcursor
  exact ⟨_, ⟨hcursor', rfl, h.depth.symm ▸ balanced, rfl, rfl⟩, hstart.trans (hpieces.trans hend)⟩

mutual

/-- A layout is read: its line, and its block with the tokens around it. -/
theorem emits_layout : ∀ {l : Layout}, l.Sound → ∀ {s : Lexer} {k : Nat} {rest : List Char},
    AtLine s k (l.text k ++ rest) → Follows k rest → ∃ s', AtLine s' k rest ∧ Emits s l.tokens s'
  | .line ps block, .line nonempty pieces balanced hblock, s, k, rest, h, hrest => by
    rw [Layout.text, append_assoc, append_assoc, cons_append] at h
    obtain ⟨s₁, hs₁, hline⟩ := emits_first nonempty pieces balanced h
    cases block with
    | nil => exact ⟨s₁, hs₁, hline⟩
    | cons l ls =>
      obtain ⟨c, cs, htext, hc⟩ := exists_lead_text (hblock l mem_cons_self) (k + 1)
      have hopen := emits_indent
        (by simpa only [textAll, htext, append_assoc, cons_append] using hs₁) hc
      obtain ⟨s₂, hs₂, hinside⟩ := emits_layouts hblock
        (s := { s₁ with indents := widths (k + 1) }) { hs₁ with indents := rfl }
        (hrest.mono (Nat.le_succ k))
      -- The lexer closes the block only at the next line, which `hrest` says is outside.
      have hclose := emits_dedent hs₂ hrest
      refine ⟨{ s₂ with indents := widths k }, { hs₂ with indents := rfl }, ?_⟩
      have := hline.trans (hopen.trans (hinside.trans hclose))
      simpa [Layout.tokens] using this

theorem emits_layouts : ∀ {ls : List Layout}, (∀ l ∈ ls, l.Sound) → ∀ {s : Lexer} {k : Nat}
    {rest : List Char}, AtLine s k (textAll k ls ++ rest) → Follows k rest →
      ∃ s', AtLine s' k rest ∧ Emits s (tokensAll ls) s'
  | [], _, s, k, rest, h, _ => ⟨s, h, rfl, rfl⟩
  | l :: ls, hall, s, k, rest, h, hrest => by
    obtain ⟨hl, hls⟩ := forall_mem_cons.mp hall
    rw [textAll, append_assoc] at h
    obtain ⟨s₁, hs₁, hfirst⟩ := emits_layout hl h (follows_textAll hls hrest)
    obtain ⟨s₂, hs₂, hothers⟩ := emits_layouts hls hs₁ hrest
    exact ⟨s₂, hs₂, hfirst.trans hothers⟩

end

/-- **Laid out lines are read back**, without a complaint. -/
theorem lex_textAll {ls : List Layout} (h : ∀ l ∈ ls, l.Sound) :
    (lex (textAll 0 ls)).tokens.map bare = tokensAll ls ∧
      (lex (textAll 0 ls)).diagnostics = [] := by
  have hstart : AtLine (start (textAll 0 ls)) 0 (textAll 0 ls ++ []) :=
    ⟨(append_nil _).symm, rfl, rfl, rfl, rfl⟩
  obtain ⟨s, hs, htokens, hquiet⟩ := emits_layouts h hstart (.inl rfl)
  obtain ⟨htokens', hquiet'⟩ := run_end hs
  refine ⟨?_, hquiet.trans hquiet'⟩
  rw [lex, htokens, htokens']
  exact append_nil _

end Sequencer.Token
