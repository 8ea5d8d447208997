import Sequencer.Proofs.Token.Passing

/-!
# Texts that go on

A text that ends with a line end is read in the same way whatever follows it, since no token crosses
a line end. A word or number right before a NUL takes the rest of the text along, so its spelling
changes with what follows; its outline does not (`Token.outline`).
-/

namespace Sequencer

open List Lexer Token Text.Numeral Cursor

namespace Token

/-! ### Brackets and blocks -/

/-- The brackets and blocks open after a token. -/
def nest (n : Nat × Nat) : Kind → Nat × Nat
  | .lparen | .lbracket => (n.1 + 1, n.2)
  | .rparen | .rbracket => (n.1 - 1, n.2)
  | .indent => (n.1, n.2 + 1)
  | .dedent => (n.1, n.2 - 1)
  | _ => n

def nestAll (n : Nat × Nat) (ts : List Token) : Nat × Nat := ts.foldl (fun n t => nest n t.kind) n

theorem nestAll_append (n : Nat × Nat) (ts us : List Token) :
    nestAll n (ts ++ us) = nestAll (nestAll n ts) us :=
  foldl_append

theorem nest_of_isInline {k : Kind} (h : k.isInline = true) (n : Nat × Nat) :
    nest n k = (depthAfter n.1 k, n.2) := by
  cases k <;> first | rfl | cases h

theorem nestAll_eq (n : Nat × Nat) (ts : List Token) : nestAll n ts = (ts.map kind).foldl nest n :=
  foldl_map.symm

theorem foldl_nest_dedent (m : Nat) (n : Nat × Nat) :
    (List.replicate m Kind.dedent).foldl nest n = (n.1, n.2 - m) := by
  induction m generalizing n with
  | zero => rfl
  | succ m ih =>
    rw [replicate_succ, foldl_cons, ih, nest, Nat.sub_sub, Nat.add_comm]

theorem nestAll_dedent (n : Nat × Nat) (l : List Nat) (pos : Position) :
    nestAll n (l.map fun _ => ⟨.dedent, "", pos⟩) = (n.1, n.2 - l.length) := by
  rw [nestAll_eq, map_map, ← foldl_nest_dedent]
  exact congrArg (foldl nest n) (map_const' ..)

/-- All that matters of a token to whether something is wrong: its kind, and whether a number can be
read. -/
def outline (t : Token) : Kind × Bool :=
  (t.kind, t.kind = .int && (signed t.lexeme.toList).isOk)

theorem kind_of_outline {t u : Token} (h : t.outline = u.outline) : t.kind = u.kind :=
  congrArg Prod.fst h

/-! ### Lines -/

/-- A text that ends with a line. -/
def Lines (x : List Char) : Prop := ∀ c ∈ x.getLast?, c = '\n'

namespace Lines

variable {c : Char} {x y cs : List Char}

theorem mono (h : Lines x) (hy : y <:+ x) : Lines y := by
  intro c hc
  obtain ⟨u, rfl⟩ := hy
  refine h c ?_
  rw [Option.mem_def] at hc ⊢
  rw [getLast?_append, hc, Option.some_or]

theorem tail (h : Lines (c :: cs)) : Lines cs := h.mono (suffix_cons c cs)

theorem ne_nil (h : Lines (c :: cs)) (hc : c ≠ '\n') : cs ≠ [] := by
  rintro rfl
  exact hc (h c rfl)

variable (h : Lines x) (hne : x ≠ [])

include h hne

theorem newline_mem : '\n' ∈ x := by
  have hlast := getLast?_eq_some_getLast hne
  rw [← h _ hlast]
  exact getLast_mem hne

theorem length_takeWhile_lt {p : Char → Bool} (hp : p '\n' = false) :
    (x.takeWhile p).length < x.length := by
  refine Nat.lt_of_le_of_ne (takeWhile_sublist p).length_le fun hlen => ?_
  have hall := (takeWhile_sublist p).eq_of_length hlen
  have htrue : (x.takeWhile p).all p = true := all_takeWhile
  rw [hall] at htrue
  have := all_eq_true.mp htrue '\n' (h.newline_mem hne)
  rw [hp] at this
  cases this

/-- The first line, or what stands before a NUL in it. -/
theorem exists_line : ∃ l b r, x = l ++ b :: r ∧ nul ∉ l ∧ (b = '\n' ∨ b = nul) := by
  induction x with
  | nil => exact absurd rfl hne
  | cons c cs ih =>
    by_cases hc : c = '\n' ∨ c = nul
    · exact ⟨[], c, cs, rfl, not_mem_nil, hc⟩
    · obtain ⟨hline, hnul⟩ := not_or.mp hc
      obtain ⟨l, b, r, rfl, hl, hb⟩ := ih h.tail (h.ne_nil hline)
      exact ⟨c :: l, b, r, rfl, not_mem_cons_of_ne_of_not_mem (Ne.symm hnul) hl, hb⟩

end Lines

/-- What begins in `x` does not go on in `t`: whole lines come before, or a NUL behind. -/
def Severed (x t : List Char) : Prop := Lines x ∧ x ≠ [] ∨ t.head? = some nul

theorem Severed.takeWhile_append {x t : List Char} (h : Severed x t) {p : Char → Bool}
    (hline : p '\n' = false) (hnul : p nul = false) : (x ++ t).takeWhile p = x.takeWhile p := by
  obtain ⟨h, hne⟩ | h := h
  · rw [List.takeWhile_append, if_neg (Nat.ne_of_lt (h.length_takeWhile_lt hne hline))]
  · refine takeWhile_append_of_head fun y hy => ?_
    rwa [← Option.some.inj (h.symm.trans hy)]

/-! ### Tokens do not cross a line end -/

section Front

variable {c : Char} {cs x t : List Char}

theorem gap_append (h : Lines x ∨ t.head? = some nul) :
    gap x < x.length ∧ gap (x ++ t) = gap x ∨
      gap x = x.length ∧ gap (x ++ t) = x.length + gap t := by
  have hjoin : ∀ {c cs}, Lines (c :: cs) ∨ t.head? = some nul →
      (∀ ds, c = '\\' → cs = '\n' :: ds → False) →
      ∀ ds, c = '\\' → cs ++ t = '\n' :: ds → False := by
    rintro c (_ | ⟨d, cs⟩) h hcs ds rfl heq
    · obtain h | h := h
      · exact h.ne_nil (by decide) rfl
      · rw [show t = _ from heq] at h
        cases h
    · exact hcs cs rfl (by rw [(cons.inj heq).1])
  fun_induction gap x with
  | case1 cs ih =>
    rw [cons_append, cons_append, gap]
    simp only [length_cons]
    have := ih (h.imp_left fun h => h.tail.tail)
    omega
  | case2 c cs hcs hspace ih =>
    rw [cons_append, gap.eq_2 _ _ (hjoin h hcs), if_pos hspace]
    simp only [length_cons]
    have := ih (h.imp_left Lines.tail)
    omega
  | case3 cs hcs hspace =>
    have hsevered : Severed cs t := h.imp_left fun h => ⟨h.tail, h.ne_nil (by decide)⟩
    rw [cons_append, gap.eq_2 _ _ (hjoin h hcs), if_neg hspace, if_pos rfl,
      hsevered.takeWhile_append rfl rfl, length_cons]
    have hle := length_takeWhile_le (fun d => d ≠ '\n' && d ≠ nul) cs
    obtain ⟨h, hne⟩ | h := hsevered
    · have hlt := h.length_takeWhile_lt hne (p := fun d => d ≠ '\n' && d ≠ nul) rfl
      exact .inl ⟨Nat.succ_lt_succ hlt, rfl⟩
    · -- The comment can go on to the NUL, which no gap passes.
      obtain ⟨r, rfl⟩ := head?_eq_some_iff.mp h
      have hgap : gap (nul :: r) = 0 := rfl
      omega
  | case4 c cs hcs hspace hcomment =>
    refine .inl ⟨Nat.succ_pos _, ?_⟩
    rw [cons_append, gap.eq_2 _ _ (hjoin h hcs), if_neg hspace, if_neg hcomment]
  | case5 => exact .inr ⟨rfl, (Nat.zero_add _).symm⟩

/-- The lines in front of the next token are all passed only if the last is joined. -/
theorem joined_of_gap (h : Lines x) (hne : x ≠ []) (hgap : gap x = x.length) :
    ∃ u, x = u ++ ['\\', '\n'] ∧ inComment u = false := by
  fun_induction gap x with
  | case1 cs ih =>
    by_cases hcs : cs = []
    · subst hcs
      exact ⟨[], rfl, rfl⟩
    · obtain ⟨u, rfl, hu⟩ := ih h.tail.tail hcs (by simpa using hgap)
      exact ⟨'\\' :: '\n' :: u, rfl, hu⟩
  | case2 c cs hcs hspace ih =>
    have hne := h.ne_nil (by rintro rfl; cases hspace)
    obtain ⟨u, rfl, hu⟩ := ih h.tail hne (by simpa using hgap)
    exact ⟨c :: u, rfl, (inComment_cons (by rintro rfl; cases hspace)).trans hu⟩
  | case3 cs hcs hspace =>
    have hlt := h.tail.length_takeWhile_lt (h.ne_nil (by decide))
      (p := fun d => d ≠ '\n' && d ≠ nul) rfl
    rw [length_cons] at hgap
    omega
  | case4 c cs hcs hspace hcomment => cases hgap
  | case5 => exact absurd rfl hne

/-- What holds a NUL is not a number. -/
theorem signed_of_nul (hc : isDigit c = true) (h : nul ∈ c :: cs) :
    (signed (c :: cs)).isOk = false := by
  cases hsigned : signed (c :: cs) with
  | error => rfl
  | ok v =>
    have h : nul ∈ cs := (mem_cons.mp h).resolve_left (by rintro rfl; cases hc)
    obtain ⟨d, ds, hw, -, hds⟩ := isNumber_of_signed
      ⟨c, cs, String.toList_ofList, hc⟩ (by rw [String.toList_ofList, hsigned])
    obtain ⟨-, rfl⟩ := cons.inj (String.toList_ofList.symm.trans hw)
    obtain hds | ⟨-, m, es, rfl, hm, hes⟩ := hds
    · obtain h | h := hds _ h <;> cases h
    · obtain rfl | h := mem_cons.mp h
      · cases hm
      · obtain h | h := hes _ h <;> cases h

/-- The token in front of `c :: cs` does not change when `t` follows, but for what it takes along
behind a NUL. -/
structure Lasts (cs : List Char) (o o' : Token × Nat) : Prop where
  outline : o'.1.outline = o.1.outline
  complaints : o'.1.complaints = o.1.complaints
  size : o'.2 = o.2
  length : o.2 ≤ cs.length

/-- **A token does not cross a line end**, and is the same if there is no NUL before. -/
theorem front_append (h : Lines cs) (hne : cs ≠ []) (hc : c ≠ nul) (pos : Position)
    (t : List Char) : Lasts cs (front pos c cs) (front pos c (cs ++ t)) ∧
      (front pos c cs).2 < cs.length ∧
      (nul ∉ cs → front pos c (cs ++ t) = front pos c cs) := by
  obtain ⟨l, b, r, rfl, hl, hb⟩ := h.exists_line hne
  have hnul : nul ∉ c :: l := not_mem_cons_of_ne_of_not_mem (Ne.symm hc) hl
  have hends : ∀ r, EndsLine (b :: r) := by
    intro r x hx
    obtain rfl := Option.some.inj hx
    obtain rfl | rfl := hb <;> decide
  have hlength : l.length < (l ++ b :: r).length := by simp
  rw [append_assoc, cons_append]
  by_cases hwhole : b = nul ∧ isWhole c l = true
  · obtain ⟨rfl, hwhole⟩ := hwhole
    have hfront := fun r => (hends r).front_append hnul pos
    simp only [head?_cons, hwhole, and_self, if_true] at hfront
    rw [hfront, hfront]
    refine ⟨⟨?_, ?_, rfl, Nat.le_of_lt hlength⟩, hlength, fun hfree => absurd (by simp) hfree⟩ <;>
      by_cases hdigit : isDigit c = true
    · have hsigned : ∀ r, (signed (c :: (l ++ nul :: r))).isOk = false :=
        fun r => signed_of_nul hdigit (by simp)
      simp [outline, hdigit, hsigned]
    all_goals simp [outline, complaints, hdigit]
  · have hfront : ∀ r, front pos c (l ++ b :: r) = front pos c l := fun r => by
      rw [(hends r).front_append hnul, if_neg (by simpa using hwhole)]
    have hlt := Nat.lt_of_le_of_lt (isFront hnul (show front pos c l = _ from rfl)).length hlength
    rw [hfront, hfront]
    exact ⟨⟨rfl, rfl, rfl, Nat.le_of_lt hlt⟩, hlt, fun _ => rfl⟩

end Front

end Token

open Token (Lines Severed)

/-! ### Cursors -/

namespace Cursor

/-- The cursor `c'` is the cursor `c` with more text behind. The position of the end of a text is
not that of what follows. -/
structure Extends (c c' : Cursor) (t : List Char) : Prop where
  rest : c'.rest = c.rest ++ t
  pos : c.rest ≠ [] → c'.pos = c.pos

/-- Column zero is the end of the text. -/
def Placed (c : Cursor) : Prop := c.pos.column = 0 ↔ c.rest = []

/-- A position that a cursor comes to, before the end of the text. -/
def Visits (c : Cursor) (pos : Position) : Prop :=
  ∃ n, (c.advanceBy n).rest ≠ [] ∧ (c.advanceBy n).pos = pos

variable {c c' : Cursor} {t : List Char}

theorem Extends.advance (h : Extends c c' t) (hne : c.rest ≠ []) :
    Extends c.advance c'.advance t := by
  obtain ⟨rest, pos⟩ := c
  obtain ⟨rest', pos'⟩ := c'
  obtain ⟨rfl, hpos⟩ := h
  obtain rfl : pos' = pos := hpos hne
  obtain ⟨x, xs, rfl⟩ := exists_cons_of_ne_nil hne
  refine ⟨rfl, fun hxs => ?_⟩
  obtain ⟨y, ys, rfl⟩ := exists_cons_of_ne_nil (show xs ≠ [] from hxs)
  rfl

theorem Extends.advanceBy (h : Extends c c' t) {n : Nat} (hn : n ≤ c.rest.length) :
    Extends (c.advanceBy n) (c'.advanceBy n) t := by
  induction n generalizing c c' with
  | zero => exact h
  | succ n ih =>
    have hne : c.rest ≠ [] := by
      rintro hnil
      rw [hnil] at hn
      cases hn
    refine ih (h.advance hne) ?_
    rw [rest_advance, length_tail]
    omega

theorem Placed.advance (h : Placed c) (hlines : Lines c.rest) : Placed c.advance := by
  obtain ⟨rest, pos⟩ := c
  match rest, h, hlines with
  | [], h, _ => exact h
  | [x], _, hlines =>
    obtain rfl := hlines x rfl
    exact ⟨fun _ => rfl, fun _ => rfl⟩
  | x :: y :: ys, _, _ => simp [Placed, advance, after]

theorem lines_advanceBy (h : Lines c.rest) (n : Nat) : Lines (c.advanceBy n).rest := by
  rw [rest_advanceBy]
  exact h.mono (drop_suffix n _)

theorem Placed.advanceBy (h : Placed c) (hlines : Lines c.rest) (n : Nat) :
    Placed (c.advanceBy n) := by
  induction n generalizing c with
  | zero => exact h
  | succ n ih => exact ih (h.advance hlines) (lines_advanceBy hlines 1)

theorem Placed.column_ne (h : Placed c) (hlines : Lines c.rest) {pos : Position}
    (hpos : c.Visits pos) : pos.column ≠ 0 := by
  obtain ⟨n, hne, rfl⟩ := hpos
  exact fun hzero => hne ((h.advanceBy hlines n).mp hzero)

theorem placed_start (text : List Char) : Placed (start text) := by
  cases text <;> simp [Placed, start]

end Cursor

/-! ### Lexers -/

namespace Lexer

/-- The lexer `s'` is the lexer `s` with more text behind. -/
structure Extends (s s' : Lexer) (t : List Char) : Prop where
  cursor : s.cursor.Extends s'.cursor t
  indents : s'.indents = s.indents
  depth : s'.depth = s.depth
  last : s'.last = s.last
  lineStart : s'.lineStart = s.lineStart

/-- A lexer has come to the end of the text, or nothing is left of it but joined line ends. -/
def Paused (s : Lexer) : Prop :=
  s.cursor.rest = [] ∨ s.lineStart = false ∧ s.stop.rest = []

/-- A lexer has come to a NUL, which ends the text. -/
def Halted (s : Lexer) : Prop := s.lineStart = false ∧ ∃ cs, s.stop.rest = nul :: cs

/-- Some tokens and complaints are delivered in a number of steps. -/
inductive Scans : Lexer → List Token → List Diagnostic → Lexer → Prop
  | nil (s : Lexer) : Scans s [] [] s
  | cons {s s' s'' : Lexer} {ts ts' : List Token} {ds ds' : List Diagnostic}
      (h : Stepped s ts ds s') (h' : Scans s' ts' ds' s'') : Scans s (ts ++ ts') (ds ++ ds') s''

section

variable {s s' x x' : Lexer} {ts : List Token} {ds : List Diagnostic} {t : List Char}

theorem Extends.refl (s : Lexer) : Extends s s [] :=
  ⟨⟨(append_nil _).symm, fun _ => rfl⟩, rfl, rfl, rfl, rfl⟩

theorem extends_start (text t : List Char) : Extends (start text) (start (text ++ t)) t := by
  refine ⟨⟨rfl, fun hne => ?_⟩, rfl, rfl, rfl, rfl⟩
  obtain ⟨c, cs, rfl⟩ := exists_cons_of_ne_nil (show text ≠ [] from hne)
  rfl

theorem Scans.run_eq (h : Scans s ts ds s') : s.run = s'.run.cons ts ds := by
  induction h with
  | nil s => rfl
  | cons h _ ih =>
    rw [h.run_eq, ih]
    simp [Lexed.cons]

theorem Extends.stop (h : Extends s x t) (hends : Lines s.cursor.rest ∨ t.head? = some nul)
    {c : Char} {cs : List Char} (hrest : s.stop.rest = c :: cs) :
    s.stop.Extends x.stop t ∧ x.stop.rest = c :: (cs ++ t) ∧ x.stop.pos = s.stop.pos := by
  have hne : s.stop.rest ≠ [] := by rw [hrest]; exact cons_ne_nil c cs
  have hlt : gap s.cursor.rest < s.cursor.rest.length := by
    rw [Lexer.stop, rest_advanceBy, Ne, drop_eq_nil_iff] at hne
    omega
  have hgap : gap x.cursor.rest = gap s.cursor.rest := by
    rw [h.cursor.rest]
    obtain ⟨-, heq⟩ | ⟨heq, -⟩ := gap_append hends
    · exact heq
    · omega
  have hstop : s.stop.Extends x.stop t := by
    rw [Lexer.stop, Lexer.stop, hgap]
    exact h.cursor.advanceBy (Nat.le_of_lt hlt)
  exact ⟨hstop, by rw [hstop.rest, hrest, cons_append], hstop.pos hne⟩

theorem indented_ne_nil (hlines : Lines s.cursor.rest) (hne : s.cursor.rest ≠ []) :
    s.indented.rest ≠ [] := by
  have hlt : s.blanks.length < s.cursor.rest.length := hlines.length_takeWhile_lt hne rfl
  rw [indented, rest_advanceBy, Ne, drop_eq_nil_iff]
  omega

theorem Extends.indented (h : Extends s x t) (hsevered : Severed s.cursor.rest t) :
    x.blanks = s.blanks ∧ s.indented.Extends x.indented t ∧
      isBlankAt x.indented.rest = isBlankAt s.indented.rest := by
  have hblanks : x.blanks = s.blanks := by
    rw [blanks, h.cursor.rest, hsevered.takeWhile_append rfl rfl, blanks]
  have hindented : s.indented.Extends x.indented t := by
    rw [Lexer.indented, Lexer.indented, hblanks]
    exact h.cursor.advanceBy (length_takeWhile_le _ _)
  refine ⟨hblanks, hindented, ?_⟩
  rw [hindented.rest]
  cases hrest : s.indented.rest with
  | nil =>
    obtain ⟨hlines, hne⟩ | hnul := hsevered
    · exact absurd hrest (indented_ne_nil hlines hne)
    · obtain ⟨r, rfl⟩ := head?_eq_some_iff.mp hnul
      rfl
  | cons c cs => rfl

/-- **A step of the lexer is the same in the longer text** if the token in front is, but for what a
word or number takes along behind a NUL. -/
theorem Stepped.extend (h : Stepped s ts ds s') (hsevered : Severed s.cursor.rest t)
    (hlasts : s.lineStart = false → ∀ {c cs}, s.stop.rest = c :: cs → c ≠ nul → c ≠ '\n' →
      Lasts cs (front s.stop.pos c cs) (front s.stop.pos c (cs ++ t)))
    (hx : Extends s x t) : ∃ ts' x', Stepped x ts' ds x' ∧ Extends s' x' t ∧
      ts'.map outline = ts.map outline ∧
      ((s.lineStart = false → ∀ {c cs}, s.stop.rest = c :: cs → c ≠ nul → c ≠ '\n' →
        front s.stop.pos c (cs ++ t) = front s.stop.pos c cs) → ts' = ts) := by
  obtain ⟨hblanks, hindented, hblankAt⟩ := hx.indented hsevered
  have hends : Lines s.cursor.rest ∨ t.head? = some nul := hsevered.imp_left And.left
  cases h with
  | blank hstart hblank =>
    exact ⟨[], { x with cursor := x.indented, lineStart := false },
      .blank (hx.lineStart.trans hstart) (hblankAt.trans hblank),
      ⟨hindented, hx.indents, hx.depth, hx.last, rfl⟩, rfl, fun _ => rfl⟩
  | @indent hstart hblank _ _ indents hindent =>
    have hne : s.indented.rest ≠ [] := by
      intro hnil
      rw [hnil] at hblank
      cases hblank
    refine ⟨ts, { x with
        cursor := x.indented, indents := indents, lineStart := false,
        last := lastKind x.last ts },
      .indent (hx.lineStart.trans hstart) (hblankAt.trans hblank) ?_,
      ⟨hindented, rfl, hx.depth, by rw [hx.last], rfl⟩, rfl, fun _ => rfl⟩
    rw [hx.indents, hblanks, hindented.pos hne, hindent]
  | @inside hstart cs hrest hdepth =>
    obtain ⟨hstop, hrest', -⟩ := hx.stop hends hrest
    exact ⟨[], { x with cursor := x.stop.advance },
      .inside (hx.lineStart.trans hstart) hrest' (hx.depth ▸ hdepth),
      ⟨hstop.advance (hrest ▸ cons_ne_nil _ _), hx.indents, hx.depth, hx.last,
        hx.lineStart⟩, rfl, fun _ => rfl⟩
  | @skip hstart cs hrest hdepth hlast =>
    obtain ⟨hstop, hrest', -⟩ := hx.stop hends hrest
    exact ⟨[], { x with cursor := x.stop.advance, lineStart := true },
      .skip (hx.lineStart.trans hstart) hrest' (hx.depth ▸ hdepth) (hx.last.trans hlast),
      ⟨hstop.advance (hrest ▸ cons_ne_nil _ _), hx.indents, hx.depth, hx.last, rfl⟩, rfl,
      fun _ => rfl⟩
  | @line hstart cs hrest hdepth hlast =>
    obtain ⟨hstop, hrest', hpos⟩ := hx.stop hends hrest
    exact ⟨_, _, .line (hx.lineStart.trans hstart) hrest' (hx.depth ▸ hdepth) (hx.last ▸ hlast),
      ⟨hstop.advance (hrest ▸ cons_ne_nil _ _), hx.indents, hx.depth, rfl, rfl⟩, rfl,
      fun _ => by rw [hpos]⟩
  | @token hstart c cs hrest hnul hline u n hfront =>
    obtain ⟨hstop, hrest', hpos⟩ := hx.stop hends hrest
    have hlasts := hlasts hstart hrest hnul hline
    obtain ⟨u', n', hfront'⟩ : ∃ u' n', front s.stop.pos c (cs ++ t) = (u', n') :=
      ⟨_, _, rfl⟩
    rw [hfront, hfront'] at hlasts
    obtain ⟨houtline, hcomplaints, hsize, hle⟩ := hlasts
    dsimp only at houtline hcomplaints hsize hle
    have hstep := Stepped.token (hx.lineStart.trans hstart) hrest' hnul hline (hpos ▸ hfront')
    rw [hcomplaints, hsize, kind_of_outline houtline] at hstep
    refine ⟨_, _, hstep, ⟨hstop.advanceBy ?_, hx.indents, by rw [hx.depth], rfl, hx.lineStart⟩,
      congrArg (fun o => [o]) houtline, fun hsame => ?_⟩
    · rw [hrest, length_cons]
      exact Nat.succ_le_succ hle
    · have hsame := hsame hstart hrest hnul hline
      rw [hfront, hfront'] at hsame
      rw [(Prod.mk.inj hsame).1]

theorem front_stop (hlines : Lines s.cursor.rest) {c : Char} {cs : List Char}
    (hrest : s.stop.rest = c :: cs) (hnul : c ≠ nul) (hline : c ≠ '\n') (t : List Char) :
    Lasts cs (front s.stop.pos c cs) (front s.stop.pos c (cs ++ t)) ∧
      (front s.stop.pos c cs).2 < cs.length ∧ (nul ∉ s.cursor.rest →
        front s.stop.pos c (cs ++ t) = front s.stop.pos c cs) := by
  have hcs : Lines (c :: cs) := hrest ▸ lines_advanceBy hlines _
  obtain ⟨hlasts, hlt, hsame⟩ :=
    front_append hcs.tail (hcs.ne_nil hline) hnul s.stop.pos t
  exact ⟨hlasts, hlt, fun hfree => hsame fun hmem =>
    nul_notMem_stop hfree hrest (mem_cons_of_mem _ hmem)⟩

/-- What holds of a lexer between two steps. -/
structure Sane (s : Lexer) : Prop where
  lines : Lines s.cursor.rest
  placed : s.cursor.Placed
  /-- Behind a line end no bracket is open. -/
  depth : s.last = .newline → s.depth = 0
  start : s.lineStart = true → s.last = .newline
  /-- If the text ends within a line, then inside brackets. -/
  inside : s.cursor.rest = [] → s.lineStart = false → 0 < s.depth

theorem sane_start {text : List Char} (h : Lines text) : Sane (start text) where
  lines := h
  placed := placed_start text
  depth _ := rfl
  start _ := rfl
  inside _ := nofun

theorem Paused.gap_eq (h : Paused s) (hs : Sane s) : gap s.cursor.rest = s.cursor.rest.length := by
  obtain hrest | ⟨-, hrest⟩ := h
  · rw [hrest]
    rfl
  · rw [stop, rest_advanceBy, drop_eq_nil_iff] at hrest
    obtain ⟨hlt, -⟩ | ⟨heq, -⟩ := gap_append (t := []) (.inl hs.lines)
    · omega
    · exact heq

section

variable (h : Stepped s ts ds s')

include h

theorem Stepped.exists_advanceBy : ∃ n, s'.cursor = s.cursor.advanceBy n := by
  cases h with
  | blank | indent => exact ⟨_, rfl⟩
  | inside | skip | line => exact ⟨_, (advanceBy_add _ _ 1).symm⟩
  | token => exact ⟨_, (advanceBy_add ..).symm⟩

theorem Stepped.lines (hlines : Lines s.cursor.rest) : Lines s'.cursor.rest := by
  obtain ⟨n, hn⟩ := h.exists_advanceBy
  exact hn ▸ lines_advanceBy hlines n

theorem Stepped.placed (hlines : Lines s.cursor.rest) (hplaced : s.cursor.Placed) :
    s'.cursor.Placed := by
  obtain ⟨n, hn⟩ := h.exists_advanceBy
  exact hn ▸ hplaced.advanceBy hlines n

theorem Stepped.sane (hs : Sane s) (hpaused : ¬Paused s) : Sane s' := by
  have hne : s.cursor.rest ≠ [] := fun hnil => hpaused (.inl hnil)
  have hindented := indented_ne_nil hs.lines hne
  have hlines := h.lines hs.lines
  have hplaced := h.placed hs.lines hs.placed
  cases h with
  | blank hstart hblank =>
    exact ⟨hlines, hplaced, hs.depth, fun h => absurd h Bool.false_ne_true,
      fun hnil => absurd hnil hindented⟩
  | indent hstart hblank hindent =>
    exact ⟨hlines, hplaced, fun _ => hs.depth (hs.start hstart),
      fun h => absurd h Bool.false_ne_true, fun hnil => absurd hnil hindented⟩
  | inside hstart hrest hdepth =>
    refine ⟨hlines, hplaced, hs.depth, fun hstart' => ?_, fun _ _ => hdepth⟩
    rw [show s.lineStart = true from hstart'] at hstart
    cases hstart
  | skip hstart hrest hdepth hlast =>
    exact ⟨hlines, hplaced, hs.depth, fun _ => hlast, fun _ h => absurd h.symm Bool.false_ne_true⟩
  | line hstart hrest hdepth hlast =>
    exact ⟨hlines, hplaced, fun _ => Nat.eq_zero_of_not_pos hdepth, fun _ => rfl,
      fun _ h => absurd h.symm Bool.false_ne_true⟩
  | @token hstart c cs hrest hnul hline u n hfront =>
    obtain ⟨-, hlt, -⟩ := front_stop hs.lines hrest hnul hline []
    rw [hfront] at hlt
    refine ⟨hlines, hplaced, fun hlast => ?_, fun hstart' => ?_, fun hnil => ?_⟩
    · have hinline := isInline_of_front hfront
      rw [show u.kind = _ from hlast] at hinline
      cases hinline
    · rw [show s.lineStart = true from hstart'] at hstart
      cases hstart
    · rw [rest_advanceBy, hrest, drop_succ_cons, drop_eq_nil_iff] at hnil
      omega

/-- The brackets and blocks that are open are those of the tokens. -/
theorem Stepped.nestAll_eq (b : Nat) :
    nestAll (s.depth, b + s.indents.length) ts = (s'.depth, b + s'.indents.length) := by
  cases h with
  | blank | inside | skip | line => rfl
  | @indent hstart hblank _ _ indents hindent =>
    generalize s.indents = before at hindent
    cases aligns_of_indentTokens hindent with
    | opens => rfl
    | closes hsplit =>
      rw [nestAll_dedent, hsplit, length_append]
      dsimp only
      congr 1
      omega
    | strays hsplit =>
      rw [nestAll_append, nestAll_dedent, hsplit, length_append]
      change Prod.mk _ _ = Prod.mk _ _
      dsimp only
      congr 1
      omega
  | token hstart hrest hnul hline hfront =>
    exact nest_of_isInline (isInline_of_front hfront) _

end

theorem lastKind_append (k : Kind) (ts us : List Token) :
    lastKind k (ts ++ us) = lastKind (lastKind k ts) us := by
  rw [lastKind, lastKind, lastKind, getLast?_append]
  cases us.getLast? <;> rfl

theorem Stepped.last_eq (h : Stepped s ts ds s') : s'.last = lastKind s.last ts := by
  cases h <;> rfl

theorem pos_front (pos : Position) (c : Char) (cs : List Char) : (front pos c cs).1.pos = pos := by
  rw [front]
  split
  · rfl
  · split
    · rfl
    · split <;> rfl

/-- The positions of tokens and complaints are not at the end of the text. -/
theorem Stepped.visits (h : Stepped s ts ds s') :
    (∀ u ∈ ts, s.cursor.Visits u.pos) ∧ ∀ d ∈ ds, s.cursor.Visits d.pos := by
  have hstop : ∀ {c cs}, s.stop.rest = c :: cs → s.cursor.Visits s.stop.pos := fun hrest =>
    ⟨_, by rw [← stop, hrest]; exact cons_ne_nil _ _, rfl⟩
  cases h with
  | blank | inside | skip => simp
  | line _ hrest => exact ⟨forall_mem_singleton.mpr (hstop hrest), by simp⟩
  | indent _ hblank hindent =>
    have hpos : s.cursor.Visits s.indented.pos := by
      refine ⟨_, fun hnil => ?_, rfl⟩
      rw [← indented] at hnil
      rw [hnil] at hblank
      cases hblank
    have haligns := aligns_of_indentTokens hindent
    refine ⟨fun u hu => ?_, fun d hd => ?_⟩
    · obtain ⟨k, -, rfl⟩ := haligns.mem hu
      exact hpos
    · cases haligns with
      | opens | closes => cases hd
      | strays => exact mem_singleton.mp hd ▸ hpos
  | @token _ c cs hrest _ _ u n hfront =>
    have hpos : s.cursor.Visits u.pos := by
      have hu := pos_front s.stop.pos c cs
      rw [hfront] at hu
      exact (show u.pos = s.stop.pos from hu) ▸ hstop hrest
    refine ⟨forall_mem_singleton.mpr hpos, fun d hd => ?_⟩
    rw [complaints] at hd
    split at hd
    · exact mem_singleton.mp hd ▸ hpos
    · cases hd

/-- What the tokens of some lines say of the lexer behind them. -/
structure Tokens (s s' : Lexer) (ts : List Token) (ds : List Diagnostic) : Prop where
  column : ∀ u ∈ ts, u.pos.column ≠ 0 ∧ u.kind ≠ .endOfInput
  complaints : ∀ d ∈ ds, d.pos.column ≠ 0
  nest : ∀ b, nestAll (s.depth, b + s.indents.length) ts = (s'.depth, b + s'.indents.length)
  last : s'.last = lastKind s.last ts

theorem Scans.tokens (h : Scans s ts ds s') (hlines : Lines s.cursor.rest)
    (hplaced : s.cursor.Placed) : Tokens s s' ts ds := by
  induction h with
  | nil s => exact ⟨by simp, by simp, fun _ => rfl, rfl⟩
  | cons h _ ih =>
    obtain ⟨hvisits, hvisits'⟩ := h.visits
    have hrest := ih (h.lines hlines) (h.placed hlines hplaced)
    refine ⟨?_, ?_, fun b => ?_, ?_⟩
    · exact forall_mem_append.mpr
        ⟨fun u hu => ⟨hplaced.column_ne hlines (hvisits u hu), h.kind_ne u hu⟩, hrest.column⟩
    · exact forall_mem_append.mpr
        ⟨fun d hd => hplaced.column_ne hlines (hvisits' d hd), hrest.complaints⟩
    · rw [nestAll_append, h.nestAll_eq, hrest.nest]
    · rw [hrest.last, h.last_eq, lastKind_append]

theorem Scans.rest_suffix (h : Scans s ts ds s') : s'.cursor.rest <:+ s.cursor.rest := by
  induction h with
  | nil s => exact suffix_refl _
  | cons h _ ih =>
    obtain ⟨n, hn⟩ := h.exists_advanceBy
    exact ih.trans (hn ▸ rest_advanceBy _ n ▸ drop_suffix n _)

/-- **The tokens of a text begin the tokens of every longer one**, in the same spelling if the text
is free of NUL. -/
theorem exists_scans (hs : Sane s) :
    ∃ ts ds s', Scans s ts ds s' ∧ (Paused s' ∨ Halted s') ∧ Sane s' ∧
      ∀ x t, Extends s x t → ∃ ts' x', Scans x ts' ds x' ∧ Extends s' x' t ∧
        ts'.map outline = ts.map outline ∧
        (nul ∉ s.cursor.rest → ts' = ts) := by
  induction s using induct with
  | stopped s h =>
    refine ⟨[], [], s, .nil s, ?_, hs, fun x t hx => ⟨[], x, .nil x, hx, rfl, fun _ => rfl⟩⟩
    cases hrest : s.stop.rest with
    | nil => exact .inl (.inr ⟨h.start, hrest⟩)
    | cons c cs => exact .inr ⟨h.start, cs, h.rest c cs hrest ▸ hrest⟩
  | stepped s ts ds s' h ih =>
    by_cases hpaused : Paused s
    · exact ⟨[], [], s, .nil s, .inl hpaused, hs,
        fun x t hx => ⟨[], x, .nil x, hx, rfl, fun _ => rfl⟩⟩
    · obtain ⟨ts', ds', s'', hscans, hends, hs'', hextend⟩ := ih (h.sane hs hpaused)
      refine ⟨ts ++ ts', ds ++ ds', s'', .cons h hscans, hends, hs'', fun x t hx => ?_⟩
      obtain ⟨us, x', hx', hextends, hus, hsame⟩ := h.extend
        (.inl ⟨hs.lines, fun hnil => hpaused (.inl hnil)⟩)
        (fun _ _ _ hrest hnul hline => (front_stop hs.lines hrest hnul hline t).1) hx
      obtain ⟨us', x'', hx'', hextends', hus', hsame'⟩ := hextend x' t hextends
      refine ⟨us ++ us', x'', .cons hx' hx'', hextends', ?_, fun hnul => ?_⟩
      · rw [map_append, map_append, hus, hus']
      · rw [hsame' (h.nul_notMem hnul), hsame fun _ _ _ hrest hc hline =>
          (front_stop hs.lines hrest hc hline t).2.2 hnul]

end

end Lexer

end Sequencer
