import Sequencer.Proofs.Token.Likeness

/-!
# Line endings

A carriage return is white space in front of a line break, so both kinds of line ends are read
alike. But it also separates the line break from a backslash in front of it, which then no longer
joins the two lines.
-/

namespace Sequencer

open List Token Cursor

namespace Token

/-- The text with a carriage return in front of each line break. -/
def crlf (text : List Char) : List Char :=
  text.flatMap fun c => if c = '\n' then ['\r', '\n'] else [c]

/-- A text in which no backslash joins two lines. -/
def Unjoined (text : List Char) : Prop :=
  ∀ u v, text = u ++ '\\' :: '\n' :: v → inComment u = true

/-- What is left of a text and of the same text with carriage returns, behind white space. -/
inductive Level : List Char → List Char → Prop
  | done : Level [] []
  | lineBreak (cs : List Char) : Level ('\n' :: cs) ('\n' :: crlf cs)
  | char {c : Char} (hc : c ≠ '\n') (cs : List Char) : Level (c :: cs) (c :: crlf cs)

variable {c : Char} {cs l r text u v : List Char}

theorem crlf_cons (hc : c ≠ '\n') (cs : List Char) : crlf (c :: cs) = c :: crlf cs := by
  rw [crlf, flatMap_cons, if_neg hc]
  rfl

theorem crlf_append (hl : '\n' ∉ l) (r : List Char) : crlf (l ++ r) = l ++ crlf r := by
  induction l with
  | nil => rfl
  | cons c l ih =>
    obtain ⟨hc, hl⟩ := not_or.mp (mem_cons.not.mp hl)
    rw [cons_append, crlf_cons (Ne.symm hc), ih hl, cons_append]

theorem head?_crlf_ne (text : List Char) : (crlf text).head? ≠ some '\n' := by
  cases text with
  | nil => simp [crlf]
  | cons c cs =>
    by_cases hc : c = '\n'
    · subst hc
      simp [crlf]
    · simpa [crlf_cons hc] using hc

theorem exists_span (p : Char → Bool) (text : List Char) :
    ∃ l r, text = l ++ r ∧ (∀ x ∈ l, p x = true) ∧ ∀ x ∈ r.head?, p x = false :=
  ⟨_, _, (take_append_drop _ _).symm, takeWhile_spec p text⟩

/-- The first line of a text. -/
theorem exists_line (text : List Char) :
    ∃ l r, text = l ++ r ∧ '\n' ∉ l ∧ ∀ x ∈ r.head?, x = '\n' := by
  obtain ⟨l, r, hsplit, hl, hr⟩ := exists_span (· ≠ '\n') text
  exact ⟨l, r, hsplit, fun hmem => by simpa using hl _ hmem, fun x hx => by simpa using hr x hx⟩

theorem head?_crlf (h : ∀ x ∈ r.head?, x = '\n') : ∀ x ∈ (crlf r).head?, x = '\r' := by
  cases r with
  | nil => exact nofun
  | cons x xs =>
    obtain rfl := h x rfl
    exact fun y hy => (Option.some.inj hy).symm

/-! ### Reading alike -/

theorem Level.head?_eq (h : Level l r) : r.head? = l.head? := by
  cases h <;> rfl

theorem Level.returned (h : Level l r) :
    r = crlf l ∨ ∃ cs, l = '\n' :: cs ∧ r = '\n' :: crlf cs := by
  cases h with
  | done => exact .inl rfl
  | lineBreak cs => exact .inr ⟨cs, rfl, rfl⟩
  | char hc cs => exact .inl (crlf_cons hc cs).symm

/-- The white space at the start of a line. A carriage return at its end has no width. -/
theorem blanks_crlf (text : List Char) :
    indentWidth ((crlf text).takeWhile isSpace) = indentWidth (text.takeWhile isSpace) ∧
    Level (text.dropWhile isSpace) ((crlf text).dropWhile isSpace) := by
  obtain ⟨w, r, rfl, hw, hr⟩ := exists_span isSpace text
  have hline : '\n' ∉ w := fun hmem => nomatch hw _ hmem
  rw [crlf_append hline, takeWhile_append_of_pos hw, takeWhile_append_of_pos hw,
    dropWhile_append_of_pos hw, dropWhile_append_of_pos hw]
  cases r with
  | nil => exact ⟨rfl, .done⟩
  | cons c cs =>
    have hspace : ¬isSpace c = true := by simp [hr c rfl]
    by_cases hc : c = '\n'
    · subst hc
      refine ⟨?_, .lineBreak cs⟩
      rw [takeWhile_cons_of_neg hspace, append_nil, indentWidth, foldl_append]
      rfl
    · rw [crlf_cons hc, takeWhile_cons_of_neg hspace, takeWhile_cons_of_neg hspace,
        dropWhile_cons_of_neg hspace, dropWhile_cons_of_neg hspace]
      exact ⟨rfl, .char hc cs⟩

theorem Unjoined.passed (h : Unjoined (u ++ v)) (hu : inComment u = false) : Unjoined v := by
  rintro x y rfl
  rw [← inComment_append hu]
  exact h (u ++ x) y (append_assoc u x _).symm

/-- A line break ends the comment in front of it. -/
theorem Unjoined.lineBreak (h : Unjoined (u ++ '\n' :: v)) : Unjoined ('\n' :: v) := by
  rw [← singleton_append, ← append_assoc] at h
  have hv := h.passed (inComment_newline u)
  rintro (_ | ⟨c, x⟩) y hxy
  · cases hxy
  · obtain ⟨rfl, rfl⟩ := cons.inj hxy
    exact hv x y rfl

theorem gap_crlf (hnul : nul ∉ text) (h : Unjoined text) :
    Level (text.drop (gap text)) ((crlf text).drop (gap (crlf text))) := by
  fun_induction gap text with
  | case1 cs => cases h [] cs rfl
  | case2 c cs hjoin hspace ih =>
    have hc : c ≠ '\n' := by
      rintro rfl
      cases hspace
    have hcomment : inComment [c] = false := inComment_of_forall fun x hx => by
      rintro rfl
      cases mem_singleton.mp hx
      cases hspace
    rw [crlf_cons hc, gap.eq_2 _ _ (by rintro _ rfl; cases hspace), if_pos hspace]
    exact ih (fun hmem => hnul (mem_cons_of_mem _ hmem)) (h.passed hcomment)
  | case3 cs =>
    -- The comment takes the carriage return at the end of its line with it.
    obtain ⟨l, r, rfl, hl, hr⟩ := exists_line cs
    have hstep : ∀ d ∈ l, (d ≠ '\n' && d ≠ nul) = true := by
      intro d hd
      have hd' : d ≠ '\n' := by rintro rfl; exact hl hd
      have hd'' : d ≠ nul := by rintro rfl; exact hnul (by simp [hd])
      simp [hd', hd'']
    rw [crlf_cons (by decide), crlf_append hl, gap.eq_2 _ _ (by simp), if_neg (by decide),
      if_pos rfl, takeWhile_append_of_pos hstep, takeWhile_append_of_pos hstep,
      drop_succ_cons, drop_succ_cons]
    cases r with
    | nil => simpa [crlf] using Level.done
    | cons x xs =>
      obtain rfl := hr x rfl
      have hreturn : crlf ('\n' :: xs) = '\r' :: '\n' :: crlf xs := rfl
      rw [hreturn, takeWhile_cons_of_neg (by decide),
        takeWhile_cons_of_pos (by decide), takeWhile_cons_of_neg (by decide)]
      simpa using Level.lineBreak xs
  | case4 c cs hjoin hspace hcomment =>
    by_cases hc : c = '\n'
    · subst hc
      exact .lineBreak cs
    · have hjoin' : ∀ ds, c = '\\' → crlf cs = '\n' :: ds → False :=
        fun _ _ hcs => head?_crlf_ne cs (by rw [hcs]; rfl)
      rw [crlf_cons hc, gap.eq_2 _ _ hjoin', if_neg hspace, if_neg hcomment]
      exact .char hc cs
  | case5 => exact .done

theorem front_crlf (hnul : nul ∉ c :: cs) (pos : Position) :
    front pos c (crlf cs) = front pos c cs ∧
    (crlf cs).drop (front pos c cs).2 = crlf (cs.drop (front pos c cs).2) := by
  obtain ⟨l, r, rfl, hl, hr⟩ := exists_line cs
  have hnul' : nul ∉ c :: l := fun hmem =>
    hnul (cons_append ▸ mem_append_left r hmem)
  have hlength : (front pos c l).2 ≤ l.length := (isFront hnul' rfl).length
  rw [crlf_append hl, front_append_eq (fun x hx => .inl (hr x hx)) hnul',
    front_append_eq (fun x hx => .inr (head?_crlf hr x hx)) hnul']
  refine ⟨rfl, ?_⟩
  rw [drop_append_of_le_length hlength, drop_append_of_le_length hlength,
    crlf_append fun hmem => hl (mem_of_mem_drop hmem)]

end Token

namespace Lexer

open Token (crlf Unjoined Level Filler)

variable {s s' x : Lexer} {c d : Cursor} {ts : List Token}

/-- A cursor in the same text with carriage returns, in front of the same character or of the
carriage return before it. -/
structure Returned (c d : Cursor) : Prop where
  rest : d.rest = crlf c.rest ∨ ∃ cs, c.rest = '\n' :: cs ∧ d.rest = '\n' :: crlf cs
  nul : nul ∉ c.rest
  unjoined : Unjoined c.rest

theorem Returned.passed (h : Returned c d) {u : List Char} {c' d' : Cursor}
    (hsplit : c.rest = u ++ c'.rest) (hu : Unjoined (u ++ c'.rest) → Unjoined c'.rest)
    (hrest : d'.rest = crlf c'.rest ∨ ∃ cs, c'.rest = '\n' :: cs ∧ d'.rest = '\n' :: crlf cs) :
    Returned c' d' :=
  ⟨hrest, fun hmem => h.nul (hsplit ▸ mem_append_right u hmem), hu (hsplit ▸ h.unjoined)⟩

theorem Returned.level_stop (h : Returned s.cursor x.cursor) : Level s.stop.rest x.stop.rest := by
  rw [stop, stop, rest_advanceBy, rest_advanceBy]
  obtain hrest | ⟨cs, hc, hd⟩ := h.rest
  · rw [hrest]
    exact gap_crlf h.nul h.unjoined
  · rw [hc, hd]
    exact .lineBreak cs

theorem Returned.stop (h : Returned s.cursor x.cursor) : Returned s.stop x.stop := by
  have hlevel := h.level_stop.returned
  cases hrest : s.stop.rest with
  | nil => exact ⟨hlevel, by simp [hrest], by simp [hrest, Unjoined]⟩
  | cons c cs =>
    obtain ⟨g, hsplit, -, hfiller⟩ := exists_filler h.nul hrest
    rw [← hrest] at hsplit
    refine h.passed hsplit (fun hunjoined => ?_) hlevel
    rw [hrest] at hunjoined ⊢
    by_cases hc : c = '\n'
    · subst hc
      exact hunjoined.lineBreak
    · exact hunjoined.passed (hfiller.inComment_eq hc)

theorem rest_indented (s : Lexer) : s.indented.rest = s.cursor.rest.dropWhile isSpace :=
  append_cancel_left
    ((blanks_append_rest s).symm.trans takeWhile_append_dropWhile.symm)

theorem isBlankAt_of_level {l r : List Char} (h : Level l r) : isBlankAt r = isBlankAt l := by
  cases h <;> rfl

/-- **Texts without joined line ends are read alike.** -/
theorem likeness_returned : Likeness (fun _ => ⟨0, 0⟩) (fun _ => ⟨0, 0⟩) Returned where
  pos _ := rfl
  indented {s x} h := by
    obtain ⟨hwidth, hlevel⟩ : indentWidth x.blanks = indentWidth s.blanks ∧
        Level s.indented.rest x.indented.rest := by
      rw [rest_indented, rest_indented, blanks, blanks]
      obtain hrest | ⟨cs, hc, hd⟩ := h.rest
      · rw [hrest]
        exact blanks_crlf _
      · rw [hc, hd]
        exact ⟨rfl, .lineBreak cs⟩
    exact ⟨h.passed (blanks_append_rest s) (·.passed (inComment_blanks s)) hlevel.returned, hwidth,
      isBlankAt_of_level hlevel⟩
  stop h := ⟨h.stop, h.level_stop.head?_eq⟩
  advance {c d cs ds} h hc hd := by
    have hc' : c.advance.rest = cs := by rw [rest_advance, hc, tail_cons]
    have hd' : d.advance.rest = ds := by rw [rest_advance, hd, tail_cons]
    refine h.passed (u := ['\n']) (by rw [hc', hc]; rfl) (·.passed rfl) (.inl ?_)
    rw [hc', hd']
    obtain hrest | ⟨cs', hc', hd'⟩ := h.rest
    · rw [hc, hd] at hrest
      cases hrest
    · obtain ⟨-, rfl⟩ := cons.inj (hc.symm.trans hc')
      exact (cons.inj (hd.symm.trans hd')).2
  front {s x c cs ds} h hc hd hline pos := by
    have hlevel := h.level_stop
    have hnul := h.stop.nul
    rw [hc] at hlevel hnul
    rw [hd] at hlevel
    cases hlevel with
    | lineBreak => exact absurd rfl hline
    | char =>
      obtain ⟨hfront, hdrop⟩ := front_crlf hnul pos
      have ht := isFront (t := (front pos c cs).1) hnul rfl
      have hcomment :=
        (gap_stops h.nul (by rw [← hc, stop, rest_advanceBy]) hline)
      refine ⟨hfront, h.stop.passed (u := c :: cs.take (front pos c cs).2) ?_
        (·.passed (ht.lexeme ▸ ht.inComment_eq hcomment)) (.inl ?_)⟩
      · rw [rest_advanceBy, hc, drop_succ_cons, cons_append, take_append_drop]
      · rw [rest_advanceBy, rest_advanceBy, hc, hd, drop_succ_cons, drop_succ_cons, hdrop]

end Lexer

open Token (crlf Unjoined bare nul)

/-- **The line endings do not matter if no line ends are joined.** The tokens have the same kinds
and lexemes with carriage returns, and the complaints are the same. -/
theorem line_endings_alike {text : List Char} (hnul : nul ∉ text) (h : Unjoined text) :
    (lex (crlf text)).tokens.map bare = (lex text).tokens.map bare ∧
    (lex (crlf text)).diagnostics.map (·.complaint) =
      (lex text).diagnostics.map (·.complaint) := by
  have hrun := Lexer.likeness_returned.run_eq (s := .start text) (x := .start (crlf text))
    ⟨⟨.inl rfl, hnul, h⟩, rfl, rfl, rfl, rfl⟩
  have htokens := congrArg (fun l => l.tokens.map bare) hrun
  have hcomplaints := congrArg (fun l => l.diagnostics.map (·.complaint)) hrun
  simp only [Lexed.move, map_map] at htokens hcomplaints
  exact ⟨htokens, hcomplaints⟩

/-- A block of two lines, the first with a comment. -/
theorem block_endings_alike :
    nul ∉ "if a: # b\n  c\n".toList ∧ Unjoined "if a: # b\n  c\n".toList ∧
    (lex (crlf "if a: # b\n  c\n".toList)).tokens.map bare =
      (lex "if a: # b\n  c\n".toList).tokens.map bare := by
  have hslash : '\\' ∉ "if a: # b\n  c\n".toList := by decide
  have hunjoined : Unjoined "if a: # b\n  c\n".toList :=
    fun u v huv => absurd (by simp [huv]) hslash
  exact ⟨by decide, hunjoined, (line_endings_alike (by decide) hunjoined).1⟩

/-- A carriage return keeps a backslash from joining two lines. -/
theorem joined_endings_differ :
    nul ∉ "x = \\\n1\n".toList ∧ '\r' ∉ "x = \\\n1\n".toList ∧
    (lex "x = \\\n1\n".toList).diagnostics.map (·.complaint) = [] ∧
    (lex (crlf "x = \\\n1\n".toList)).diagnostics.map (·.complaint) =
      [.unexpectedCharacter "\\"] := by
  decide +kernel

end Sequencer
