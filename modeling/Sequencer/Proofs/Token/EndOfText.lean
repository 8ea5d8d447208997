import Sequencer.Proofs.Token.Continuation

/-!
# The end of a text

A NUL ends a text, and what comes behind it is not read. But a word or number right in front of the
NUL takes the rest of the text into its spelling, and a keyword is then a name.
-/

namespace Sequencer

open List Token Cursor Lexer

namespace Token

/-! ### The last word -/

/-- Whether a text ends in a word or number, and not in a comment. -/
def endsWord (text : List Char) : Bool := !inComment text && text.getLast?.any isWordChar

variable {c : Char} {cs u v after g : List Char} {breaks : Bool} {pos : Position}

theorem endsWord_append (hv : v ≠ []) (h : inComment (u ++ v) = inComment v) :
    endsWord (u ++ v) = endsWord v := by
  rw [endsWord, endsWord, h, getLast?_append, getLast?_eq_some_getLast hv, Option.some_or]

theorem endsWord_concat (hc : isWordChar c = false) : endsWord (u ++ [c]) = false := by
  rw [endsWord, getLast?_concat, Option.any_some, hc, Bool.and_false]

theorem isWordChar_of_isSpace (h : isSpace c = true) : isWordChar c = false := by
  simp only [isSpace, Bool.or_eq_true, decide_eq_true_eq] at h
  obtain ((rfl | rfl) | rfl) | rfl := h <;> decide

/-- A comment goes on to the end of the text, or up to a line break. -/
theorem inComment_comment {w : List Char} (hw : '\n' ∉ w) (hg : ∀ x ∈ g.head?, x = '\n') :
    inComment ('#' :: (w ++ g)) = (g.isEmpty || inComment g) := by
  cases g with
  | nil =>
    have hfold : ∀ w : List Char, '\n' ∉ w → w.foldl comments true = true := by
      intro w hw
      induction w with
      | nil => rfl
      | cons x w ih =>
        obtain ⟨hx, hw⟩ := not_or.mp (mem_cons.not.mp hw)
        rw [foldl_cons, show comments true x = true by simp [comments, Ne.symm hx], ih hw]
    rw [append_nil]
    exact hfold w hw
  | cons x g =>
    obtain rfl := hg x rfl
    have hline := inComment_append (v := g) (inComment_newline ('#' :: w))
    rw [append_assoc, singleton_append] at hline
    exact hline.trans (inComment_cons (by decide)).symm

theorem Filler.endsWord_eq (h : Filler breaks after g) : endsWord g = false := by
  have hcons : ∀ {u g : List Char} {c : Char}, isWordChar c = false →
      inComment (u ++ [c]) = false → endsWord g = false → endsWord (u ++ [c] ++ g) = false := by
    intro u g c hc hu hg
    by_cases hne : g = []
    · rw [hne, append_nil, endsWord_concat hc]
    · rw [endsWord_append hne (inComment_append hu), hg]
  induction h with
  | nil => rfl
  | @space c g hc _ ih =>
    have hhash : c ≠ '#' := by
      rintro rfl
      cases hc
    exact hcons (u := []) (isWordChar_of_isSpace hc) (inComment_cons hhash) ih
  | join _ ih => exact hcons (u := ['\\']) (by decide) rfl ih
  | @comment w g line ends _ ih =>
    have hhead : ∀ x ∈ g.head?, x = '\n' := by
      intro x hx
      obtain ⟨r, rfl⟩ := head?_eq_some_iff.mp hx
      exact ends x rfl
    have hcomment := inComment_comment line hhead
    by_cases hne : g = []
    · rw [endsWord, hcomment, hne]
      rfl
    · rw [isEmpty_eq_false_iff.mpr hne, Bool.false_or] at hcomment
      exact (endsWord_append (u := '#' :: w) hne hcomment).trans ih
  | lineBreak _ _ ih => exact hcons (u := []) (by decide) rfl ih

/-- A whole word or number, with nothing behind. -/
theorem front_of_isWhole (hnul : nul ∉ c :: cs) (h : isWhole c cs = true) (pos : Position) :
    front pos c cs = (⟨if isDigit c then .int else kindOfWord (String.ofList (c :: cs)),
      String.ofList (c :: cs), pos⟩, cs.length) := by
  have hrun : run (c :: cs) (cs.length + 1) = c :: cs := by
    rw [run_eq_take hnul, ← length_cons, take_length]
  by_cases hdigit : isDigit c = true
  · simp only [isWhole, hdigit, if_true, decide_eq_true_eq] at h
    simp only [front, hdigit, if_true, h, hrun]
  · simp only [isWhole, hdigit, Bool.false_eq_true, if_false, Bool.and_eq_true, all_eq_true] at h
    simp only [front, hdigit, h.1, takeWhile_eq_self_iff.mpr h.2, Bool.false_eq_true, if_false,
      if_true, hrun]

/-- A token that goes on to the end of the text is a word or number if the last character can belong
to one. -/
theorem isWhole_eq_endsWord {t : Token} (hnul : nul ∉ c :: cs) (hc : c ≠ '#')
    (h : front pos c cs = (t, cs.length)) : isWhole c cs = endsWord (c :: cs) := by
  have hfront := isFront hnul h
  have hcomment := hfront.inComment_eq hc
  rw [hfront.lexeme, take_length] at hcomment
  have hlast : ∀ {b}, (∀ x ∈ c :: cs, isWordChar x = b) → endsWord (c :: cs) = b := by
    intro b hb
    rw [endsWord, hcomment, getLast?_eq_some_getLast (cons_ne_nil c cs)]
    exact hb _ (getLast_mem _)
  have hsize := congrArg Prod.snd h
  by_cases hdigit : isDigit c = true
  · simp only [front, hdigit, if_true] at hsize
    have hword := (numberTail_spec c cs).2
    rw [hsize, take_length] at hword
    rw [hlast (forall_mem_cons.mpr ⟨by simp [isWordChar, hdigit], hword⟩)]
    simp [isWhole, hdigit, hsize]
  · by_cases hstart : isWordStart c = true
    · simp only [front, hdigit, hstart, if_true, Bool.false_eq_true, if_false] at hsize
      have hword := (takeWhile_spec isWordChar cs).1
      rw [hsize, take_length] at hword
      rw [hlast (forall_mem_cons.mpr ⟨by simp [isWordChar, hstart], hword⟩)]
      simpa [isWhole, hdigit, hstart] using hword
    · have hfirst : isWordChar c = false := by simp [isWordChar, hdigit, hstart]
      rw [hlast (b := false), isWhole]
      · simp [hdigit, hstart]
      · simp only [front, hdigit, hstart, Bool.false_eq_true, if_false] at hsize
        split at hsize
        · rename_i hsymbol
          obtain ⟨ds, hmem, rfl, hds⟩ := mem_symbols_of_symbol? hsymbol
          obtain rfl := hds.eq_of_length hsize
          have hnone := (by decide : ∀ p ∈ symbols, p.2.1.any isWordChar = false) _ hmem
          exact forall_mem_cons.mpr ⟨hfirst, by simpa using hnone⟩
        · obtain rfl : cs = [] := length_eq_zero_iff.mp hsize.symm
          exact forall_mem_singleton.mpr hfirst

/-- The tokens of a text, and of the same text with `t` behind that a word or number at the end
takes along, if there is one. -/
inductive Taken (t : List Char) : Bool → List Bare → List Bare → Prop
  | same (bs : List Bare) : Taken t false bs bs
  | word (bs : List Bare) (k : Kind) (w : String) (ks : List Bare) :
      Taken t true (bs ++ (k, w) :: ks)
        (bs ++ (if k = .int then .int else .ident, w ++ String.ofList t) :: ks)

theorem Taken.append {t : List Char} {taken : Bool} {bs bs' : List Bare} (h : Taken t taken bs bs')
    (before : List Bare) : Taken t taken (before ++ bs) (before ++ bs') := by
  cases h with
  | same bs => exact .same _
  | word bs k w ks =>
    rw [← append_assoc, ← append_assoc]
    exact .word ..

theorem Taken.eq_iff {t : List Char} (ht : t ≠ []) {taken : Bool} {bs bs' : List Bare}
    (h : Taken t taken bs bs') : bs' = bs ↔ taken = false := by
  cases h with
  | same bs => exact iff_of_true rfl rfl
  | word bs k w ks =>
    refine iff_of_false (fun heq => ht ?_) (by decide)
    have hword := congrArg (·.2.toList) (cons.inj (append_cancel_left heq)).1
    simpa using hword

end Token

/-! ### The whole text -/

namespace Lexer

open Token (EndsLine Kind Taken bare endsWord isDigit isWhole keywords nul)

variable {s s' x : Lexer} {ts : List Token} {ds : List Diagnostic} {t : List Char}

theorem map_bare_finalTokens (hindents : x.indents = s.indents) (hdepth : x.depth = s.depth)
    (hlast : x.last = .newline ↔ s.last = .newline) (p q : Position) :
    (x.finalTokens p).map bare = (s.finalTokens q).map bare := by
  simp only [finalTokens, hindents, hdepth, hlast]
  split
  · rfl
  · split <;> simp [bare]

/-- Whether the next token is a word or number at the end of the text. -/
def AtWord (s : Lexer) : Prop :=
  s.lineStart = false ∧ ∃ c cs, s.stop.rest = c :: cs ∧ isWhole c cs = true

theorem endsWord_stop (hnul : nul ∉ s.cursor.rest) {c : Char} {cs : List Char}
    (hrest : s.stop.rest = c :: cs) (hline : c ≠ '\n') {t : Token}
    (hfront : front s.stop.pos c cs = (t, cs.length)) : endsWord s.cursor.rest = isWhole c cs := by
  obtain ⟨g, hsplit, -, hfiller⟩ := exists_filler hnul hrest
  have hnul' := nul_notMem_stop hnul hrest
  have hcomment := gap_stops hnul (by rw [← hrest, stop, rest_advanceBy]) hline
  rw [hsplit, endsWord_append (cons_ne_nil c cs) (inComment_append (hfiller.inComment_eq hline)),
    isWhole_eq_endsWord hnul' hcomment hfront]

/-- A step that does not take a word at the end of the text leaves it there. -/
theorem Stepped.endsWord_eq (h : Stepped s ts ds s') (hnul : nul ∉ s.cursor.rest)
    (hword : ¬s.AtWord) : endsWord s.cursor.rest = endsWord s'.cursor.rest := by
  by_cases hrest : s'.cursor.rest = []
  · rw [hrest, show endsWord [] = false from rfl]
    have hbreak : ∀ {cs}, s.stop.rest = '\n' :: cs → s.stop.advance.rest = [] →
        endsWord s.cursor.rest = false := by
      intro cs hstop hnil
      obtain ⟨g, hsplit, -, -⟩ := exists_filler hnul hstop
      rw [rest_advance, hstop, tail_cons] at hnil
      rw [hsplit, hnil, endsWord_concat (by decide)]
    cases h with
    | blank | indent =>
      have hblanks := blanks_append_rest s
      rw [show s.indented.rest = [] from hrest, append_nil] at hblanks
      rw [hblanks]
      have hfiller : Filler false [] s.blanks := filler_of_isSpace (isSpace_of_mem_blanks s)
      exact hfiller.endsWord_eq
    | inside _ hstop | skip _ hstop | line _ hstop => exact hbreak hstop hrest
    | @token hstart c cs hstop hc hline t n hfront =>
      have hle := (isFront (nul_notMem_stop hnul hstop) hfront).length
      rw [rest_advanceBy, hstop, drop_succ_cons, drop_eq_nil_iff] at hrest
      obtain rfl := Nat.le_antisymm hrest hle
      rw [endsWord_stop hnul hstop hline hfront]
      exact Bool.eq_false_iff.mpr fun hwhole => hword ⟨hstart, c, cs, hstop, hwhole⟩
  · obtain ⟨u, hsplit, -, hclosed⟩ := (h.passes hnul).exists_passed
    rw [hsplit, endsWord_append hrest (inComment_append hclosed)]

/-- At the end of a text that goes on with a NUL. -/
theorem Stopped.extend (h : Stopped s) (hnul : nul ∉ s.cursor.rest)
    (hcursor : s.cursor.Extends x.cursor (nul :: t)) (hstart : x.lineStart = s.lineStart) :
    Stopped x := by
  refine ⟨hstart.trans h.start, fun c cs hrest => ?_⟩
  have hend := h.rest_stop hnul
  rw [stop, rest_advanceBy, drop_eq_nil_iff] at hend
  have hgap : gap x.cursor.rest = s.cursor.rest.length := by
    rw [hcursor.rest]
    obtain ⟨hlt, -⟩ | ⟨-, heq⟩ := gap_append (t := nul :: t) (.inr rfl)
    · exact absurd hend (Nat.not_le.mpr hlt)
    · exact heq
  rw [stop, rest_advanceBy, hgap, hcursor.rest, drop_left] at hrest
  exact (cons.inj hrest).1.symm

theorem stopped_of_head (hstart : s.lineStart = false)
    (h : ∀ y ∈ s.cursor.rest.head?, y = nul) : Stopped s := by
  refine ⟨hstart, fun d ds hd => ?_⟩
  rw [stop, rest_advanceBy] at hd
  cases hrest : s.cursor.rest with
  | nil => simp [hrest] at hd
  | cons y ys =>
    obtain rfl := h y (by rw [hrest]; rfl)
    rw [hrest] at hd
    exact (cons.inj hd).1.symm

/-- The tokens at the end of a text that breaks off within a line. -/
def closing (depth : Nat) (indents : List Nat) : List Bare :=
  if depth > 0 then [] else (.newline, "") :: indents.map fun _ => (.dedent, "")

/-- A word or number that is the last token, at the end of the text or in front of a NUL. -/
theorem run_of_word {c : Char} {cs : List Char} {k : Kind} {w : String} {n : Nat}
    (hstart : s.lineStart = false) (hrest : s.stop.rest = c :: cs) (hc : c ≠ nul) (hline : c ≠ '\n')
    (hk : k ∈ .int :: .ident :: keywords.map Prod.snd)
    (hfront : front s.stop.pos c cs = (⟨k, w, s.stop.pos⟩, n))
    (hend : ∀ y ∈ (cs.drop n).head?, y = nul) :
    s.run.diagnostics = [] ∧ s.run.tokens.map bare = (k, w) :: closing s.depth s.indents := by
  obtain ⟨hillegal, hnewline, hdepth⟩ := (by simp [keywords, depthAfter] :
    ∀ k ∈ .int :: .ident :: keywords.map Prod.snd,
      k ≠ .illegal ∧ k ≠ .newline ∧ ∀ d, depthAfter d k = d) k hk
  have hstopped : Stopped { s with
      cursor := s.stop.advanceBy (n + 1), depth := depthAfter s.depth k, last := k } := by
    refine stopped_of_head hstart ?_
    rwa [rest_advanceBy, hrest, drop_succ_cons]
  rw [(Stepped.token hstart hrest hc hline hfront).run_eq, hstopped.run_eq]
  refine ⟨by simp [Lexed.cons, complaints, hillegal], congrArg (cons _) ?_⟩
  simp only [finalTokens, closing, hdepth, hnewline, if_false]
  split <;> simp [bare]

/-- A word or number at the end of a text takes along what comes behind a NUL. -/
theorem AtWord.run_nul (h : s.AtWord) (hnul : nul ∉ s.cursor.rest) (hx : Extends s x (nul :: t)) :
    x.run.diagnostics = s.run.diagnostics ∧ Taken (nul :: t) (endsWord s.cursor.rest)
      (s.run.tokens.map bare) (x.run.tokens.map bare) := by
  obtain ⟨hstart, c, cs, hrest, hwhole⟩ := h
  obtain ⟨-, hrest', hpos⟩ := hx.stop (.inr rfl) hrest
  have hnul' := nul_notMem_stop hnul hrest
  have hc : c ≠ nul := fun hc => hnul' (hc ▸ mem_cons_self)
  have hline : c ≠ '\n' := by
    rintro rfl
    cases hwhole
  have hends : EndsLine (nul :: t) := fun y hy => by simp [← Option.some.inj hy]
  have hfront := front_of_isWhole hnul' hwhole s.stop.pos
  have hfront' := hends.front_append hnul' x.stop.pos
  rw [if_pos ⟨rfl, hwhole⟩] at hfront'
  obtain ⟨k, hk, hmem, hint⟩ : ∃ k, (if isDigit c then .int else
      kindOfWord (String.ofList (c :: cs))) = k ∧ k ∈ .int :: .ident :: keywords.map Prod.snd ∧
      (if isDigit c then Kind.int else .ident) = if k = .int then .int else .ident := by
    refine ⟨_, rfl, ?_⟩
    by_cases hdigit : isDigit c = true
    · simp [hdigit]
    · have hword := kindOfWord_mem (String.ofList (c :: cs))
      have hne := (by decide : ∀ k ∈ .ident :: keywords.map Prod.snd, k ≠ .int) _ hword
      simp only [hdigit, Bool.false_eq_true, if_false, hne, and_true]
      exact mem_cons_of_mem _ hword
  rw [hk] at hfront
  rw [hint] at hfront'
  obtain ⟨hdiagnostics, htokens⟩ := run_of_word hstart hrest hc hline hmem hfront (by simp)
  obtain ⟨hdiagnostics', htokens'⟩ := run_of_word (hx.lineStart.trans hstart) hrest' hc hline
    (by split <;> simp) hfront' (by simp)
  rw [hdiagnostics, hdiagnostics', htokens, htokens', endsWord_stop hnul hrest hline hfront, hwhole,
    hx.depth, hx.indents, ← cons_append, String.ofList_append]
  exact ⟨rfl, .word [] k _ _⟩

/-- **What comes behind a NUL is taken along by a word or number in front of it**, and is not read
otherwise. -/
theorem run_nul (hnul : nul ∉ s.cursor.rest) (hx : Extends s x (nul :: t)) :
    x.run.diagnostics = s.run.diagnostics ∧ Taken (nul :: t) (endsWord s.cursor.rest)
      (s.run.tokens.map bare) (x.run.tokens.map bare) := by
  induction s using induct generalizing x with
  | stopped s h =>
    have hx' := h.extend hnul hx.cursor hx.lineStart
    rw [h.run_eq, hx'.run_eq, (h.filler hnul).endsWord_eq,
      map_bare_finalTokens hx.indents hx.depth (by rw [hx.last]) _ s.stop.pos]
    exact ⟨rfl, .same _⟩
  | stepped s ts ds s' h ih =>
    by_cases hword : s.AtWord
    · exact hword.run_nul hnul hx
    · have hends : EndsLine (nul :: t) := fun y hy => by simp [← Option.some.inj hy]
      have hfront : s.lineStart = false → ∀ {c cs}, s.stop.rest = c :: cs → c ≠ nul → c ≠ '\n' →
          front s.stop.pos c (cs ++ nul :: t) = front s.stop.pos c cs := by
        intro hstart c cs hrest _ _
        rw [hends.front_append (nul_notMem_stop hnul hrest), if_neg]
        exact fun hwhole => hword ⟨hstart, c, cs, hrest, hwhole.2⟩
      obtain ⟨ts', x', hstep, hextends, -, hsame⟩ := h.extend (.inr rfl)
        (fun hstart c cs hrest hc hline => by
          rw [hfront hstart hrest hc hline]
          exact ⟨rfl, rfl, rfl, (isFront (nul_notMem_stop hnul hrest) rfl).length⟩) hx
      obtain rfl := hsame hfront
      obtain ⟨hdiagnostics, htokens⟩ := ih (h.nul_notMem hnul) hextends
      rw [hstep.run_eq, h.run_eq, h.endsWord_eq hnul hword]
      simp only [Lexed.cons, map_append, hdiagnostics, true_and]
      exact htokens.append _

end Lexer

open Token (bare endsWord nul)

/-- **A NUL ends a text if no word or number stands in front of it.** What comes behind has no part
in the tokens then, and never in the complaints. A word or number in front of the NUL takes all of
it along, and a keyword becomes a name; the other tokens are the same. -/
theorem nul_ends_text_iff {text : List Char} (hnul : nul ∉ text) (t : List Char) :
    (lex (text ++ nul :: t)).diagnostics = (lex text).diagnostics ∧
    ((lex (text ++ nul :: t)).tokens.map bare = (lex text).tokens.map bare ↔
      endsWord text = false) ∧
    (endsWord text = true → ∃ bs k w ks, (lex text).tokens.map bare = bs ++ (k, w) :: ks ∧
      (lex (text ++ nul :: t)).tokens.map bare =
        bs ++ (if k = .int then .int else .ident, w ++ String.ofList (nul :: t)) :: ks) := by
  obtain ⟨hdiagnostics, htaken⟩ := Lexer.run_nul hnul (Lexer.extends_start text (nul :: t))
  refine ⟨hdiagnostics, htaken.eq_iff (cons_ne_nil _ _), fun hword => ?_⟩
  rw [show endsWord (Lexer.start text).cursor.rest = true from hword] at htaken
  rw [lex, lex]
  generalize (Lexer.start text).run.tokens.map bare = bs at htaken
  generalize (Lexer.start (text ++ nul :: t)).run.tokens.map bare = bs' at htaken
  cases htaken with
  | word bs k w ks => exact ⟨bs, k, w, ks, rfl, rfl⟩

/-- A comment ends in front of a NUL. -/
theorem comment_ends_at_nul : nul ∉ "a # b".toList ∧
    (lex ("a # b".toList ++ nul :: "c".toList)).tokens.map bare =
      (lex "a # b".toList).tokens.map bare := by
  have hnul : nul ∉ "a # b".toList := by decide
  exact ⟨hnul, (nul_ends_text_iff hnul _).2.1.mpr (by decide)⟩

/-- A name in front of a NUL is not the same name. -/
theorem word_takes_nul : nul ∉ "ab".toList ∧
    (lex "ab".toList).tokens.map bare = [(.ident, "ab"), (.newline, "")] ∧
    (lex ("ab".toList ++ nul :: "cd".toList)).tokens.map bare =
      [(.ident, String.ofList ("ab".toList ++ nul :: "cd".toList)), (.newline, "")] := by
  decide +kernel

end Sequencer
