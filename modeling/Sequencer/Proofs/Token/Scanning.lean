import Sequencer.Proofs.Token.Spelling

/-!
# The lexer step by step

`Stepped` lists the steps of the lexer, and `Lexer.induct` is the induction that goes with them.
Some steps deliver tokens without using up a character; what bounds the number of tokens is that an
open block owes one token and a character no more than two (`Lexer.dues`).
-/

namespace Sequencer

open List Token Cursor

/-- A token within a line. -/
def Token.Kind.isInline : Kind → Bool
  | .newline | .indent | .dedent | .endOfInput => false
  | _ => true

namespace Lexer

open Token (Kind)

/-! ### Steps -/

def blanks (s : Lexer) : List Char := s.cursor.rest.takeWhile isSpace

def indented (s : Lexer) : Cursor := s.cursor.advanceBy s.blanks.length

/-- The cursor behind what separates it from the next token or line end. -/
def stop (s : Lexer) : Cursor := s.cursor.advanceBy (gap s.cursor.rest)

/-- In one step a lexer delivers some tokens and complaints, and leaves another lexer behind. -/
inductive Stepped (s : Lexer) : List Token → List Diagnostic → Lexer → Prop
  /-- The line is blank, up to a comment. -/
  | blank (hstart : s.lineStart = true) (hblank : isBlankAt s.indented.rest = true) :
      Stepped s [] [] { s with cursor := s.indented, lineStart := false }
  /-- The line opens or closes blocks, or none. -/
  | indent (hstart : s.lineStart = true) (hblank : isBlankAt s.indented.rest = false)
      {ts : List Token} {ds : List Diagnostic} {indents : List Nat}
      (hindent : indentTokens s.indents (indentWidth s.blanks) s.indented.pos = (ts, ds, indents)) :
      Stepped s ts ds { s with
        cursor := s.indented, indents := indents, lineStart := false,
        last := lastKind s.last ts }
  /-- A line end inside brackets. -/
  | inside (hstart : s.lineStart = false) {cs : List Char} (hrest : s.stop.rest = '\n' :: cs)
      (hdepth : s.depth > 0) : Stepped s [] [] { s with cursor := s.stop.advance }
  /-- The end of a blank line. -/
  | skip (hstart : s.lineStart = false) {cs : List Char} (hrest : s.stop.rest = '\n' :: cs)
      (hdepth : ¬s.depth > 0) (hlast : s.last = .newline) :
      Stepped s [] [] { s with cursor := s.stop.advance, lineStart := true }
  /-- The end of a line. -/
  | line (hstart : s.lineStart = false) {cs : List Char} (hrest : s.stop.rest = '\n' :: cs)
      (hdepth : ¬s.depth > 0) (hlast : s.last ≠ .newline) :
      Stepped s [⟨.newline, "\n", s.stop.pos⟩] []
        { s with cursor := s.stop.advance, lineStart := true, last := .newline }
  | token (hstart : s.lineStart = false) {c : Char} {cs : List Char}
      (hrest : s.stop.rest = c :: cs) (hnul : c ≠ nul) (hline : c ≠ '\n') {t : Token}
      {n : Nat} (hfront : front s.stop.pos c cs = (t, n)) :
      Stepped s [t] t.complaints { s with
        cursor := s.stop.advanceBy (n + 1), depth := depthAfter s.depth t.kind, last := t.kind }

/-- Nothing is left, or a NUL is next. -/
structure Stopped (s : Lexer) : Prop where
  start : s.lineStart = false
  rest : ∀ c cs, s.stop.rest = c :: cs → c = nul

theorem stopped_or_stepped (s : Lexer) : Stopped s ∨ ∃ ts ds s', Stepped s ts ds s' := by
  cases hstart : s.lineStart with
  | true =>
    cases hblank : isBlankAt s.indented.rest with
    | true => exact .inr ⟨_, _, _, .blank hstart hblank⟩
    | false => exact .inr ⟨_, _, _, .indent hstart hblank rfl⟩
  | false =>
    cases hrest : s.stop.rest with
    | nil => exact .inl ⟨hstart, by simp [hrest]⟩
    | cons c cs =>
      by_cases hnul : c = nul
      · exact .inl ⟨hstart, by simp [hrest, hnul]⟩
      by_cases hline : c = '\n'
      · subst hline
        by_cases hdepth : s.depth > 0
        · exact .inr ⟨_, _, _, .inside hstart hrest hdepth⟩
        by_cases hlast : s.last = .newline
        · exact .inr ⟨_, _, _, .skip hstart hrest hdepth hlast⟩
        · exact .inr ⟨_, _, _, .line hstart hrest hdepth hlast⟩
      · exact .inr ⟨_, _, _, .token hstart hrest hnul hline rfl⟩

section Equations

variable {s s' : Lexer} {ts : List Token} {ds : List Diagnostic}

theorem Stopped.run_eq (h : Stopped s) : s.run = ⟨s.finalTokens s.stop.pos, [], s.stop.pos⟩ := by
  rw [run, if_neg (by simp [h.start])]
  dsimp only
  split
  · rfl
  · rename_i c cs hrest
    rw [if_pos (h.rest c cs hrest)]
    rfl

theorem rest_run_line {cs : List Char} (hstart : s.lineStart = false)
    (hrest : s.stop.rest = '\n' :: cs) :
    s.run =
      if s.depth > 0 then run { s with cursor := s.stop.advance }
      else if s.last = .newline then run { s with cursor := s.stop.advance, lineStart := true }
      else (run { s with cursor := s.stop.advance, lineStart := true, last := .newline }).cons
        [⟨.newline, "\n", s.stop.pos⟩] [] := by
  have hnul : '\n' ≠ nul := by decide
  rw [run, if_neg (by simp [hstart])]
  dsimp only
  split
  · rename_i hnil
    cases hnil.symm.trans hrest
  · rename_i hcons
    obtain ⟨rfl, rfl⟩ := cons.inj (hcons.symm.trans hrest)
    rfl

/-- **A run is made of its steps.** -/
theorem Stepped.run_eq (h : Stepped s ts ds s') : s.run = s'.run.cons ts ds := by
  cases h with
  | blank hstart hblank =>
    rw [run, if_pos hstart]
    exact if_pos hblank
  | indent hstart hblank hindent =>
    rw [run, if_pos hstart]
    simp only [indented, blanks] at hblank hindent ⊢
    rw [if_neg (by rw [hblank]; exact Bool.false_ne_true), hindent]
  | inside hstart hrest hdepth =>
    rw [rest_run_line hstart hrest, if_pos hdepth]
    rfl
  | skip hstart hrest hdepth hlast =>
    rw [rest_run_line hstart hrest, if_neg hdepth, if_pos hlast]
    rfl
  | line hstart hrest hdepth hlast =>
    rw [rest_run_line hstart hrest, if_neg hdepth, if_neg hlast]
  | token hstart hrest hnul hline hfront =>
    rw [run, if_neg (by simp [hstart])]
    dsimp only
    split
    · rename_i hnil
      cases hnil.symm.trans hrest
    · rename_i hcons
      obtain ⟨rfl, rfl⟩ := cons.inj (hcons.symm.trans hrest)
      simp only [stop] at hfront
      rw [if_neg hnul, if_neg hline, hfront]
      rfl

theorem stop_of_rest_nil (h : s.cursor.rest = []) : s.stop = s.cursor := by
  rw [stop, h]
  rfl

theorem run_of_rest_nil (hstart : s.lineStart = true) (h : s.cursor.rest = []) :
    s.run = ⟨s.finalTokens s.cursor.pos, [], s.cursor.pos⟩ := by
  have hindented : s.indented = s.cursor := by
    rw [indented, blanks, h]
    rfl
  have hstep := (Stepped.blank hstart (by rw [hindented, h]; rfl)).run_eq
  have hstopped : Stopped { s with cursor := s.indented, lineStart := false } := by
    refine ⟨rfl, fun c cs hrest => ?_⟩
    rw [stop_of_rest_nil (by rw [hindented, h]), hindented, h] at hrest
    cases hrest
  rw [hstep, hstopped.run_eq, stop_of_rest_nil (by rw [hindented, h]), hindented]
  rfl

end Equations

theorem length_indented (s : Lexer) :
    s.blanks.length + s.indented.rest.length = s.cursor.rest.length := by
  have hle : s.blanks.length ≤ s.cursor.rest.length := (takeWhile_sublist _).length_le
  rw [indented, rest_advanceBy, length_drop]
  omega

variable {s s' : Lexer} {c : Char} {cs : List Char} {ts : List Token} {ds : List Diagnostic}
  {pos : Position}

theorem length_stop (h : s.stop.rest = c :: cs) : cs.length < s.cursor.rest.length :=
  Nat.lt_of_le_of_lt (Nat.le_add_right _ _) (length_lt_of_rest_advanceBy h)

theorem length_stop_advanceBy (h : s.stop.rest = c :: cs) (n : Nat) :
    (s.stop.advanceBy (n + 1)).rest.length < s.cursor.rest.length := by
  have hlt := length_stop h
  rw [rest_advanceBy, h, drop_succ_cons, length_drop]
  omega

theorem length_stop_advance (h : s.stop.rest = c :: cs) :
    s.stop.advance.rest.length < s.cursor.rest.length :=
  length_stop_advanceBy h 0

/-- What is left to read; looking at the indentation of a line counts. -/
def left (s : Lexer) : Nat := 2 * s.cursor.rest.length + if s.lineStart then 1 else 0

theorem Stepped.left_lt (h : Stepped s ts ds s') : s'.left < s.left := by
  have hindent := length_indented s
  cases h with
  | blank hstart | indent hstart =>
    simp only [left, hstart, if_true, Bool.false_eq_true, if_false]
    omega
  | inside hstart hrest | skip hstart hrest | line hstart hrest =>
    have hlt := length_stop_advance hrest
    simp only [left, hstart, if_true, Bool.false_eq_true, if_false]
    omega
  | token hstart hrest =>
    have hlt := length_stop_advanceBy hrest
    simp only [left, hstart, Bool.false_eq_true, if_false]
    exact Nat.mul_lt_mul_of_pos_left (hlt _) (by decide)

/-- **Induction along the steps of the lexer.** -/
theorem induct {motive : Lexer → Prop} (stopped : ∀ s, Stopped s → motive s)
    (stepped : ∀ s ts ds s', Stepped s ts ds s' → motive s' → motive s) (s : Lexer) : motive s := by
  induction hn : s.left using Nat.strongRecOn generalizing s with
  | ind n ih =>
    obtain h | ⟨ts, ds, s', h⟩ := stopped_or_stepped s
    · exact stopped s h
    · exact stepped s ts ds s' h (ih s'.left (hn ▸ h.left_lt) s' rfl)

/-! ### Counting tokens -/

/-- What the indentation of a line does to the open blocks, with the tokens and complaints. -/
inductive Aligns (indents : List Nat) (width : Nat) (pos : Position) :
    List Token → List Diagnostic → List Nat → Prop
  | opens (h : indents.headD 0 < width) :
      Aligns indents width pos [⟨.indent, "", pos⟩] [] (width :: indents)
  | closes {closed rest : List Nat} (hsplit : indents = closed ++ rest)
      (hclosed : ∀ w ∈ closed, width < w) (h : rest.headD 0 = width) :
      Aligns indents width pos (closed.map fun _ => ⟨.dedent, "", pos⟩) [] rest
  /-- The line is not in line with any of the blocks. -/
  | strays {closed rest : List Nat} (hsplit : indents = closed ++ rest)
      (hclosed : ∀ w ∈ closed, width < w) (h : rest.headD 0 < width) :
      Aligns indents width pos ((closed.map fun _ => ⟨.dedent, "", pos⟩) ++ [⟨.illegal, "", pos⟩])
        [⟨pos, .unalignedDedent⟩] rest

variable {indents indents' : List Nat} {width : Nat}

theorem aligns_of_indentTokens (h : indentTokens indents width pos = (ts, ds, indents')) :
    Aligns indents width pos ts ds indents' := by
  rw [indentTokens] at h
  split at h
  · obtain ⟨rfl, rfl, rfl⟩ := h
    exact .opens ‹_›
  · have hsplit := (takeWhile_append_dropWhile (p := (width < ·)) (l := indents)).symm
    have hclosed : ∀ w ∈ indents.takeWhile (width < ·), width < w := fun w hw =>
      of_decide_eq_true (all_eq_true.mp all_takeWhile w hw)
    have hle : (indents.dropWhile (width < ·)).headD 0 ≤ width := by
      cases hdrop : indents.dropWhile (width < ·) with
      | nil => exact Nat.zero_le _
      | cons w ws =>
        have := head_dropWhile_not (width < ·) (l := indents) (by simp [hdrop])
        simpa [hdrop] using this
    dsimp only at h
    split at h
    · obtain ⟨rfl, rfl, rfl⟩ := h
      exact .closes hsplit hclosed ‹_›
    · obtain ⟨rfl, rfl, rfl⟩ := h
      exact .strays hsplit hclosed (Nat.lt_of_le_of_ne hle ‹_›)

theorem Aligns.mem (h : Aligns indents width pos ts ds indents') {t : Token} (ht : t ∈ ts) :
    ∃ k ∈ [Kind.indent, .dedent, .illegal], t = ⟨k, "", pos⟩ := by
  cases h with
  | opens => exact ⟨.indent, by simp, mem_singleton.mp ht⟩
  | closes =>
    obtain ⟨-, -, rfl⟩ := mem_map.mp ht
    exact ⟨.dedent, by simp, rfl⟩
  | strays =>
    obtain ht | ht := mem_append.mp ht
    · obtain ⟨-, -, rfl⟩ := mem_map.mp ht
      exact ⟨.dedent, by simp, rfl⟩
    · exact ⟨.illegal, by simp, mem_singleton.mp ht⟩

/-- What the indentation of a line delivers and owes: a line that is not indented opens no block. -/
theorem Aligns.length_le (h : Aligns indents width pos ts ds indents') :
    ts.length + indents'.length ≤ indents.length + if width = 0 then 0 else 2 := by
  cases h with
  | opens h =>
    rw [if_neg (Nat.ne_of_gt (Nat.zero_lt_of_lt h)), length_singleton, length_cons]
    omega
  | closes hsplit =>
    rw [hsplit, length_map, length_append]
    omega
  | strays hsplit _ h =>
    rw [if_neg (Nat.ne_of_gt (Nat.zero_lt_of_lt h)), hsplit, length_append,
      length_append, length_map, length_singleton]
    omega

/-- The tokens that a lexer can still owe: one for each open block, two for each character, and one
for a line that is not ended when nothing is left. -/
def dues (s : Lexer) : Nat :=
  2 * s.cursor.rest.length + s.indents.length +
    if s.cursor.rest = [] ∧ s.last ≠ .newline then 1 else 0

theorem dues_le (s : Lexer) : s.dues ≤ 2 * s.cursor.rest.length + s.indents.length + 1 := by
  rw [dues]
  split <;> omega

theorem dues_of_ne_nil (h : s.cursor.rest ≠ []) :
    s.dues = 2 * s.cursor.rest.length + s.indents.length := by
  rw [dues, if_neg (by simp [h]), Nat.add_zero]

theorem Stepped.length_add_dues_le (h : Stepped s ts ds s') : ts.length + s'.dues ≤ s.dues := by
  have hblanks := length_indented s
  have hlow : 2 * s.cursor.rest.length + s.indents.length ≤ s.dues := Nat.le_add_right _ _
  have hhigh := s'.dues_le
  cases h with
  | blank hstart hblank =>
    rw [length_nil, Nat.zero_add]
    cases hb : s.blanks with
    | nil =>
      have hstay : s.indented = s.cursor := by
        rw [indented, hb]
        rfl
      simp only [dues, hstay, Nat.le_refl]
    | cons b bs =>
      rw [hb, length_cons] at hblanks
      dsimp only at hhigh
      omega
  | indent hstart hblank hindent =>
    have htokens := (aligns_of_indentTokens hindent).length_le
    have hrest : s.indented.rest ≠ [] := by
      intro hnil
      rw [hnil] at hblank
      cases hblank
    rw [dues_of_ne_nil hrest]
    dsimp only
    split at htokens
    · omega
    · rename_i hwidth
      have hpos : s.blanks.length ≠ 0 := by
        intro hnil
        rw [length_eq_zero_iff.mp hnil] at hwidth
        exact hwidth rfl
      omega
  | inside hstart hrest | skip hstart hrest =>
    have hlt := length_stop_advance hrest
    dsimp only [length_nil] at hhigh ⊢
    omega
  | line hstart hrest =>
    have hlt := length_stop_advance hrest
    dsimp only [length_cons, length_nil] at hhigh ⊢
    omega
  | @token hstart c cs hrest hnul hline t n hfront =>
    have hlt := length_stop_advanceBy hrest n
    dsimp only [length_cons, length_nil] at hhigh ⊢
    omega

theorem mem_finalTokens {t : Token} (h : t ∈ s.finalTokens pos) :
    ∃ k ∈ [Token.Kind.newline, .dedent], t = ⟨k, "", pos⟩ := by
  rw [finalTokens] at h
  split at h
  · cases h
  · obtain h | h := mem_append.mp h
    · split at h
      · cases h
      · exact ⟨.newline, by decide, mem_singleton.mp h⟩
    · obtain ⟨-, -, rfl⟩ := mem_map.mp h
      exact ⟨.dedent, by decide, rfl⟩

theorem length_finalTokens_le (s : Lexer) (pos : Position) :
    (s.finalTokens pos).length ≤ s.dues := by
  rw [finalTokens]
  split
  · exact Nat.zero_le _
  · rw [length_append, length_map, dues]
    by_cases hlast : s.last = .newline
    · simp only [hlast, if_true, length_nil]
      omega
    · rw [if_neg hlast]
      cases hrest : s.cursor.rest with
      | nil =>
        rw [if_pos ⟨rfl, hlast⟩, length_singleton]
        omega
      | cons c cs =>
        simp only [length_cons, length_nil]
        omega

/-- **The number of tokens** is bounded by the dues of the lexer. -/
theorem length_run_le (s : Lexer) : s.run.tokens.length ≤ s.dues := by
  induction s using induct with
  | stopped s h =>
    rw [h.run_eq]
    exact length_finalTokens_le s _
  | stepped s ts ds s' h ih =>
    rw [h.run_eq]
    exact length_append ▸ Nat.le_trans (Nat.add_le_add_left ih _) h.length_add_dues_le

/-! ### The kinds of tokens -/

theorem isInline_kindOfWord (word : String) : (kindOfWord word).isInline = true :=
  (by decide : ∀ k ∈ .ident :: keywords.map Prod.snd, k.isInline = true) _
    (kindOfWord_mem word)

theorem isInline_of_front {t : Token} {n : Nat} (h : front pos c cs = (t, n)) :
    t.kind.isInline = true := by
  obtain rfl : (front pos c cs).1 = t := congrArg Prod.fst h
  rw [front]
  split
  · rfl
  · split
    · exact isInline_kindOfWord _
    · split
      · obtain ⟨ds, hmem, -, -⟩ := mem_symbols_of_symbol? ‹_›
        exact (by decide : ∀ p ∈ symbols, p.2.2.isInline = true) _ hmem
      · rfl

theorem Stepped.kind_ne (h : Stepped s ts ds s') : ∀ t ∈ ts, t.kind ≠ .endOfInput := by
  cases h with
  | indent hstart hblank hindent =>
    intro t ht
    obtain ⟨k, hk, rfl⟩ := (aligns_of_indentTokens hindent).mem ht
    rintro rfl
    exact absurd hk (by decide)
  | line => simp
  | token hstart hrest hnul hline hfront =>
    refine forall_mem_singleton.mpr fun hend => ?_
    have hinline := isInline_of_front hfront
    rw [hend] at hinline
    cases hinline
  | blank | inside | skip => exact forall_mem_nil _

/-- No token is delivered for the end of the text. -/
theorem kind_ne_of_mem_run (s : Lexer) : ∀ t ∈ s.run.tokens, t.kind ≠ .endOfInput := by
  induction s using induct with
  | stopped s h =>
    intro t ht hkind
    obtain ⟨k, hk, rfl⟩ := mem_finalTokens (h.run_eq ▸ ht)
    obtain rfl : k = .endOfInput := hkind
    exact absurd hk (by decide)
  | stepped s ts ds s' h ih =>
    rw [h.run_eq]
    exact forall_mem_append.mpr ⟨h.kind_ne, ih⟩

end Lexer

end Sequencer
