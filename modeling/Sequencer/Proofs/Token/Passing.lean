import Mathlib.Data.List.TakeWhile
import Sequencer.Proofs.Token.Scanning

/-!
# What the lexer passes

A step of the lexer passes a **filler**, which is white space, joined line ends and a comment, and
then perhaps a line break or the characters of a token. A token depends on the line it stands in,
and on nothing behind it.
-/

namespace Sequencer

open List Position Cursor Token

/-! ### Positions -/

namespace Position

/-- The position behind a character. -/
def next (p : Position) (c : Char) : Position :=
  if c = '\n' then ⟨p.line + 1, 1⟩ else ⟨p.line, p.column + 1⟩

/-- The position of the character that follows a text. Lines and columns count from one. -/
def behind (before : List Char) : Position := before.foldl next ⟨1, 1⟩

/-- An earlier position. -/
def Before (p q : Position) : Prop := p.line < q.line ∨ p.line = q.line ∧ p.column < q.column

theorem behind_concat (before : List Char) (c : Char) :
    behind (before ++ [c]) = (behind before).next c := by
  rw [behind, foldl_append]
  rfl

theorem before_next (p : Position) (c : Char) : p.Before (p.next c) := by
  rw [next]
  split
  · exact .inl (Nat.lt_succ_self _)
  · exact .inr ⟨rfl, Nat.lt_succ_self _⟩

theorem Before.trans {p q r : Position} (h : p.Before q) (h' : q.Before r) : p.Before r := by
  simp only [Before] at *
  omega

theorem before_foldl (p : Position) (c : Char) (cs : List Char) :
    p.Before ((c :: cs).foldl next p) := by
  induction cs generalizing p c with
  | nil => exact before_next p c
  | cons d cs ih => exact (before_next p c).trans (ih (p.next c) d)

theorem behind_before (u : List Char) {v : List Char} (hv : v ≠ []) :
    (behind u).Before (behind (u ++ v)) := by
  obtain ⟨c, cs, rfl⟩ := exists_cons_of_ne_nil hv
  rw [behind, behind, foldl_append]
  exact before_foldl _ c cs

end Position

namespace Cursor

/-- The position of a cursor in front of `rest`, with `before` behind it. The end of a text has the
column of the last character. -/
def place (before rest : List Char) : Position :=
  if rest = [] then ⟨(behind before).line, (behind before).column - 1⟩
  else behind before

/-- A cursor that has come past `before`, from the start of a text. -/
def Reads (before : List Char) (c : Cursor) : Prop := c.pos = place before c.rest

variable {c : Cursor} {before : List Char}

theorem reads_start (text : List Char) : Reads [] (start text) := by
  cases text <;> rfl

theorem Reads.pos_eq (h : Reads before c) (hne : c.rest ≠ []) : c.pos = behind before := by
  rw [h, place, if_neg hne]

theorem Reads.eq_mk (h : Reads before c) {rest : List Char} (hrest : c.rest = rest) :
    c = ⟨rest, place before rest⟩ := by
  obtain ⟨_, _⟩ := c
  subst hrest
  exact congrArg _ h

theorem Reads.advance {x : Char} {xs : List Char} (h : Reads before c) (hrest : c.rest = x :: xs) :
    Reads (before ++ [x]) c.advance := by
  have hpos := h.pos_eq (hrest ▸ cons_ne_nil x xs)
  obtain ⟨rest, pos⟩ := c
  subst hrest hpos
  rw [Reads, place, behind_concat, Position.next]
  by_cases hx : x = '\n'
  · subst hx
    cases xs <;> rfl
  · cases xs <;> simp [advance, after, hx]

/-- The position of the cursor is that of the next character. -/
theorem Reads.advanceBy (h : Reads before c) (n : Nat) :
    Reads (before ++ c.rest.take n) (c.advanceBy n) := by
  induction n generalizing c before with
  | zero =>
    rw [take_zero, append_nil]
    exact h
  | succ n ih =>
    cases hrest : c.rest with
    | nil =>
      have hstay : c.advance = c := by
        obtain ⟨rest, pos⟩ := c
        subst hrest
        rfl
      have := ih h
      rw [hrest, take_nil] at this
      rw [take_nil, advanceBy, hstay]
      exact this
    | cons x xs =>
      have := ih (h.advance hrest)
      rw [rest_advance, hrest, append_assoc] at this
      exact this

theorem advanceBy_add (c : Cursor) (m n : Nat) :
    c.advanceBy (m + n) = (c.advanceBy m).advanceBy n := by
  induction m generalizing c with
  | zero => rw [Nat.zero_add]; rfl
  | succ m ih => rw [Nat.succ_add]; exact ih c.advance

end Cursor

namespace Token

/-! ### Comments -/

/-- Whether the text is inside a comment behind the character `c`, if it is so in front of it. A
comment goes from `#` to the end of its line. -/
def comments (comment : Bool) (c : Char) : Bool := c ≠ '\n' && (comment || c = '#')

/-- Whether a text breaks off inside a comment. -/
def inComment (before : List Char) : Bool := before.foldl comments false

section Comments

variable {u v : List Char}

theorem inComment_append (h : inComment u = false) : inComment (u ++ v) = inComment v := by
  rw [inComment, foldl_append, ← inComment, h, inComment]

theorem inComment_newline (u : List Char) : inComment (u ++ ['\n']) = false := by
  rw [inComment, foldl_append]
  rfl

theorem inComment_cons {c : Char} (h : c ≠ '#') : inComment (c :: v) = inComment v :=
  inComment_append (u := [c]) (by simp [inComment, comments, h])

theorem inComment_of_forall (h : ∀ x ∈ v, x ≠ '#') : inComment v = false := by
  induction v with
  | nil => rfl
  | cons c cs ih =>
    obtain ⟨hc, hcs⟩ := forall_mem_cons.mp h
    rw [inComment_cons hc, ih hcs]

end Comments

/-! ### Fillers -/

/-- A text in front of `after` that belongs to no token: white space, joined line ends, comments up
to the end of their line, and, if `breaks` is set, line breaks. -/
inductive Filler (breaks : Bool) (after : List Char) : List Char → Prop
  | nil : Filler breaks after []
  | space {c : Char} {g : List Char} (hc : isSpace c = true) (rest : Filler breaks after g) :
      Filler breaks after (c :: g)
  | join {g : List Char} (rest : Filler breaks after g) : Filler breaks after ('\\' :: '\n' :: g)
  | comment {w g : List Char} (line : '\n' ∉ w) (ends : ∀ x ∈ (g ++ after).head?, x = '\n')
      (rest : Filler breaks after g) : Filler breaks after ('#' :: (w ++ g))
  | lineBreak {g : List Char} (allowed : breaks = true) (rest : Filler breaks after g) :
      Filler breaks after ('\n' :: g)

section Fillers

variable {breaks : Bool} {g g' after : List Char} {c : Char} {cs : List Char}

theorem Filler.append (h : Filler breaks (g' ++ after) g) (h' : Filler breaks after g') :
    Filler breaks after (g ++ g') := by
  induction h with
  | nil => exact h'
  | space hc _ ih => exact .space hc ih
  | join _ ih => exact .join ih
  | comment line ends _ ih =>
    rw [cons_append, append_assoc]
    exact .comment line (append_assoc _ g' after ▸ ends) ih
  | lineBreak allowed _ ih => exact .lineBreak allowed ih

theorem Filler.mono (h : Filler breaks after g) {breaks' : Bool}
    (hbreaks : breaks = true → breaks' = true) : Filler breaks' after g := by
  induction h with
  | nil => exact .nil
  | space hc _ ih => exact .space hc ih
  | join _ ih => exact .join ih
  | comment line ends _ ih => exact .comment line ends ih
  | lineBreak allowed _ ih => exact .lineBreak (hbreaks allowed) ih

theorem filler_of_isSpace (h : ∀ x ∈ g, isSpace x = true) : Filler breaks after g := by
  induction g with
  | nil => exact .nil
  | cons c g ih =>
    obtain ⟨hc, hg⟩ := forall_mem_cons.mp h
    exact .space hc (ih hg)

/-- A filler without line breaks that ends in a comment stands at the end of a line. -/
theorem Filler.inComment_eq (h : Filler false (c :: cs) g) (hc : c ≠ '\n') :
    inComment g = false := by
  induction h with
  | nil => rfl
  | @space x g hx _ ih =>
    have hx' : x ≠ '#' := by
      rintro rfl
      cases hx
    rw [inComment_cons hx', ih]
  | join _ ih => exact (inComment_append (u := ['\\', '\n']) rfl).trans ih
  | @comment w g _ ends rest _ =>
    -- What follows a comment is a line break, and neither the filler nor `c` is one.
    cases rest with
    | nil => exact absurd (ends c rfl) hc
    | @space x _ hx =>
      obtain rfl := ends x rfl
      cases hx
    | join => cases ends '\\' rfl
    | comment => cases ends '#' rfl
    | lineBreak allowed => cases allowed
  | lineBreak allowed => cases allowed

end Fillers

theorem takeWhile_spec (p : Char → Bool) (cs : List Char) :
    (∀ x ∈ cs.take (cs.takeWhile p).length, p x = true) ∧
      ∀ x ∈ (cs.drop (cs.takeWhile p).length).head?, p x = false := by
  induction cs with
  | nil => simp
  | cons c cs ih =>
    by_cases hc : p c = true
    · rw [takeWhile_cons_of_pos hc, length_cons, take_succ_cons, drop_succ_cons]
      exact ⟨forall_mem_cons.mpr ⟨hc, ih.1⟩, ih.2⟩
    · rw [takeWhile_cons_of_neg hc]
      simpa using hc

theorem length_takeWhile_le (p : Char → Bool) (cs : List Char) :
    (cs.takeWhile p).length ≤ cs.length :=
  (takeWhile_sublist p).length_le

/-- A comment goes on to the end of its line. -/
theorem comment_spec {cs : List Char} (h : nul ∉ cs) {n : Nat}
    (hn : (cs.takeWhile fun d => d ≠ '\n' && d ≠ nul).length = n) :
    '\n' ∉ cs.take n ∧ ∀ x ∈ (cs.drop n).head?, x = '\n' := by
  subst hn
  obtain ⟨hin, hend⟩ := takeWhile_spec (fun d => d ≠ '\n' && d ≠ nul) cs
  refine ⟨fun hmem => by simpa using hin _ hmem, fun x hx => ?_⟩
  have hne : x ≠ nul := by
    rintro rfl
    exact h (mem_of_mem_drop (mem_of_mem_head? hx))
  simpa [hne] using hend x hx

/-- What stands in front of a token is a filler. -/
theorem filler_gap {text : List Char} (h : nul ∉ text) :
    Filler false (text.drop (gap text)) (text.take (gap text)) := by
  fun_induction gap text with
  | case1 cs ih =>
    refine .join (ih fun hmem => h ?_)
    exact mem_cons_of_mem _ (mem_cons_of_mem _ hmem)
  | case2 c cs _ hspace ih => exact .space hspace (ih fun hmem => h (mem_cons_of_mem _ hmem))
  | case3 cs =>
    obtain ⟨hline, hends⟩ := comment_spec (fun hmem => h (mem_cons_of_mem _ hmem)) rfl
    have hcomment : Filler false _ ('#' :: _ ++ []) := .comment hline hends .nil
    rwa [append_nil] at hcomment
  | case4 => exact .nil
  | case5 => exact .nil

theorem gap_stops {text : List Char} (h : nul ∉ text) {c : Char} {cs : List Char}
    (hrest : text.drop (gap text) = c :: cs) (hc : c ≠ '\n') : c ≠ '#' := by
  fun_induction gap text with
  | case1 ds ih =>
    exact ih (fun hmem => h (mem_cons_of_mem _ (mem_cons_of_mem _ hmem))) hrest
  | case2 d ds _ _ ih => exact ih (fun hmem => h (mem_cons_of_mem _ hmem)) hrest
  | case3 ds =>
    obtain ⟨-, hends⟩ := comment_spec (fun hmem => h (mem_cons_of_mem _ hmem)) rfl
    rw [drop_succ_cons] at hrest
    rw [hrest] at hends
    exact absurd (hends c rfl) hc
  | case4 d ds _ _ hcomment =>
    cases hrest
    exact hcomment
  | case5 => cases hrest

/-! ### The characters of a token -/

/-- The kind of a name or a keyword. -/
def Kind.isWord (k : Kind) : Bool := k = .ident || keywords.any (·.2 = k)

/-- What the token `t` at the front of the text `c :: cs` has to do with it, if `n` characters
behind the first belong to it. -/
structure IsFront (pos : Position) (c : Char) (cs : List Char) (t : Token) (n : Nat) : Prop where
  lexeme : t.lexeme.toList = c :: cs.take n
  pos : t.pos = pos
  length : n ≤ cs.length
  lead : ∀ x ∈ cs.take n, isLead x = true
  /-- A word has all characters that can belong to it. -/
  word : t.kind.isWord = true → isWordStart c = true ∧ (∀ x ∈ cs.take n, isWordChar x = true) ∧
    ∀ x ∈ (cs.drop n).head?, isWordChar x = false

section Characters

variable {c : Char} {cs : List Char} {n : Nat}

theorem run_eq_take (h : nul ∉ cs) (n : Nat) : run cs n = cs.take n := by
  refine if_neg fun hhead => h ?_
  exact mem_of_mem_drop (mem_of_mem_head? hhead)

theorem isWordChar_of_isHexDigit (h : (isHexDigit c || c = '_') = true) : isWordChar c = true := by
  have hlow : c.toNat < 128 := by
    simp only [isHexDigit, isDigit, Bool.or_eq_true, Bool.and_eq_true, decide_eq_true_eq,
      Char.le_def, UInt32.le_iff_toNat_le] at h
    obtain ((⟨-, h⟩ | ⟨-, h⟩) | ⟨-, h⟩) | rfl := h
    · exact Nat.lt_of_le_of_lt h (by decide)
    · exact Nat.lt_of_le_of_lt h (by decide)
    · exact Nat.lt_of_le_of_lt h (by decide)
    · decide
  have hall : ∀ n < 128, (isHexDigit (Char.ofNat n) || Char.ofNat n = '_') = true →
      isWordChar (Char.ofNat n) = true := by decide
  rw [← Char.ofNat_toNat c] at h ⊢
  exact hall c.toNat hlow h

/-- A number has only characters that a word can have. -/
theorem numberTail_spec (c : Char) (cs : List Char) :
    numberTail c cs ≤ cs.length ∧ ∀ x ∈ cs.take (numberTail c cs), isWordChar x = true := by
  have hdigits := takeWhile_spec (fun d => isDigit d || d = '_') cs
  cases cs with
  | nil => exact ⟨Nat.le_refl 0, by simp [numberTail]⟩
  | cons m ds =>
    rw [numberTail]
    split
    · rename_i hbase
      have hhex := takeWhile_spec (fun d => isHexDigit d || d = '_') ds
      refine ⟨Nat.succ_le_succ (length_takeWhile_le _ _), ?_⟩
      refine forall_mem_cons.mpr ⟨?_, fun x hx => isWordChar_of_isHexDigit (hhex.1 x hx)⟩
      exact of_isBaseMark (by decide) (Bool.and_eq_true_iff.mp hbase).2
    · refine ⟨length_takeWhile_le _ _, fun x hx => isWordChar_of_isHexDigit ?_⟩
      obtain hx | hx := Bool.or_eq_true_iff.mp (hdigits.1 x hx) <;> simp [isHexDigit, hx]

theorem symbol?_spec {k : Kind} (h : symbol? c cs = some (k, n)) :
    k.isWord = false ∧ n ≤ cs.length ∧ ∀ x ∈ cs.take n, isLead x = true := by
  obtain ⟨ds, hmem, rfl, rest, rfl⟩ := mem_symbols_of_symbol? h
  obtain ⟨hword, hlead⟩ := (by decide : ∀ p ∈ symbols, p.2.2.isWord = false ∧
    p.2.1.all isLead = true) _ hmem
  refine ⟨hword, length_append ▸ Nat.le_add_right _ _, ?_⟩
  rw [take_left]
  exact all_eq_true.mp hlead

/-- The characters of a token. -/
theorem isFront {pos : Position} {t : Token} (hnul : nul ∉ c :: cs)
    (h : front pos c cs = (t, n)) : IsFront pos c cs t n := by
  have htake : ∀ m, (String.ofList (run (c :: cs) (m + 1))).toList = c :: cs.take m := by
    intro m
    rw [String.toList_ofList, run_eq_take hnul, take_succ_cons]
  rw [front] at h
  split at h
  · cases h
    obtain ⟨hlength, hword⟩ := numberTail_spec c cs
    exact ⟨htake _, rfl, hlength, fun x hx => isLead_of_class (by decide) (hword x hx),
      fun hword => absurd (show Kind.isWord .int = true from hword) (by decide)⟩
  · split at h
    · rename_i hstart
      cases h
      obtain ⟨hin, hend⟩ := takeWhile_spec isWordChar cs
      refine ⟨htake _, rfl, length_takeWhile_le _ _, fun x hx => ?_, fun _ => ⟨hstart, hin, hend⟩⟩
      exact isLead_of_class (by decide) (hin x hx)
    · split at h
      · rename_i hsymbol
        cases h
        obtain ⟨hkind, hlength, hlead⟩ := symbol?_spec hsymbol
        exact ⟨String.toList_ofList.trans take_succ_cons, rfl, hlength, hlead,
          fun hword => absurd (hkind.symm.trans hword) Bool.false_ne_true⟩
      · cases h
        exact ⟨String.toList_ofList, rfl, Nat.zero_le _, by simp,
          fun hword => absurd (show Kind.isWord .illegal = true from hword) (by decide)⟩

theorem IsFront.inComment_eq {pos : Position} {t : Token} (h : IsFront pos c cs t n)
    (hc : c ≠ '#') : inComment t.lexeme.toList = false := by
  rw [h.lexeme]
  exact inComment_of_forall (forall_mem_cons.mpr
    ⟨hc, fun x hx => (isLead_iff.mp (h.lead x hx)).2.2.1⟩)

end Characters

/-! ### A token and its line -/

/-- The end of a line or of the text, which a NUL ends too. -/
def EndsLine (rest : List Char) : Prop := ∀ x ∈ rest.head?, x ∈ ['\n', '\r', nul]

/-- Whether the text `c :: l` is a single word or number. -/
def isWhole (c : Char) (l : List Char) : Bool :=
  if isDigit c then numberTail c l = l.length else isWordStart c && l.all isWordChar

section Line

variable {c : Char} {l rest : List Char} {p : Char → Bool}

theorem takeWhile_append_of_head (h : ∀ x ∈ rest.head?, p x = false) :
    (l ++ rest).takeWhile p = l.takeWhile p := by
  have hrest : rest.takeWhile p = [] := by
    cases rest with
    | nil => rfl
    | cons x xs => exact takeWhile_cons_of_neg (by simp [h x rfl])
  rw [takeWhile_append, hrest, append_nil]
  split
  · rename_i hlength
    exact ((takeWhile_sublist p).eq_of_length hlength).symm
  · rfl

theorem EndsLine.head?_ne (h : EndsLine rest) {x : Char} (hx : x ∉ ['\n', '\r', nul]) :
    rest.head? ≠ some x :=
  fun hhead => hx (h x hhead)

theorem EndsLine.takeWhile_append (h : EndsLine rest) (hp : ['\n', '\r', nul].any p = false) :
    (l ++ rest).takeWhile p = l.takeWhile p :=
  takeWhile_append_of_head fun x hx => Bool.eq_false_iff.mpr (any_eq_false.mp hp x (h x hx))

theorem EndsLine.numberTail_append (h : EndsLine rest) :
    numberTail c (l ++ rest) = numberTail c l := by
  cases l with
  | nil =>
    cases rest with
    | nil => rfl
    | cons x xs =>
      have hall : ['\n', '\r', nul].all
          (fun x => !isBaseMark x && !(isDigit x || x = '_')) = true := by decide
      obtain ⟨hmark, hdigit⟩ := Bool.and_eq_true_iff.mp (all_eq_true.mp hall x (h x rfl))
      rw [Bool.not_eq_true'] at hmark hdigit
      rw [nil_append, numberTail, hmark, Bool.and_false, if_neg Bool.false_ne_true,
        takeWhile_cons_of_neg (by rw [hdigit]; exact Bool.false_ne_true)]
      rfl
  | cons m ds =>
    have hall := h.takeWhile_append (l := m :: ds) (p := fun d => isDigit d || d = '_') (by decide)
    simp only [numberTail, cons_append] at hall ⊢
    rw [hall, h.takeWhile_append (by decide)]

theorem EndsLine.symbol?_append (h : EndsLine rest) : symbol? c (l ++ rest) = symbol? c l := by
  cases l with
  | nil =>
    have heq := h.head?_ne (x := '=') (by decide)
    have hlt := h.head?_ne (x := '<') (by decide)
    have hgt := h.head?_ne (x := '>') (by decide)
    simp [symbol?, heq, hlt, hgt]
  | cons m ds => rfl

theorem run_append (hnul : nul ∉ c :: l) {n : Nat} (hn : n ≤ l.length) :
    run (c :: (l ++ rest)) (n + 1) = if rest.head? = some nul ∧ n = l.length then c :: (l ++ rest)
      else run (c :: l) (n + 1) := by
  have hhead : ((c :: (l ++ rest)).drop (n + 1)).head? = some nul ↔
      rest.head? = some nul ∧ n = l.length := by
    rw [drop_succ_cons, drop_append_of_le_length hn]
    cases hdrop : l.drop n with
    | nil =>
      have hlength := drop_eq_nil_iff.mp hdrop
      exact (and_iff_left (Nat.le_antisymm hn hlength)).symm
    | cons x xs =>
      refine iff_of_false (fun hx => ?_) fun ⟨_, heq⟩ => ?_
      · obtain rfl : x = nul := Option.some.inj hx
        exact hnul (mem_cons_of_mem _ (mem_of_mem_drop (hdrop ▸ mem_cons_self)))
      · rw [heq, drop_length] at hdrop
        cases hdrop
  rw [run_eq_take hnul, run]
  simp only [hhead, take_succ_cons, take_append_of_le_length hn]

theorem kindOfWord_of_nul {cs : List Char} (h : nul ∈ cs) :
    kindOfWord (String.ofList cs) = .ident := by
  rw [kindOfWord_eq_ident_iff]
  intro hmem
  have hnul : ∀ w ∈ keywords.map Prod.fst, nul ∉ w.toList := by decide
  refine hnul _ hmem ?_
  rwa [String.toList_ofList]

/-- **A token depends on its line**, unless it is a word or number up to a NUL, which takes along
what comes behind. -/
theorem EndsLine.front_append (h : EndsLine rest) (hnul : nul ∉ c :: l) (pos : Position) :
    front pos c (l ++ rest) = if rest.head? = some nul ∧ isWhole c l = true then
      (⟨if isDigit c then .int else .ident, String.ofList (c :: (l ++ rest)), pos⟩, l.length)
      else front pos c l := by
  have hmem : rest.head? = some nul → nul ∈ c :: (l ++ rest) := fun hhead =>
    mem_cons_of_mem _ (mem_append_right _ (mem_of_mem_head? hhead))
  have hwhole : (l.takeWhile isWordChar).length = l.length ↔ l.all isWordChar = true := by
    rw [all_eq_true, ← takeWhile_eq_self_iff]
    exact ⟨(takeWhile_sublist _).eq_of_length, congrArg _⟩
  by_cases hdigit : isDigit c = true
  · simp only [front, isWhole, hdigit, if_true, h.numberTail_append, decide_eq_true_eq,
      run_append hnul (numberTail_spec c l).1]
    split
    · rename_i hnumber
      rw [hnumber.2]
    · rfl
  · by_cases hstart : isWordStart c = true
    · simp only [front, isWhole, hdigit, hstart, if_true, Bool.false_eq_true, if_false,
        h.takeWhile_append (p := isWordChar) (by decide), Bool.true_and, ← hwhole,
        run_append hnul (length_takeWhile_le _ _)]
      split
      · rename_i hword
        rw [kindOfWord_of_nul (hmem hword.1), hword.2]
      · rfl
    · rw [if_neg (by simp [isWhole, hdigit, hstart])]
      simp only [front, hdigit, hstart, Bool.false_eq_true, if_false, h.symbol?_append]
      cases hsymbol : symbol? c l with
      | none => rfl
      | some o =>
        dsimp only
        rw [take_succ_cons, take_succ_cons, take_append_of_le_length (symbol?_spec hsymbol).2.1]

theorem front_append_eq (h : ∀ x ∈ rest.head?, x = '\n' ∨ x = '\r') (hnul : nul ∉ c :: l)
    (pos : Position) : front pos c (l ++ rest) = front pos c l := by
  have hends : EndsLine rest := fun x hx => by obtain rfl | rfl := h x hx <;> decide
  rw [hends.front_append hnul, if_neg]
  rintro ⟨hhead, -⟩
  obtain hx | hx := h _ hhead <;> cases hx

end Line

end Token

/-! ### Steps -/

namespace Lexer

open List
open Token (Filler)

variable {s s' : Lexer} {ts : List Token} {ds : List Diagnostic} {c : Char} {cs : List Char}

/-- What a step passes: a filler, perhaps with tokens that have no characters, or a filler and a
token. -/
inductive Passes (s : Lexer) : List Token → Lexer → Prop
  | filler {ts : List Token} {s' : Lexer} {g : List Char}
      (split : s.cursor.rest = g ++ s'.cursor.rest)
      (cursor : s'.cursor = s.cursor.advanceBy g.length)
      (filler : Filler (0 < s.depth || s.last = .newline) s'.cursor.rest g)
      (closed : inComment g = false) (unwritten : ∀ t ∈ ts, t.lexeme = "")
      (depth : s'.depth = s.depth) (last : s'.last = .newline → s.last = .newline) : Passes s ts s'
  | token {t : Token} {s' : Lexer} {g : List Char}
      (split : s.cursor.rest = g ++ (t.lexeme.toList ++ s'.cursor.rest))
      (cursor : s'.cursor = s.cursor.advanceBy (g.length + t.lexeme.toList.length))
      (filler : Filler false (t.lexeme.toList ++ s'.cursor.rest) g)
      (closed : inComment (g ++ t.lexeme.toList) = false)
      (written : t.lexeme.toList ≠ [])
      (pos : t.pos = (s.cursor.advanceBy g.length).pos)
      (word : t.kind.isWord = true → (∀ x ∈ t.lexeme.toList, isWordChar x = true) ∧
        ∀ x ∈ s'.cursor.rest.head?, isWordChar x = false)
      (depth : s'.depth = depthAfter s.depth t.kind) (last : s'.last = t.kind) : Passes s [t] s'

theorem nul_notMem_stop (hnul : nul ∉ s.cursor.rest) (hrest : s.stop.rest = c :: cs) :
    nul ∉ c :: cs := by
  rw [← hrest, stop, rest_advanceBy]
  exact fun hmem => hnul (mem_of_mem_drop hmem)

theorem exists_filler (hnul : nul ∉ s.cursor.rest) (hrest : s.stop.rest = c :: cs) :
    ∃ g, s.cursor.rest = g ++ c :: cs ∧ s.stop = s.cursor.advanceBy g.length ∧
      Filler false (c :: cs) g := by
  have hle := Nat.le_of_lt (Nat.lt_of_le_of_lt (Nat.le_add_left _ _)
    (length_lt_of_rest_advanceBy hrest))
  have hfiller := filler_gap hnul
  rw [stop, rest_advanceBy] at hrest
  refine ⟨s.cursor.rest.take (gap s.cursor.rest), ?_, ?_, hrest ▸ hfiller⟩
  · rw [← hrest, take_append_drop]
  · rw [stop, length_take_of_le hle]

theorem isSpace_of_mem_blanks (s : Lexer) : ∀ x ∈ s.blanks, isSpace x = true :=
  all_eq_true.mp all_takeWhile

theorem blanks_append_rest (s : Lexer) : s.cursor.rest = s.blanks ++ s.indented.rest := by
  have hpre : s.blanks <+: s.cursor.rest := takeWhile_prefix _
  have htake : s.cursor.rest.take s.blanks.length = s.blanks :=
    (prefix_iff_eq_take.mp hpre).symm
  have hsplit := take_append_drop s.blanks.length s.cursor.rest
  rw [htake, ← rest_advanceBy, ← indented] at hsplit
  exact hsplit.symm

theorem inComment_blanks (s : Lexer) : inComment s.blanks = false :=
  inComment_of_forall fun x hx => by
    rintro rfl
    cases isSpace_of_mem_blanks s _ hx

theorem passes_lineBreak (hnul : nul ∉ s.cursor.rest) (hrest : s.stop.rest = '\n' :: cs)
    (hbreaks : (0 < s.depth || s.last = .newline) = true) (hcursor : s'.cursor = s.stop.advance)
    (hdepth : s'.depth = s.depth) (hlast : s'.last = s.last) : Passes s [] s' := by
  obtain ⟨g, hsplit, hstop, hfiller⟩ := exists_filler hnul hrest
  have hrest' : s'.cursor.rest = cs := by rw [hcursor, rest_advance, hrest, tail_cons]
  refine .filler ?_ ?_ ?_ (inComment_newline g) (by simp) hdepth
    (hlast ▸ id)
  · rw [hsplit, hrest', append_assoc, cons_append, nil_append]
  · rw [hcursor, hstop, length_append]
    exact (advanceBy_add _ _ 1).symm
  · rw [hrest', hbreaks]
    exact (hfiller.mono nofun).append (.lineBreak rfl .nil)

/-- **What a step passes.** -/
theorem Stepped.passes (h : Stepped s ts ds s') (hnul : nul ∉ s.cursor.rest) : Passes s ts s' := by
  have hblanks : ∀ {breaks}, Filler breaks s.indented.rest s.blanks :=
    filler_of_isSpace (isSpace_of_mem_blanks s)
  cases h with
  | blank =>
    exact .filler (blanks_append_rest s) rfl hblanks (inComment_blanks s) (by simp) rfl id
  | indent _ _ hindent =>
    have haligns := aligns_of_indentTokens hindent
    refine .filler (blanks_append_rest s) rfl hblanks (inComment_blanks s) (fun t ht => ?_) rfl
      fun hlast => ?_
    · obtain ⟨k, -, rfl⟩ := haligns.mem ht
      rfl
    · cases hlast' : ts.getLast? with
      | none => rwa [lastKind, hlast'] at hlast
      | some t =>
        rw [lastKind, hlast'] at hlast
        obtain ⟨k, hk, rfl⟩ := haligns.mem (mem_of_getLast? hlast')
        obtain rfl : k = .newline := hlast
        exact absurd hk (by decide)
  | inside _ hrest hdepth =>
    exact passes_lineBreak hnul hrest (by simp [show 0 < s.depth from hdepth]) rfl rfl rfl
  | skip _ hrest _ hlast => exact passes_lineBreak hnul hrest (by simp [hlast]) rfl rfl rfl
  | @line _ cs hrest =>
    obtain ⟨g, hsplit, hstop, hfiller⟩ := exists_filler hnul hrest
    have hlexeme : "\n".toList = ['\n'] := by decide
    have hrest' : s.stop.advance.rest = cs := by rw [rest_advance, hrest, tail_cons]
    refine .token ?_ ?_ ?_ ?_ ?_ (by rw [hstop]) nofun rfl rfl
    · rw [hsplit, hlexeme, hrest', cons_append, nil_append]
    · rw [hlexeme, hstop]
      exact (advanceBy_add _ _ 1).symm
    · rwa [hlexeme, hrest', cons_append, nil_append]
    · rw [hlexeme, inComment_newline]
    · exact hlexeme ▸ cons_ne_nil _ _
  | @token _ c cs hrest _ hline t n hfront =>
    obtain ⟨g, hsplit, hstop, hfiller⟩ := exists_filler hnul hrest
    have ht := isFront (nul_notMem_stop hnul hrest) hfront
    have hrest' : (s.stop.advanceBy (n + 1)).rest = cs.drop n := by
      rw [rest_advanceBy, hrest, drop_succ_cons]
    have happend : t.lexeme.toList ++ cs.drop n = c :: cs := by
      rw [ht.lexeme, cons_append, take_append_drop]
    have hcomment := gap_stops hnul (by rw [← hrest, stop, rest_advanceBy]) hline
    refine .token ?_ ?_ ?_ ?_ ?_ (hstop ▸ ht.pos) (fun hword => ?_) rfl rfl
    · rw [hrest', happend, hsplit]
    · rw [hstop, ht.lexeme, length_cons, length_take_of_le ht.length]
      exact (advanceBy_add _ _ _).symm
    · rwa [hrest', happend]
    · rw [inComment_append (hfiller.inComment_eq hline), ht.inComment_eq hcomment]
    · exact ht.lexeme ▸ cons_ne_nil _ _
    · obtain ⟨hfirst, hothers, hend⟩ := ht.word hword
      rw [ht.lexeme, hrest']
      refine ⟨forall_mem_cons.mpr ⟨?_, hothers⟩, hend⟩
      rw [isWordChar, hfirst, Bool.true_or]

theorem Stopped.rest_stop (h : Stopped s) (hnul : nul ∉ s.cursor.rest) : s.stop.rest = [] := by
  cases hrest : s.stop.rest with
  | nil => rfl
  | cons c cs => exact absurd (h.rest c cs hrest ▸ mem_cons_self) (nul_notMem_stop hnul hrest)

theorem Stopped.filler (h : Stopped s) (hnul : nul ∉ s.cursor.rest) :
    Filler false [] s.cursor.rest := by
  have hfiller := filler_gap hnul
  have hdrop := h.rest_stop hnul
  rw [stop, rest_advanceBy] at hdrop
  rwa [hdrop, take_of_length_le (drop_eq_nil_iff.mp hdrop)] at hfiller

/-- A step passes a part of the text, and does not end inside a comment. -/
theorem Passes.exists_passed (h : Passes s ts s') :
    ∃ u, s.cursor.rest = u ++ s'.cursor.rest ∧ s'.cursor = s.cursor.advanceBy u.length ∧
      inComment u = false := by
  cases h with
  | filler split cursor _ closed => exact ⟨_, split, cursor, closed⟩
  | token split cursor _ closed =>
    exact ⟨_, by rw [split, append_assoc], by rw [cursor, length_append], closed⟩

theorem Stepped.nul_notMem (h : Stepped s ts ds s') (hnul : nul ∉ s.cursor.rest) :
    nul ∉ s'.cursor.rest := by
  obtain ⟨u, hsplit, -, -⟩ := (h.passes hnul).exists_passed
  exact fun hmem => hnul (hsplit ▸ mem_append_right u hmem)

end Lexer

end Sequencer
