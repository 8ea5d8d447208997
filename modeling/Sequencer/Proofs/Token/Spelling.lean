import Mathlib.Tactic.Common
import Sequencer.Token.Lexer

/-!
# The spelling of tokens

`Spelled` says which lexemes belong to a kind. The lexer takes a spelled token from the front of a
text, provided that what follows cannot belong to it.
-/

namespace Sequencer.Token

open List Text.Numeral

/-! ### Keywords -/

theorem isSome_lookup_iff {α : Type} {l : List (String × α)} {k : String} :
    (l.lookup k).isSome ↔ k ∈ l.map Prod.fst := by
  rw [← not_iff_not, Bool.not_eq_true, Option.isSome_eq_false_iff, Option.isNone_iff_eq_none,
    lookup_eq_none_iff]
  simp only [bne_iff_ne, ne_eq, mem_map, not_exists, not_and]
  exact forall₂_congr fun p _ => not_congr eq_comm

theorem kindOfWord_eq_ident_iff {name : String} :
    kindOfWord name = .ident ↔ name ∉ keywords.map Prod.fst := by
  rw [← isSome_lookup_iff, Bool.not_eq_true, Option.isSome_eq_false_iff, Option.isNone_iff_eq_none]
  constructor
  · intro h
    by_contra hne
    obtain ⟨k, hk⟩ := Option.ne_none_iff_exists'.mp hne
    obtain ⟨l₁, l₂, hl, -⟩ := lookup_eq_some_iff.mp hk
    have hmem : (name, k) ∈ keywords := by simp [hl]
    have hall : ∀ p ∈ keywords, p.2 ≠ .ident := by decide
    rw [kindOfWord, hk] at h
    exact hall _ hmem h
  · intro h
    rw [kindOfWord, h]
    rfl

theorem kindOfWord_mem (word : String) : kindOfWord word ∈ .ident :: keywords.map Prod.snd := by
  rw [kindOfWord]
  cases h : keywords.lookup word with
  | none => exact mem_cons_self
  | some k =>
    obtain ⟨l₁, l₂, hl, -⟩ := lookup_eq_some_iff.mp h
    exact mem_cons_of_mem _ (mem_map_of_mem (hl ▸ mem_append_right _ mem_cons_self))

/-! ### Kinds and lexemes -/

abbrev Bare : Type := Kind × String

def bare (t : Token) : Bare := (t.kind, t.lexeme)

/-- The operators and brackets: the first character, what follows it, and the kind. -/
def symbols : List (Char × List Char × Kind) :=
  [(',', [], .comma), ('.', [], .dot), (':', [], .colon), ('(', [], .lparen), (')', [], .rparen),
    ('[', [], .lbracket), (']', [], .rbracket), ('+', [], .plus), ('-', [], .minus),
    ('*', [], .star), ('/', [], .slash), ('%', [], .percent), ('|', [], .pipe), ('^', [], .caret),
    ('&', [], .amp), ('~', [], .tilde), ('!', ['='], .notEq), ('=', ['='], .eq), ('=', [], .assign),
    ('<', ['='], .ltEq), ('<', ['<'], .shl), ('<', [], .lt), ('>', ['='], .gtEq),
    ('>', ['>'], .shr), ('>', [], .gt)]

def spellings : List (String × Kind) :=
  keywords ++ symbols.map fun (c, cs, k) => (String.ofList (c :: cs), k)

def Kind.spelling (k : Kind) : String := ((spellings.find? (·.2 = k)).map Prod.fst).getD ""

/-- A word: it starts with a letter or an underscore, and digits may follow. -/
def IsWord (w : String) : Prop :=
  ∃ c cs, w.toList = c :: cs ∧ isWordStart c = true ∧ ∀ x ∈ cs, isWordChar x = true

instance : DecidablePred IsWord := fun w =>
  match h : w.toList with
  | [] => isFalse fun ⟨_, _, hw, _⟩ => by simp [h] at hw
  | c :: cs => decidable_of_iff (isWordStart c = true ∧ cs.all isWordChar = true) (by
      simp [IsWord, h])

/-- The spelling of a number literal: digits, or a base mark and the digits of any base up to
sixteen. Underscores may stand among them. -/
def IsNumber (w : String) : Prop :=
  ∃ c cs, w.toList = c :: cs ∧ isDigit c = true ∧
    ((∀ x ∈ cs, isDigit x = true ∨ x = '_') ∨
      c = '0' ∧ ∃ m ds, cs = m :: ds ∧ isBaseMark m = true ∧
        ∀ x ∈ ds, isHexDigit x = true ∨ x = '_')

/-- A lexeme that belongs to a kind. -/
inductive Spelled : Kind → String → Prop
  | name {w : String} (word : IsWord w) (free : w ∉ keywords.map Prod.fst) : Spelled .ident w
  | number {w : String} (number : IsNumber w) : Spelled .int w
  | fixed {k : Kind} {w : String} (only : (w, k) ∈ spellings) : Spelled k w

/-! ### What ends a token -/

/-- The characters that belong to no token that has begun before them. -/
def delimiters : List Char := [' ', '\n', ',', '.', ':', '(', ')', '[', ']']

@[inherit_doc delimiters]
def isDelimiter (c : Char) : Bool := delimiters.contains c

def Kind.isClosing : Kind → Bool
  | comma | dot | colon | lparen | rparen | lbracket | rbracket => true
  | _ => false

def Kind.isOpening : Kind → Bool
  | dot | lparen | lbracket | plus | minus | tilde => true
  | _ => false

/-- A text can follow a token of the given kind without a blank. -/
def Ends (k : Kind) (rest : List Char) : Prop :=
  k.isOpening = true ∨ ∃ x xs, rest = x :: xs ∧ isDelimiter x = true

variable {x c : Char} {cs rest : List Char} {w : String} {k : Kind}

theorem of_isDelimiter {P : Char → Bool} (h : delimiters.all P = true) (hx : isDelimiter x = true) :
    P x = true :=
  all_eq_true.mp h x (contains_iff_mem.mp hx)

theorem of_isBaseMark {P : Char → Bool} (h : ['x', 'X', 'o', 'O', 'b', 'B'].all P = true)
    (hx : isBaseMark x = true) : P x = true := by
  refine all_eq_true.mp h x ?_
  simpa [isBaseMark, or_assoc] using hx

/-! ### Single tokens -/

theorem isWordStart_of_isDigit (h : isDigit c = true) : isWordStart c = false := by
  simp only [isDigit, Bool.and_eq_true, decide_eq_true_eq, Char.le_def, UInt32.le_iff_toNat_le] at h
  have hlow : 48 ≤ c.toNat := h.1
  have hhigh : c.toNat ≤ 57 := h.2
  have hall : ∀ n < 58, 48 ≤ n → isWordStart (Char.ofNat n) = false := by decide
  rw [← Char.ofNat_toNat c]
  exact hall c.toNat (by omega) hlow

section Delimited

variable (hrest : ∃ x xs, rest = x :: xs ∧ isDelimiter x = true)

include hrest

theorem takeWhile_append_delimiter {p : Char → Bool} (hp : delimiters.all (fun x => !p x) = true)
    (hcs : ∀ x ∈ cs, p x = true) : (cs ++ rest).takeWhile p = cs := by
  obtain ⟨x, xs, rfl, hx⟩ := hrest
  have hstop : p x = false := by simpa using of_isDelimiter hp hx
  rw [takeWhile_append_of_pos hcs, takeWhile_cons_of_neg (by simp [hstop]),
    append_nil]

theorem run_delimiter : run (cs ++ rest) cs.length = cs := by
  obtain ⟨x, xs, rfl, hx⟩ := hrest
  have hnul : x ≠ nul := bne_iff_ne.mp (of_isDelimiter (P := (· != nul)) (by decide) hx)
  simp [run, hnul]

theorem lexeme_eq (hw : w.toList = c :: cs) :
    String.ofList (run (c :: (cs ++ rest)) (cs.length + 1)) = w := by
  rw [← cons_append, ← length_cons, run_delimiter hrest, ← hw, String.ofList_toList]

theorem front_word (h : IsWord w) (pos : Position) : ∃ c cs, w.toList = c :: cs ∧
    front pos c (cs ++ rest) = (⟨kindOfWord w, w, pos⟩, cs.length) := by
  obtain ⟨c, cs, hw, hc, hcs⟩ := h
  have hdigit : isDigit c = false := by
    by_contra hd
    rw [isWordStart_of_isDigit (Bool.not_eq_false _ ▸ hd)] at hc
    cases hc
  have htake : (cs ++ rest).takeWhile isWordChar = cs :=
    takeWhile_append_delimiter hrest (by decide) hcs
  refine ⟨c, cs, hw, ?_⟩
  simp only [front, hdigit, hc, htake, lexeme_eq hrest hw, if_true, Bool.false_eq_true, if_false]

/-- The digits of a decimal literal. No base mark can come after them: it is no digit, no underscore
and no delimiter. -/
theorem numberTail_decimal (hcs : ∀ x ∈ cs, isDigit x = true ∨ x = '_') :
    numberTail c (cs ++ rest) = cs.length := by
  have htake : (cs ++ rest).takeWhile (fun d => isDigit d || d = '_') = cs :=
    takeWhile_append_delimiter hrest (by decide) (by simpa using hcs)
  have hmark : ∀ x ∈ (cs ++ rest).head?, isBaseMark x = false := by
    intro x hx
    by_contra hbase
    have hother := of_isBaseMark (P := fun x => !isDigit x && x != '_' && !isDelimiter x)
      (by decide) (Bool.not_eq_false _ ▸ hbase)
    simp only [Bool.and_eq_true, Bool.not_eq_true', bne_iff_ne] at hother
    obtain ⟨⟨hdigit, hunder⟩, hdelim⟩ := hother
    obtain ⟨y, ys, rfl, hy⟩ := hrest
    cases cs with
    | nil =>
      obtain rfl : y = x := Option.some.inj hx
      simp [hdelim] at hy
    | cons z zs =>
      obtain rfl : z = x := Option.some.inj hx
      obtain hz | hz := hcs z mem_cons_self
      · simp [hdigit] at hz
      · exact hunder hz
  cases hall : cs ++ rest with
  | nil =>
    rw [hall] at htake
    rw [← htake]
    rfl
  | cons x xs =>
    rw [hall] at htake hmark
    simp only [numberTail, hmark x rfl, Bool.and_false, Bool.false_eq_true, if_false, htake]

theorem numberTail_based {m : Char} (hm : isBaseMark m = true) {ds : List Char}
    (hds : ∀ x ∈ ds, isHexDigit x = true ∨ x = '_') :
    numberTail '0' (m :: ds ++ rest) = ds.length + 1 := by
  have htake : (ds ++ rest).takeWhile (fun d => isHexDigit d || d = '_') = ds :=
    takeWhile_append_delimiter hrest (by decide) (by simpa using hds)
  simp [numberTail, hm, htake]

theorem front_number (h : IsNumber w) (pos : Position) :
    ∃ c cs, w.toList = c :: cs ∧ front pos c (cs ++ rest) = (⟨.int, w, pos⟩, cs.length) := by
  obtain ⟨c, cs, hw, hc, hcs⟩ := h
  have hlength : numberTail c (cs ++ rest) = cs.length := by
    obtain hcs | ⟨rfl, m, ds, rfl, hm, hds⟩ := hcs
    · exact numberTail_decimal hrest hcs
    · exact numberTail_based hrest hm hds
  refine ⟨c, cs, hw, ?_⟩
  simp only [front, hc, hlength, lexeme_eq hrest hw, if_true]

end Delimited

theorem keywords_spelled : ∀ p ∈ keywords, IsWord p.1 ∧ kindOfWord p.1 = p.2 ∧
    p.2.isOpening = false := by
  decide

theorem symbols_separate : ∀ p ∈ symbols, isDigit p.1 = false ∧ isWordStart p.1 = false := by
  decide

theorem symbol?_opening (rest : List Char) : ∀ p ∈ symbols, p.2.2.isOpening = true →
    symbol? p.1 (p.2.1 ++ rest) = some (p.2.2, p.2.1.length) := by
  simp [symbols, symbol?, Kind.isOpening]

theorem symbol?_stopped (heq : rest.head? ≠ some '=') (hlt : rest.head? ≠ some '<')
    (hgt : rest.head? ≠ some '>') :
    ∀ p ∈ symbols, symbol? p.1 (p.2.1 ++ rest) = some (p.2.2, p.2.1.length) := by
  simp [symbols, symbol?, heq, hlt, hgt]

theorem mem_symbols_of_symbol? {n : Nat} (h : symbol? c cs = some (k, n)) :
    ∃ ds, (c, ds, k) ∈ symbols ∧ ds.length = n ∧ ds <+: cs := by
  have htwo : ∀ {k d}, cs.head? = some d → (c, [d], k) ∈ symbols →
      ∃ ds, (c, ds, k) ∈ symbols ∧ ds.length = 1 ∧ ds <+: cs := by
    intro k d hhead hmem
    obtain ⟨ds, rfl⟩ := head?_eq_some_iff.mp hhead
    exact ⟨[d], hmem, rfl, ds, rfl⟩
  unfold symbol? at h
  split at h
  case h_17 | h_18 =>
    split at h
    · cases h
      exact htwo ‹_› (by decide)
    · cases h <;> exact ⟨[], by decide, rfl, nil_prefix⟩
  case h_19 | h_20 =>
    split at h
    · cases h
      exact htwo ‹_› (by decide)
    · split at h
      · cases h
        exact htwo ‹_› (by decide)
      · cases h
        exact ⟨[], by decide, rfl, nil_prefix⟩
  all_goals
    cases h
    try exact ⟨[], by decide, rfl, nil_prefix⟩

theorem front_symbol {p : Char × List Char × Kind} (hp : p ∈ symbols) (pos : Position)
    (hrest : Ends p.2.2 rest) :
    front pos p.1 (p.2.1 ++ rest) = (⟨p.2.2, String.ofList (p.1 :: p.2.1), pos⟩, p.2.1.length) := by
  have hsymbol : symbol? p.1 (p.2.1 ++ rest) = some (p.2.2, p.2.1.length) := by
    obtain hopen | ⟨x, xs, rfl, hx⟩ := hrest
    · exact symbol?_opening rest p hp hopen
    · have hother := of_isDelimiter (P := fun x => x != '=' && x != '<' && x != '>') (by decide) hx
      simp only [Bool.and_eq_true, bne_iff_ne] at hother
      obtain ⟨⟨heq, hlt⟩, hgt⟩ := hother
      exact symbol?_stopped (by simpa using heq) (by simpa using hlt) (by simpa using hgt) p hp
  obtain ⟨hdigit, hword⟩ := symbols_separate p hp
  simp [front, hdigit, hword, hsymbol]

theorem front_fixed (h : (w, k) ∈ spellings) (pos : Position) (hrest : Ends k rest) :
    ∃ c cs, w.toList = c :: cs ∧ front pos c (cs ++ rest) = (⟨k, w, pos⟩, cs.length) := by
  obtain hkey | hsymbol := mem_append.mp h
  · obtain ⟨hword, hkind, hopen⟩ := keywords_spelled _ hkey
    obtain ⟨c, cs, hw, hfront⟩ := front_word (hrest.resolve_left (by simp [hopen])) hword pos
    exact ⟨c, cs, hw, by rw [hfront, hkind]⟩
  · obtain ⟨p, hp, heq⟩ := mem_map.mp hsymbol
    obtain ⟨rfl, rfl⟩ := Prod.mk.inj heq
    exact ⟨p.1, p.2.1, String.toList_ofList, front_symbol hp pos hrest⟩

/-- **A spelled token is taken from the front of a text**, if the rest does not continue it. -/
theorem front_of_spelled (h : Spelled k w) (pos : Position) (hrest : Ends k rest) :
    ∃ c cs, w.toList = c :: cs ∧ front pos c (cs ++ rest) = (⟨k, w, pos⟩, cs.length) := by
  cases h with
  | name word free =>
    obtain ⟨c, cs, hw, hfront⟩ := front_word (hrest.resolve_left (by decide)) word pos
    exact ⟨c, cs, hw, kindOfWord_eq_ident_iff.mpr free ▸ hfront⟩
  | number number => exact front_number (hrest.resolve_left (by decide)) number pos
  | fixed only => exact front_fixed only pos hrest

/-- A character that can start a token: no white space, no line break, no comment and no line
joint. -/
def isLead (c : Char) : Bool :=
  !(isSpace c || c = '\n' || c = '#' || c = nul || c = '\\')

theorem isLead_iff :
    isLead c = true ↔ isSpace c = false ∧ c ≠ '\n' ∧ c ≠ '#' ∧ c ≠ nul ∧ c ≠ '\\' := by
  simp [isLead, and_assoc]

theorem isLead_of_class {p : Char → Bool}
    (h : [' ', '\t', '\r', Char.ofNat 12, '\n', '#', nul, '\\'].any p = false) (hc : p c = true) :
    isLead c = true := by
  by_contra hlead
  simp only [isLead, isSpace, Bool.not_eq_true, Bool.not_eq_false', Bool.or_eq_true,
    decide_eq_true_eq] at hlead
  have hmem : c ∈ [' ', '\t', '\r', Char.ofNat 12, '\n', '#', nul, '\\'] := by
    simpa [or_assoc] using hlead
  exact absurd hc (any_eq_false.mp h c hmem)

theorem isLead_of_spelled (h : Spelled k w) (hw : w.toList = c :: cs) : isLead c = true := by
  have hword : IsWord w → isLead c = true := by
    rintro ⟨x, xs, hx, hstart, -⟩
    obtain ⟨rfl, -⟩ := cons.inj (hw.symm.trans hx)
    exact isLead_of_class (by decide) hstart
  cases h with
  | name word free => exact hword word
  | number number =>
    obtain ⟨x, xs, hx, hdigit, -⟩ := number
    obtain ⟨rfl, -⟩ := cons.inj (hw.symm.trans hx)
    exact isLead_of_class (by decide) hdigit
  | fixed only =>
    obtain hkey | hsymbol := mem_append.mp only
    · exact hword (keywords_spelled _ hkey).1
    · obtain ⟨p, hp, heq⟩ := mem_map.mp hsymbol
      obtain ⟨rfl, -⟩ := Prod.mk.inj heq
      rw [String.toList_ofList] at hw
      obtain ⟨rfl, -⟩ := cons.inj hw
      exact (by decide : ∀ p ∈ symbols, isLead p.1 = true) p hp

theorem exists_lead (h : Spelled k w) : ∃ c cs, w.toList = c :: cs ∧ isLead c = true := by
  have hends : Ends k ['\n'] := .inr ⟨'\n', [], rfl, rfl⟩
  obtain ⟨c, cs, hw, -⟩ := front_of_spelled h ⟨0, 0⟩ hends
  exact ⟨c, cs, hw, isLead_of_spelled h hw⟩

theorem kind_of_spelled (h : Spelled k w) : k ≠ .newline ∧ k ≠ .illegal := by
  cases h with
  | name => decide
  | number => decide
  | fixed only => exact (by decide : ∀ p ∈ spellings, p.2 ≠ .newline ∧ p.2 ≠ .illegal) _ only

theorem isDelimiter_of_spelled (h : Spelled k w) (hk : k.isClosing = true)
    (hw : w.toList = c :: cs) : isDelimiter c = true := by
  cases h with
  | name => cases hk
  | number => cases hk
  | fixed only =>
    obtain hkey | hsymbol := mem_append.mp only
    · have hnone : ∀ p ∈ keywords, p.2.isClosing = false := by decide
      rw [hnone _ hkey] at hk
      cases hk
    · obtain ⟨p, hp, heq⟩ := mem_map.mp hsymbol
      obtain ⟨rfl, rfl⟩ := Prod.mk.inj heq
      rw [String.toList_ofList] at hw
      obtain ⟨rfl, -⟩ := cons.inj hw
      exact (by decide : ∀ p ∈ symbols, p.2.2.isClosing = true → isDelimiter p.1 = true) p hp hk

/-! ### Number literals -/

theorem forall_digit_of_value {base acc n : Nat} {ds : List Char} (h : value base acc ds = .ok n) :
    ∀ x ∈ ds, x = '_' ∨ ∃ d, digit? x = some d ∧ d < base := by
  induction ds generalizing acc with
  | nil => simp
  | cons c cs ih =>
    rw [value] at h
    rw [forall_mem_cons]
    split at h
    · rename_i hc
      exact ⟨.inl hc, ih h⟩
    · split at h
      · cases h
      · rename_i d hd
        split at h
        · cases h
        · rename_i hlt
          split at h
          · cases h
          · exact ⟨.inr ⟨d, hd, Nat.lt_of_not_le hlt⟩, ih h⟩

theorem isDigit_of_digit? {d : Nat} (h : digit? x = some d) (hd : d < 10) : isDigit x = true := by
  unfold digit? at h
  split at h
  · rename_i hx
    exact hx
  · split at h
    · cases h
      omega
    · split at h
      · cases h
        omega
      · cases h

theorem isHexDigit_of_digit? {d : Nat} (h : digit? x = some d) (hd : d < 16) :
    isHexDigit x = true := by
  unfold digit? at h
  simp only [isHexDigit, isDigit, Bool.or_eq_true, Bool.and_eq_true, decide_eq_true_eq, Char.le_def,
    UInt32.le_iff_toNat_le] at h ⊢
  split at h
  · rename_i hx
    exact .inl (.inl hx)
  · split at h
    · rename_i hx
      have hd' := Option.some.inj h
      have hval : x.val.toNat = x.toNat := rfl
      have hf : 'f'.val.toNat = 102 := rfl
      have ha' : 'a'.toNat = 97 := rfl
      exact .inl (.inr ⟨hx.1, by omega⟩)
    · split at h
      · rename_i hx
        have hd' := Option.some.inj h
        have hval : x.val.toNat = x.toNat := rfl
        have hf : 'F'.val.toNat = 70 := rfl
        have ha' : 'A'.toNat = 65 := rfl
        exact .inr ⟨hx.1, by omega⟩
      · cases h

/-- A literal has a base mark and digits behind it, or digits in any case. -/
theorem split_cases (c : Char) (cs : List Char) :
    (c = '0' ∧ ∃ m ds base, cs = m :: ds ∧ isBaseMark m = true ∧ base ≤ 16 ∧
      split (c :: cs) = (base, true, ds)) ∨
    ∃ base ds, base ≤ 10 ∧ split (c :: cs) = (base, false, ds) ∧ cs ⊆ ds := by
  unfold split
  split
  · rename_i m d ds heq
    obtain ⟨rfl, rfl⟩ := cons.inj heq
    simp only [isBaseMark, Bool.or_eq_true, decide_eq_true_eq]
    split
    · exact .inl ⟨trivial, m, d :: ds, 2, rfl, by tauto, by decide, rfl⟩
    · split
      · exact .inl ⟨trivial, m, d :: ds, 8, rfl, by tauto, by decide, rfl⟩
      · split
        · exact .inl ⟨trivial, m, d :: ds, 16, rfl, by tauto, by decide, rfl⟩
        · exact .inr ⟨8, _, by decide, rfl, Subset.refl _⟩
  · rename_i ds _ heq
    obtain ⟨rfl, rfl⟩ := cons.inj heq
    exact .inr ⟨8, _, by decide, rfl, Subset.refl _⟩
  · exact .inr ⟨10, _, by decide, rfl, subset_cons_self _ _⟩

/-- **A literal with a value is spelled like a number.** -/
theorem isNumber_of_unsigned (hw : w.toList = c :: cs) (hc : isDigit c = true) {n : Nat}
    (h : unsigned (c :: cs) = .ok n) : IsNumber w := by
  refine ⟨c, cs, hw, hc, ?_⟩
  have hvalue : ∃ n, value (split (c :: cs)).1 0
      (split (c :: cs)).2.2 = .ok n := by
    simp only [unsigned, isEmpty_cons, Bool.false_eq_true, if_false] at h
    split at h
    · cases h
    · rename_i n hn
      exact ⟨n, hn⟩
  obtain ⟨n, hn⟩ := hvalue
  have hall := forall_digit_of_value hn
  obtain ⟨rfl, m, ds, base, rfl, hm, hbase, hsplit⟩ | ⟨base, ds, hbase, hsplit, hsub⟩ :=
    split_cases c cs
  · rw [hsplit] at hall
    refine .inr ⟨rfl, m, ds, rfl, hm, fun x hx => ?_⟩
    obtain hx | ⟨d, hd, hlt⟩ := hall x hx
    · exact .inr hx
    · exact .inl (isHexDigit_of_digit? hd (Nat.lt_of_lt_of_le hlt hbase))
  · rw [hsplit] at hall
    refine .inl fun x hx => ?_
    obtain hx | ⟨d, hd, hlt⟩ := hall x (hsub hx)
    · exact .inr hx
    · exact .inl (isDigit_of_digit? hd (Nat.lt_of_lt_of_le hlt hbase))

theorem isNumber_of_signed {v : Int64} (hw : ∃ c cs, w.toList = c :: cs ∧ isDigit c = true)
    (h : signed w.toList = .ok v) : IsNumber w := by
  obtain ⟨c, cs, hw, hc⟩ := hw
  have hsign : c ≠ '-' ∧ c ≠ '+' := by
    constructor <;> rintro rfl <;> cases hc
  have hunsigned : ∃ n, unsigned (c :: cs) = .ok n := by
    rw [hw] at h
    cases hn : unsigned (c :: cs) with
    | ok n => exact ⟨n, rfl⟩
    | error e => simp [signed, hsign.1, hsign.2, hn] at h
  obtain ⟨n, hn⟩ := hunsigned
  exact isNumber_of_unsigned hw hc hn

end Sequencer.Token
