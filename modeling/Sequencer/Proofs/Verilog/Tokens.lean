import Sequencer.Proofs.Verilog.Syntax

/-!
# Texts and their tokens

A text is cut wherever a word ends, so the tokens of a text that is put together are those of its
parts, unless a word goes on from one part to the next. A reader *takes* some tokens if it gets the
same value from them whatever follows; some readers have to look at what follows.
-/

namespace Sequencer.Verilog

open List
open Circuit

/-! ### Cutting texts -/

/-- A character that ends a word cuts a text into two. -/
theorem lex_append_cons {c : Char} (h : isApart c = true) (word s t : List Char) :
    lex word (s ++ c :: t) = lex word s ++ lex [] (c :: t) := by
  induction s generalizing word with
  | nil => simp [lex, h, ended]
  | cons d s ih =>
    rw [cons_append, lex, lex, ih, ih]
    split
    · rw [append_assoc (ended word ++ _)]
    · rfl

theorem lex_of_solid {t : List Char} (h : ∀ c ∈ t, isApart c = false) (word : List Char) :
    lex word t = ended (word ++ t) := by
  induction t generalizing word with
  | nil => rw [lex, append_nil]
  | cons c t ih =>
    rw [forall_mem_cons] at h
    rw [lex, h.1, if_neg Bool.false_ne_true, ih h.2, append_assoc]
    rfl

section Texts

variable {s t : String}

theorem tokens_append_right (s : String) (h : t.toList.head?.any isApart = true) :
    tokens (s ++ t) = tokens s ++ tokens t := by
  rw [tokens, tokens, tokens, String.toList_append]
  cases ht : t.toList with
  | nil => simp [ht] at h
  | cons c cs => exact lex_append_cons (by simpa [ht] using h) _ _ _

theorem tokens_append_left (t : String) (h : s.toList.getLast?.any isApart = true) :
    tokens (s ++ t) = tokens s ++ tokens t := by
  rw [tokens, tokens, tokens, String.toList_append]
  obtain ⟨c, hc, hapart⟩ := (Option.any_eq_true ..).mp h
  obtain ⟨cs, hs⟩ := getLast?_eq_some_iff.mp hc
  rw [hs, append_assoc, singleton_append, lex_append_cons hapart, lex_append_cons hapart,
    append_assoc]
  simp [lex, hapart, ended]

theorem tokens_append_between (s u : String) (h : t.toList.head?.any isApart = true) :
    tokens (s ++ (t ++ u)) = tokens s ++ tokens (t ++ u) := by
  refine tokens_append_right s ?_
  obtain ⟨c, hc, hapart⟩ := (Option.any_eq_true ..).mp h
  rw [String.toList_append, head?_append, hc]
  exact hapart

theorem tokens_empty_append (t : String) : tokens ("" ++ t) = tokens t := by
  rw [String.empty_append]

theorem tokens_line (level : Nat) (s t : String) :
    tokens (line level s ++ t) = tokens s ++ tokens t := by
  have htabs : ∀ u, tokens (String.ofList (replicate level '\t') ++ u) = tokens u := by
    intro u
    rw [tokens, String.toList_append, String.toList_ofList]
    induction level with
    | zero => rfl
    | succ level ih => exact ih
  rw [line, String.append_assoc, String.append_assoc, htabs,
    tokens_append_between (t := "\n") s t rfl, tokens_append_left (s := "\n") t rfl]
  rfl

theorem tokens_lastLine (level : Nat) (s : String) : tokens (line level s) = tokens s := by
  have h := tokens_line level s ""
  rw [String.append_empty] at h
  rw [h]
  exact append_nil _

/-- A text behind which a new word begins. -/
def Closed (s : String) : Prop := ∀ t, tokens (s ++ t) = tokens s ++ tokens t

theorem Closed.append (hs : Closed s) (ht : Closed t) : Closed (s ++ t) := by
  intro u
  rw [String.append_assoc, hs, hs, ht, append_assoc]

theorem closed_append_line (s : String) (level : Nat) (t : String) :
    Closed (s ++ line level t) := by
  refine fun u => tokens_append_left u ?_
  rw [line, String.toList_append, String.toList_append, ← append_assoc, getLast?_append]
  rfl

end Texts

/-! ### Readers -/

namespace Reader

/-- A reader gets a value from some tokens, if what follows them is as it should be. -/
def Reads {α : Type} (follow : List (List Char) → Prop) (r : Reader α) (ts : List (List Char))
    (a : α) : Prop :=
  ∀ rest, follow rest → r (ts ++ rest) = some (a, rest)

/-- A reader gets a value from some tokens, whatever follows them. -/
abbrev Takes {α : Type} (r : Reader α) (ts : List (List Char)) (a : α) : Prop :=
  Reads (fun _ => True) r ts a

variable {α β : Type} {P Q : List (List Char) → Prop} {r r' : Reader α} {f : α → Reader β}
  {ts us : List (List Char)} {a : α} {b : β} {ws : List String}

theorem Takes.reads (h : Takes r ts a) : Reads P r ts a := fun rest _ => h rest trivial

/-- Two readers in a row, if the first may stand before the tokens of the second. -/
theorem Reads.bind (hr : Reads P r ts a) (hf : Reads Q (f a) us b)
    (h : ∀ rest, Q rest → P (us ++ rest)) : Reads Q (r >>= f) (ts ++ us) b := by
  intro rest hrest
  rw [append_assoc]
  show (r (ts ++ (us ++ rest)) >>= fun p => f p.1 p.2) = _
  rw [hr _ (h rest hrest)]
  exact hf rest hrest

theorem Takes.bind (hr : Takes r ts a) (hf : Reads Q (f a) us b) :
    Reads Q (r >>= f) (ts ++ us) b :=
  Reads.bind hr hf fun _ _ => trivial

theorem Reads.map (hr : Reads P r ts a) {g : α → β} :
    Reads P (r >>= fun a => pure (g a)) ts (g a) :=
  append_nil ts ▸ hr.bind (fun _ _ => rfl) fun _ h => h

theorem Takes.map (hr : Takes r ts a) {g : α → β} :
    Reads P (r >>= fun a => pure (g a)) ts (g a) :=
  hr.reads.map

theorem reads_lift {o : Option α} (ho : o = some a) (hf : Reads Q (f a) us b) :
    Reads Q (liftM o >>= f) us b := by
  subst ho
  exact hf

theorem ahead_words (ws : List String) (ts : List (List Char)) : ahead ws (words ws ++ ts) = true :=
  isPrefixOf_iff_prefix.mpr (prefix_append _ _)

theorem ahead_iff : ahead ws ts = true ↔ ∃ rest, ts = words ws ++ rest := by
  rw [ahead, isPrefixOf_iff_prefix]
  exact exists_congr fun _ => eq_comm

theorem ahead_of_ne {x y : String} (h : x ≠ y) (ts : List (List Char)) :
    ahead [y] (words [x] ++ ts) = false := by
  show (y.toList == x.toList && true) = false
  rw [Bool.and_true, beq_eq_false_iff_ne, ne_eq, String.toList_inj]
  exact h.symm

theorem length_words (ws : List String) : (words ws).length = ws.length := length_map _

theorem takes_expect (ws : List String) : Takes (expect ws) (words ws) () := by
  intro rest _
  rw [expect, if_pos (ahead_words ws rest), ← length_words ws, drop_left]

theorem takes_token {g : List Char → Option α} {w : String} (h : g w.toList = some a) :
    Takes (token g) (words [w]) a := by
  intro rest _
  show (g w.toList).map (·, rest) = _
  rw [h]
  rfl

theorem reads_if_starts (h : ∀ rest, ahead ws (ts ++ rest) = true) (hr : Reads P r ts a) :
    Reads P (starts ws >>= fun b => if b = true then r else r') ts a := by
  intro rest hrest
  show (if ahead ws (ts ++ rest) = true then r else r') (ts ++ rest) = _
  rw [if_pos (h rest)]
  exact hr rest hrest

theorem reads_if_not_starts (h : ∀ rest, P rest → ahead ws (ts ++ rest) = false)
    (hr : Reads P r' ts a) : Reads P (starts ws >>= fun b => if b = true then r else r') ts a := by
  intro rest hrest
  show (if ahead ws (ts ++ rest) = true then r else r') (ts ++ rest) = _
  rw [h rest hrest]
  exact hr rest hrest

theorem reads_orElse_left (hr : Reads P r ts a) : Reads P (r <|> r') ts a := by
  intro rest hrest
  show (r (ts ++ rest) <|> r' (ts ++ rest)) = _
  rw [hr rest hrest]
  rfl

theorem reads_orElse_right (h : ∀ rest, r (ts ++ rest) = none) (hr : Reads P r' ts a) :
    Reads P (r <|> r') ts a := by
  intro rest hrest
  show (r (ts ++ rest) <|> r' (ts ++ rest)) = _
  rw [h rest]
  exact hr rest hrest

/-- The tokens of what may be missing, behind some words. -/
def optionTokens (ws : List String) (g : α → List (List Char)) (o : Option α) : List (List Char) :=
  o.elim [] fun a => words ws ++ g a

theorem reads_optional {g : α → List (List Char)} {o : Option α} (h : ∀ a ∈ o, Takes r (g a) a) :
    Reads (ahead ws · = false) (optional ws r) (optionTokens ws g o) o := by
  cases o with
  | none => exact reads_if_not_starts (fun _ h => h) fun _ _ => rfl
  | some a =>
    refine reads_if_starts (fun rest => ?_) ((takes_expect ws).bind (h a rfl).map)
    exact (append_assoc ..) ▸ ahead_words ws _

/-- What stands between some words is read, if it may stand before the last of them. -/
theorem takes_between {before after : List String} (hr : Reads (ahead after · = true) r ts a) :
    Takes (do expect before; let a ← r; expect after; return a)
      (words before ++ (ts ++ words after)) a :=
  (takes_expect before).bind
    (hr.bind (takes_expect after).map fun rest _ => ahead_words after rest)

theorem length_le_flatMap {g : α → List β} {as : List α} (h : a ∈ as) :
    (g a).length ≤ (as.flatMap g).length :=
  (sublist_flatten_of_mem (mem_map_of_mem h)).length_le

/-- Some of a kind are read, if what follows them is none and each may stand before it and before
the others. -/
theorem reads_many {g : α → List (List Char)} {as : List α} {n : Nat}
    (hn : (as.flatMap g).length < n) (hitem : ∀ a ∈ as, Reads P r (g a) a)
    (hfollow : ∀ a ∈ as, ∀ rest, P (g a ++ rest)) :
    Reads (fun rest => P rest ∧ r rest = none) (many r n) (as.flatMap g) as := by
  rintro rest ⟨hrest, hnone⟩
  induction as generalizing n with
  | nil =>
    cases n with
    | zero => exact absurd hn (Nat.not_lt_zero _)
    | succ n => rw [flatMap_nil, nil_append, many, hnone]
  | cons a as ih =>
    rw [forall_mem_cons] at hitem hfollow
    -- An item without tokens could be read where there is none.
    have hne : g a ≠ [] := by
      intro hnil
      have hread := hitem.1 rest hrest
      rw [hnil, nil_append, hnone] at hread
      cases hread
    have hnext : P (as.flatMap g ++ rest) := by
      cases as with
      | nil => exact hrest
      | cons b as =>
        rw [flatMap_cons, append_assoc]
        exact hfollow.2 b mem_cons_self _
    have hpos := length_pos_iff.mpr hne
    rw [flatMap_cons, length_append] at hn
    cases n with
    | zero => exact absurd hn (Nat.not_lt_zero _)
    | succ n =>
      rw [flatMap_cons, append_assoc, many, hitem.1 _ hnext]
      show (many r n (as.flatMap g ++ rest) >>= fun p => some (a :: p.1, p.2)) = _
      rw [ih (by omega) hitem.2 hfollow.2]
      rfl

end Reader

/-! ### Words -/

open Reader

variable {c : Char} {x : String}

/-- A text that is one word. -/
structure Solid (x : String) : Prop where
  ne : x.toList ≠ []
  inside : ∀ c ∈ x.toList, isApart c = false

theorem solid_assign : Solid "=" := ⟨nofun, forall_mem_singleton.mpr rfl⟩

theorem solid_update : Solid "<=" :=
  ⟨nofun, forall_mem_cons.mpr ⟨rfl, forall_mem_singleton.mpr rfl⟩⟩

theorem Solid.tokens (h : Solid x) : tokens x = words [x] := by
  rw [Verilog.tokens, lex_of_solid h.inside, nil_append, words, map_singleton]
  unfold ended
  split
  · exact absurd ‹_› h.ne
  · rfl

theorem Solid.ahead (h : Solid x) {y : String} (hy : y.toList.any isApart = true)
    (ts : List (List Char)) : ahead [y] (words [x] ++ ts) = false := by
  refine ahead_of_ne ?_ ts
  rintro rfl
  obtain ⟨c, hc, hapart⟩ := any_eq_true.mp hy
  rw [h.inside c hc] at hapart
  cases hapart

theorem isApart_of_letter (h : IsLetter c ∨ IsDigit c) : isApart c = false := by
  unfold isApart
  split <;> first | rfl | exact absurd h (by decide)

theorem Legal.solid (h : Legal x) : Solid x := by
  obtain ⟨⟨c, cs, hx, hc, hcs⟩, -⟩ := h
  refine ⟨by simp [hx], fun d hd => isApart_of_letter ?_⟩
  rw [hx] at hd
  obtain rfl | hd := mem_cons.mp hd
  · exact .inl hc
  · exact hcs d hd

theorem takes_name (h : Legal x) : Takes name (words [x]) x := by
  obtain ⟨⟨c, cs, hx, hc, hcs⟩, hkeyword⟩ := h
  have hlist : (words keywords).contains x.toList = false := by
    rw [Bool.eq_false_iff, ne_eq, contains_iff_mem]
    intro hmem
    obtain ⟨k, hk, heq⟩ := mem_map.mp hmem
    exact hkeyword (String.toList_inj.mp heq ▸ hk)
  have hall : x.toList.all (fun c => IsLetter c ∨ IsDigit c) = true := by
    simpa [hx, hc] using hcs
  have hhead : x.toList.head?.any (IsLetter ·) = true := by simp [hx, hc]
  refine takes_token ?_
  rw [hhead, hall, hlist, String.ofList_toList]
  rfl

theorem number_of_legal (h : Legal x) (ts : List (List Char)) :
    number (words [x] ++ ts) = none := by
  obtain ⟨⟨c, cs, hx, hc, -⟩, -⟩ := h
  have hdigit : c.isDigit = false := by
    rw [Bool.eq_false_iff]
    intro hd
    have hle := (isDigit_of_charIsDigit hd).2
    obtain h | h | rfl := hc
    · exact absurd (Char.le_trans h.1 hle) (by decide)
    · exact absurd (Char.le_trans h.1 hle) (by decide)
    · exact absurd hle (by decide)
  have hnot : natural? x.toList = none := by simp [natural?, hx, hdigit]
  show ((natural? x.toList).map (·, ts) >>= _) = none
  rw [hnot]
  rfl

theorem toList_toString (n : Nat) : (toString n).toList = Nat.toDigits 10 n := by
  rw [Nat.toString_eq_ofList_toDigits, String.toList_ofList]

theorem isDigit_of_mem_toString {n : Nat} (h : c ∈ (toString n).toList) : c.isDigit = true := by
  rw [toList_toString] at h
  exact Nat.isDigit_of_mem_toDigits (by decide) (by decide) h

theorem solid_toString (n : Nat) : Solid (toString n) where
  ne := by
    rw [toList_toString]
    exact Nat.toDigits_ne_nil
  inside := fun _ hc =>
    isApart_of_letter (.inr (isDigit_of_charIsDigit (isDigit_of_mem_toString hc)))

theorem natural?_toString (n : Nat) : natural? (toString n).toList = some n := by
  have hdigits : (toString n).toList.all Char.isDigit = true :=
    all_eq_true.mpr fun c hc => isDigit_of_mem_toString hc
  rw [natural?, hdigits, toList_toString, Nat.ofDigitChars_ten_toDigits]
  simp [Nat.toDigits_ne_nil]

theorem takes_natural (n : Nat) : Takes (token natural?) (words [toString n]) n :=
  takes_token (natural?_toString n)

theorem tokens_number (width : Nat) (v : UInt64) : tokens (Number.text ⟨width, v⟩) =
    words [toString width] ++ (words ["'"] ++ words ["d" ++ toString v.toNat]) := by
  have hvalue : Solid ("d" ++ toString v.toNat) := by
    refine ⟨by simp, fun c hc => ?_⟩
    rw [String.toList_append] at hc
    obtain rfl | hc := mem_cons.mp hc
    · rfl
    · exact (solid_toString _).inside c hc
  have hsplit : Number.text ⟨width, v⟩ = toString width ++ ("'" ++ "d") ++ toString v.toNat := rfl
  simp (disch := decide) only [hsplit, String.append_assoc, tokens_append_left,
    tokens_append_between, (solid_toString width).tokens, hvalue.tokens]
  rfl

theorem takes_number {k : Number} (h : 0 ≤ k.width) : Takes number (tokens k.text) k := by
  obtain ⟨width, v⟩ := k
  obtain ⟨width, rfl⟩ := Int.eq_ofNat_of_zero_le h
  rw [tokens_number]
  have hvalue : Takes (token fun t => if t.head? = some 'd' then natural? t.tail else none)
      (words ["d" ++ toString v.toNat]) v.toNat := by
    refine takes_token ?_
    rw [String.toList_append]
    exact natural?_toString v.toNat
  refine (takes_natural width).bind ((takes_expect ["'"]).bind
    (append_nil (words _) ▸ hvalue.bind ?_))
  rw [if_pos v.toNat_lt, UInt64.ofNat_toNat]
  exact fun _ _ => rfl

theorem takes_operator {op : Op} (h : ∀ code, op ≠ .unknown code) :
    tokens op.symbol = words [op.symbol] ∧ Takes operator (words [op.symbol]) op ∧
      ∀ ts, ahead ["["] (words [op.symbol] ++ ts) = false := by
  cases op with
  | unknown code => exact absurd rfl (h code)
  | _ => exact ⟨rfl, takes_token rfl, fun _ => rfl⟩

end Sequencer.Verilog
