import Mathlib.Data.List.Chain
import Sequencer.Proofs.Token.Continuation

/-!
# Indented blocks are closed

The lexer keeps the widths of the open blocks on a stack, and each push and pop is a token.
`alignStack` is the same algorithm on a stack that can run empty, and it never does.
-/

namespace Sequencer

open List Token Lexer
open Token (Kind)

namespace Token

/-! ### Counting blocks -/

def opened (ts : List Token) : Nat := ts.countP (·.kind = .indent)

def closed (ts : List Token) : Nat := ts.countP (·.kind = .dedent)

/-- Some tokens lead from a number of open blocks to another, and close none that is not open. -/
inductive Levels : Nat → List Token → Nat → Prop
  | nil (n : Nat) : Levels n [] n
  | indent {n m : Nat} {t : Token} {ts : List Token} (h : t.kind = .indent)
      (rest : Levels (n + 1) ts m) : Levels n (t :: ts) m
  | dedent {n m : Nat} {t : Token} {ts : List Token} (h : t.kind = .dedent)
      (rest : Levels n ts m) : Levels (n + 1) (t :: ts) m
  | other {n m : Nat} {t : Token} {ts : List Token} (h : t.kind ≠ .indent ∧ t.kind ≠ .dedent)
      (rest : Levels n ts m) : Levels n (t :: ts) m

namespace Levels

variable {n m l : Nat} {ts us : List Token}

theorem append (h : Levels n ts m) (h' : Levels m us l) : Levels n (ts ++ us) l := by
  induction h with
  | nil => exact h'
  | indent h _ ih => exact .indent h (ih h')
  | dedent h _ ih => exact .dedent h (ih h')
  | other h _ ih => exact .other h (ih h')

theorem exists_of_append (h : Levels n (ts ++ us) m) : ∃ l, Levels n ts l := by
  induction ts generalizing n with
  | nil => exact ⟨n, .nil n⟩
  | cons t ts ih =>
    cases h with
    | indent h rest => exact (ih rest).imp fun _ => .indent h
    | dedent h rest => exact (ih rest).imp fun _ => .dedent h
    | other h rest => exact (ih rest).imp fun _ => .other h

theorem total (h : Levels n ts m) : n + opened ts = m + closed ts := by
  induction h with
  | nil => rfl
  | indent h _ ih | dedent h _ ih =>
    simp only [opened, closed, countP_cons, h] at ih ⊢
    simp at ih ⊢
    omega
  | other h _ ih => simpa [opened, closed, countP_cons, h] using ih

theorem dedents (l : List Nat) (pos : Position) :
    Levels (l.length + n) (l.map fun _ => ⟨.dedent, "", pos⟩) n := by
  induction l with
  | nil =>
    rw [length_nil, Nat.zero_add]
    exact .nil n
  | cons w l ih =>
    rw [length_cons, Nat.add_right_comm]
    exact .dedent rfl ih

end Levels

end Token

open Token (opened closed nestAll Levels)

namespace Lexer

/-! ### The stack -/

/-- Pop what is wider than a line off a stack, or run empty. -/
def popStack (width : Nat) (pos : Position) : List Nat → Option (List Token × List Nat)
  | [] => none
  | top :: stack =>
    if width < top then (popStack width pos stack).map fun o => (⟨.dedent, "", pos⟩ :: o.1, o.2)
    else some ([], top :: stack)

/-- The indentation tokens of a line, on a stack of widths that can run empty. -/
def alignStack (stack : List Nat) (width : Nat) (pos : Position) :
    Option (List Token × List Diagnostic × List Nat) := do
  let top ← stack.head?
  if top < width then return ([⟨.indent, "", pos⟩], [], width :: stack)
  let (tokens, stack) ← popStack width pos stack
  let top ← stack.head?
  if top = width then return (tokens, [], stack)
  return (tokens ++ [⟨.illegal, "", pos⟩], [⟨pos, .unalignedDedent⟩], stack)

theorem popStack_eq (indents : List Nat) (width : Nat) (pos : Position) :
    popStack width pos (indents ++ [0]) =
      some ((indents.takeWhile (width < ·)).map fun _ => ⟨.dedent, "", pos⟩,
        indents.dropWhile (width < ·) ++ [0]) := by
  induction indents with
  | nil => rfl
  | cons w ws ih =>
    rw [cons_append, popStack, ih]
    by_cases h : width < w <;> simp [h]

/-- The top of the stack can always be read and popped. -/
theorem alignStack_eq (indents : List Nat) (width : Nat) (pos : Position) :
    alignStack (indents ++ [0]) width pos =
      some ((indentTokens indents width pos).1, (indentTokens indents width pos).2.1,
        (indentTokens indents width pos).2.2 ++ [0]) := by
  have hhead : ∀ l : List Nat, (l ++ [0]).head? = some (l.headD 0) := by
    intro l
    cases l <;> rfl
  simp only [alignStack, hhead, popStack_eq, indentTokens, Option.pure_def, Option.bind_eq_bind,
    Option.bind_some]
  split
  · rfl
  · split <;> rfl

/-! ### Steps -/

/-- The kinds of two tokens that do not both end a line. -/
def Apart (k k' : Kind) : Prop := ¬(k = .newline ∧ k' = .newline)

variable {s s' : Lexer} {ts : List Token} {ds : List Diagnostic}

theorem Aligns.sorted {indents indents' : List Nat} {width : Nat} {pos : Position}
    (h : Aligns indents width pos ts ds indents') (hs : (indents ++ [0]).Pairwise (· > ·)) :
    (indents' ++ [0]).Pairwise (· > ·) := by
  cases h with
  | opens h =>
    refine .cons (fun w hw => ?_) hs
    cases indents with
    | nil => exact mem_singleton.mp hw ▸ h
    | cons v vs =>
      obtain rfl | hw := mem_cons.mp hw
      · exact h
      · exact Nat.lt_trans (rel_of_pairwise_cons hs hw) h
  | closes hsplit | strays hsplit =>
    rw [hsplit, append_assoc] at hs
    exact hs.sublist (sublist_append_right _ _)

theorem Aligns.levels {indents indents' : List Nat} {width : Nat} {pos : Position}
    (h : Aligns indents width pos ts ds indents') : Levels indents.length ts indents'.length := by
  cases h with
  | opens => exact .indent rfl (.nil _)
  | closes hsplit => exact hsplit ▸ length_append ▸ .dedents _ _
  | strays hsplit =>
    exact hsplit ▸ length_append ▸ (Levels.dedents _ _).append (.other (by simp) (.nil _))

theorem Stepped.blocks (h : Stepped s ts ds s') (hs : (s.indents ++ [0]).Pairwise (· > ·)) :
    (s'.indents ++ [0]).Pairwise (· > ·) ∧ Levels s.indents.length ts s'.indents.length := by
  cases h with
  | blank | inside | skip => exact ⟨hs, .nil _⟩
  | line => exact ⟨hs, .other (by simp) (.nil _)⟩
  | indent _ _ hindent =>
    have haligns := aligns_of_indentTokens hindent
    exact ⟨haligns.sorted hs, haligns.levels⟩
  | token _ _ _ _ hfront =>
    have hinline := isInline_of_front hfront
    refine ⟨hs, .other ⟨fun hkind => ?_, fun hkind => ?_⟩ (.nil _)⟩ <;>
      rw [hkind] at hinline <;> cases hinline

/-- What holds of the stack after any number of steps. -/
theorem Scans.blocks (h : Scans s ts ds s') (hs : (s.indents ++ [0]).Pairwise (· > ·)) :
    (s'.indents ++ [0]).Pairwise (· > ·) ∧ Levels s.indents.length ts s'.indents.length := by
  induction h with
  | nil => exact ⟨hs, .nil _⟩
  | cons h _ ih =>
    obtain ⟨hsorted, hlevels⟩ := h.blocks hs
    exact ⟨(ih hsorted).1, hlevels.append (ih hsorted).2⟩

theorem isChain_append_of_ne (hts : ∀ t ∈ ts, t.kind ≠ .newline) {last : Kind} {ks : List Kind}
    (hks : (lastKind last ts :: ks).IsChain Apart) :
    (last :: (ts.map kind ++ ks)).IsChain Apart := by
  induction ts generalizing last with
  | nil => exact hks
  | cons t ts ih =>
    obtain ⟨ht, hts⟩ := forall_mem_cons.mp hts
    have hlast : lastKind last (t :: ts) = lastKind t.kind ts := lastKind_append last [t] ts
    exact .cons_cons (fun h => ht h.2) (ih hts (hlast ▸ hks))

/-- No line ends where the last has just ended. -/
theorem Stepped.apart (h : Stepped s ts ds s') {ks : List Kind}
    (hks : (s'.last :: ks).IsChain Apart) : (s.last :: (ts.map kind ++ ks)).IsChain Apart := by
  cases h with
  | blank | inside | skip => exact hks
  | line _ _ _ hlast => exact .cons_cons (fun h => hlast h.1) hks
  | token _ _ _ _ hfront =>
    refine .cons_cons (fun h => ?_) hks
    have hinline := isInline_of_front hfront
    rw [h.2] at hinline
    cases hinline
  | indent _ _ hindent =>
    refine isChain_append_of_ne (fun t ht => ?_) hks
    obtain ⟨k, hk, rfl⟩ := (aligns_of_indentTokens hindent).mem ht
    rintro rfl
    exact absurd hk (by decide)

/-! ### Whole texts -/

/-- At the end of a text all blocks are closed, unless a bracket is open. -/
theorem exists_levels (s : Lexer) (hs : (s.indents ++ [0]).Pairwise (· > ·)) :
    ∃ m, Levels s.indents.length s.run.tokens m ∧
      ((nestAll (s.depth, s.indents.length) s.run.tokens).1 = 0 → m = 0) := by
  induction s using induct with
  | stopped s h =>
    rw [h.run_eq, finalTokens]
    split
    · rename_i hdepth
      exact ⟨_, .nil _, fun hzero => absurd hzero (Nat.ne_of_gt hdepth)⟩
    · have hdedents := Levels.dedents (n := 0) s.indents s.stop.pos
      refine ⟨0, ?_, fun _ => rfl⟩
      split
      · exact hdedents
      · exact .other (by simp) hdedents
  | stepped s ts ds s' h ih =>
    obtain ⟨hsorted, hlevels⟩ := h.blocks hs
    obtain ⟨m, hm, hzero⟩ := ih hsorted
    have hnest := h.nestAll_eq 0
    rw [Nat.zero_add, Nat.zero_add] at hnest
    rw [h.run_eq]
    refine ⟨m, hlevels.append hm, fun hdepth => hzero ?_⟩
    rwa [Lexed.cons, nestAll_append, hnest] at hdepth

/-- **No line ends twice.** -/
theorem isChain_run (s : Lexer) : (s.last :: s.run.tokens.map kind).IsChain Apart := by
  induction s using induct with
  | stopped s h =>
    have hdedents : ∀ last : Kind, (last :: (s.indents.map fun _ =>
        (⟨.dedent, "", s.stop.pos⟩ : Token)).map kind).IsChain Apart := by
      intro last
      rw [← append_nil (List.map kind _)]
      exact isChain_append_of_ne (by simp) (.singleton _)
    rw [h.run_eq, finalTokens]
    split
    · exact .singleton _
    · split
      · exact hdedents _
      · exact .cons_cons (fun h => ‹s.last ≠ _› h.1) (hdedents _)
  | stepped s ts ds s' h ih =>
    rw [h.run_eq, Lexed.cons, map_append]
    exact h.apart ih

end Lexer

open Lexer (Scans Apart alignStack indentTokens)

/-- **Indented blocks are closed after they are opened**, and all of them at the end of a text,
unless a bracket is open there. While the text is read, the widths of the open blocks are on a
stack, each wider than the next and the last of them zero, and the top of the stack can be read and
popped. No line ends twice in a row, or before there is a token. -/
theorem indentation_balanced (text : List Char) :
    (∀ ts, ts <+: (lex text).tokens → closed ts ≤ opened ts) ∧
    ((nestAll (0, 0) (lex text).tokens).1 = 0 →
      closed (lex text).tokens = opened (lex text).tokens) ∧
    (∀ ts ds s, Scans (.start text) ts ds s → (s.indents ++ [0]).Pairwise (· > ·) ∧
      (s.indents ++ [0]).length + closed ts = opened ts + 1 ∧
      ∀ width pos, alignStack (s.indents ++ [0]) width pos =
        some ((indentTokens s.indents width pos).1, (indentTokens s.indents width pos).2.1,
          (indentTokens s.indents width pos).2.2 ++ [0])) ∧
    (.newline :: (lex text).tokens.map kind).IsChain Apart := by
  have hempty : (([] : List Nat) ++ [0]).Pairwise (· > ·) := List.pairwise_singleton _ _
  obtain ⟨m, hm, hzero⟩ := (start text).exists_levels hempty
  refine ⟨?_, fun hdepth => ?_, fun ts ds s h => ?_, (start text).isChain_run⟩
  · rintro ts ⟨us, hus⟩
    obtain ⟨l, hl⟩ := (hus ▸ hm : Levels 0 (ts ++ us) m).exists_of_append
    have := hl.total
    omega
  · have := hzero hdepth ▸ hm.total
    exact (Nat.add_left_cancel this).symm
  · obtain ⟨hsorted, hlevels⟩ := h.blocks hempty
    refine ⟨hsorted, ?_, alignStack_eq s.indents⟩
    have := hlevels.total
    rw [List.length_append, List.length_singleton]
    simp only [start, List.length_nil] at this
    omega

end Sequencer
