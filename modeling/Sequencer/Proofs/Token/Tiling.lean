import Sequencer.Proofs.Token.Passing

/-!
# Tokens tile their text

Every character of a text belongs to one token, or to the filler between two of them. `Tiles`
follows a text and its tokens side by side. It keeps count of the open brackets and of whether the
line has a token yet, since these decide whether a line break is a token.
-/

namespace Sequencer

open List Cursor Token

namespace Token

/-- A token that is made of characters. -/
def isWritten (t : Token) : Bool := t.lexeme ≠ ""

/-- The complaint about an illegal token: a character that starts no token, or, if there is none,
the indentation of a line. -/
def illegality (t : Token) : Diagnostic :=
  ⟨t.pos, if t.lexeme = "" then .unalignedDedent else .unexpectedCharacter t.lexeme⟩

/-- The tokens `ts` tile the text `rest` that comes after `before`. Line breaks between them are
filler inside brackets, of which `depth` are open, and in a line without a token, which `fresh`
says. -/
inductive Tiles : (depth : Nat) → (fresh : Bool) → (before rest : List Char) → List Token → Prop
  | done {depth : Nat} {fresh : Bool} {before rest : List Char}
      (filler : Filler (0 < depth || fresh) [] rest) : Tiles depth fresh before rest []
  | token {depth : Nat} {fresh : Bool} {before rest g after : List Char} {t : Token}
      {ts : List Token} (split : rest = g ++ (t.lexeme.toList ++ after))
      (filler : Filler (0 < depth || fresh) (t.lexeme.toList ++ after) g)
      (written : t.lexeme.toList ≠ []) (pos : t.pos = .behind (before ++ g))
      (word : t.kind.isWord = true → (∀ x ∈ t.lexeme.toList, isWordChar x = true) ∧
        ∀ x ∈ after.head?, isWordChar x = false)
      (tiles : Tiles (Lexer.depthAfter depth t.kind) (t.kind = .newline)
        (before ++ (g ++ t.lexeme.toList)) after ts) :
      Tiles depth fresh before rest (t :: ts)

namespace Tiles

variable {depth : Nat} {fresh : Bool} {before rest g : List Char} {t : Token} {ts : List Token}

theorem skip (h : Tiles depth fresh (before ++ g) rest ts)
    (hg : Filler (0 < depth || fresh) rest g) : Tiles depth fresh before (g ++ rest) ts := by
  cases h with
  | done filler => exact .done (.append (by rwa [append_nil]) filler)
  | token split filler written pos word tiles =>
    subst split
    refine .token (append_assoc ..).symm (hg.append filler) written ?_ word ?_
    · rw [pos, append_assoc]
    · rwa [append_assoc, ← append_assoc before]

theorem exists_at (h : Tiles depth fresh before rest ts) (ht : t ∈ ts) :
    ∃ u v, rest = u ++ (t.lexeme.toList ++ v) ∧ t.pos = .behind (before ++ u) := by
  induction h with
  | done => cases ht
  | @token _ _ before _ g after t' _ split _ _ pos _ _ ih =>
    obtain rfl | ht := mem_cons.mp ht
    · exact ⟨g, after, split, pos⟩
    · obtain ⟨u, v, rfl, hpos⟩ := ih ht
      refine ⟨g ++ (t'.lexeme.toList ++ u), v, ?_, ?_⟩
      · rw [split, append_assoc, append_assoc]
      · rw [hpos, append_assoc, append_assoc]

theorem ordered (h : Tiles depth fresh before rest ts) :
    ts.Pairwise fun t t' => t.pos.Before t'.pos := by
  induction h with
  | done => exact .nil
  | @token _ _ before _ g _ t _ _ _ written pos _ tiles ih =>
    refine .cons (fun t' ht' => ?_) ih
    obtain ⟨u, -, -, hpos⟩ := tiles.exists_at ht'
    rw [pos, hpos, ← append_assoc before, append_assoc (before ++ g)]
    exact Position.behind_before _ (append_ne_nil_of_left_ne_nil written u)

end Tiles

end Token

namespace Lexer

open Token (Tiles Filler isWritten illegality)

variable {s s' : Lexer} {ts : List Token} {ds : List Diagnostic}

/-! ### Steps -/

/-- **A step goes on with the tiling.** -/
theorem Passes.tiles (h : Passes s ts s') {before : List Char} (hreads : s.cursor.Reads before)
    {fresh : Bool} (hfresh : s.last = .newline → fresh = true) :
    ∃ u fresh', s'.cursor = s.cursor.advanceBy u.length ∧ s.cursor.rest = u ++ s'.cursor.rest ∧
      (s'.last = .newline → fresh' = true) ∧
      ∀ {us}, Tiles s'.depth fresh' (before ++ u) s'.cursor.rest us →
        Tiles s.depth fresh before s.cursor.rest (ts.filter isWritten ++ us) := by
  cases h with
  | @filler _ _ g split cursor filler _ unwritten depth last =>
    refine ⟨g, fresh, cursor, split, fun hlast => hfresh (last hlast), fun htiles => ?_⟩
    rw [filter_eq_nil_iff.mpr fun t ht => by simp [isWritten, unwritten t ht]]
    rw [depth] at htiles
    rw [split]
    refine htiles.skip (filler.mono fun hbreaks => ?_)
    simp only [Bool.or_eq_true, decide_eq_true_eq] at hbreaks ⊢
    exact hbreaks.imp_right hfresh
  | @token t _ g split cursor filler _ written pos word depth last =>
    refine ⟨g ++ t.lexeme.toList, t.kind = .newline, ?_, ?_, ?_, fun htiles => ?_⟩
    · rw [cursor, length_append]
    · rw [split, append_assoc]
    · exact fun hlast => decide_eq_true (last ▸ hlast)
    · have hwritten : isWritten t = true := decide_eq_true fun h => written (by rw [h]; rfl)
      rw [filter_cons_of_pos hwritten]
      rw [depth] at htiles
      refine .token split (filler.mono nofun) written ?_ word htiles
      have hne : (s.cursor.advanceBy g.length).rest ≠ [] := by
        rw [rest_advanceBy, split, drop_left]
        exact append_ne_nil_of_left_ne_nil written _
      have hreads' := (hreads.advanceBy g.length).pos_eq hne
      rw [split, take_left] at hreads'
      rw [pos, hreads']

theorem Stepped.diagnostics_eq (h : Stepped s ts ds s') (hnul : nul ∉ s.cursor.rest) :
    ds = (ts.filter (·.kind = .illegal)).map illegality := by
  cases h with
  | blank | inside | skip | line => rfl
  | indent hstart hblank hindent =>
    cases aligns_of_indentTokens hindent with
    | opens => rfl
    | closes => simp
    | strays => simp [illegality]
  | @token hstart c cs hrest _ _ t n hfront =>
    have hnul' : nul ∉ c :: cs := by
      rw [← hrest, stop, rest_advanceBy]
      exact fun hmem => hnul (mem_of_mem_drop hmem)
    have ht := isFront hnul' hfront
    have hne : t.lexeme ≠ "" := by
      intro hempty
      have := ht.lexeme
      rw [hempty] at this
      cases this
    rw [complaints]
    split
    · rename_i hkind
      simp [hkind, illegality, hne]
    · rename_i hkind
      simp [hkind]

/-! ### Whole texts -/

theorem filter_finalTokens (s : Lexer) (pos : Position) {p : Token → Bool}
    (h : ∀ k ∈ [Token.Kind.newline, .dedent], p ⟨k, "", pos⟩ = false) :
    (s.finalTokens pos).filter p = [] := by
  refine filter_eq_nil_iff.mpr fun t ht => ?_
  obtain ⟨k, hk, rfl⟩ := mem_finalTokens ht
  exact Bool.eq_false_iff.mp (h k hk)

/-- What is left of a text is tiled by the tokens that are left. -/
theorem tiles_run (hnul : nul ∉ s.cursor.rest) {before : List Char}
    (hreads : s.cursor.Reads before) {fresh : Bool} (hfresh : s.last = .newline → fresh = true) :
    Tiles s.depth fresh before s.cursor.rest (s.run.tokens.filter isWritten) := by
  induction s using induct generalizing before fresh with
  | stopped s h =>
    rw [h.run_eq, filter_finalTokens s _ (by simp [isWritten])]
    exact .done ((h.filler hnul).mono nofun)
  | stepped s ts ds s' h ih =>
    obtain ⟨u, fresh', hcursor, hsplit, hfresh', htiles⟩ := (h.passes hnul).tiles hreads hfresh
    rw [h.run_eq, Lexed.cons, filter_append]
    refine htiles (ih (h.nul_notMem hnul) ?_ hfresh')
    have hreads' := hreads.advanceBy u.length
    rwa [← hcursor, hsplit, take_left] at hreads'

theorem diagnostics_run (hnul : nul ∉ s.cursor.rest) :
    s.run.diagnostics = (s.run.tokens.filter (·.kind = .illegal)).map illegality := by
  induction s using induct with
  | stopped s h => rw [h.run_eq, filter_finalTokens s _ (by simp)]; rfl
  | stepped s ts ds s' h ih =>
    rw [h.run_eq, Lexed.cons, filter_append, map_append, ← ih (h.nul_notMem hnul),
      ← h.diagnostics_eq hnul]

end Lexer

open Token (Tiles isWritten illegality nul)

/-- **The tokens of a text tile it.** Each of the tokens that are made of characters stands at its
position, they come in order, and between them is filler; and there is a complaint about each
illegal token, at its position, and no other. -/
theorem tokens_tile_text {text : List Char} (hnul : nul ∉ text) :
    Tiles 0 true [] text ((lex text).tokens.filter isWritten) ∧
    (∀ t ∈ (lex text).tokens, isWritten t = true →
      ∃ u v, text = u ++ (t.lexeme.toList ++ v) ∧ t.pos = .behind u) ∧
    ((lex text).tokens.filter isWritten).Pairwise (fun t t' => t.pos.Before t'.pos) ∧
    (lex text).diagnostics = ((lex text).tokens.filter (·.kind = .illegal)).map illegality := by
  have htiles : Tiles 0 true [] text ((lex text).tokens.filter isWritten) :=
    Lexer.tiles_run (s := .start text) hnul (reads_start text) fun _ => rfl
  refine ⟨htiles, fun t ht hwritten => ?_, htiles.ordered, Lexer.diagnostics_run hnul⟩
  exact htiles.exists_at (List.mem_filter.mpr ⟨ht, hwritten⟩)

/-- A comment, a joined line end, a bracket over two lines and a character that starts no token. -/
theorem tokens_tile_mixture :
    nul ∉ "a = \\\n  (1 + # x\n\n  b) $\n".toList ∧
    ((lex "a = \\\n  (1 + # x\n\n  b) $\n".toList).tokens.filter isWritten).Pairwise
      (fun t t' => t.pos.Before t'.pos) :=
  ⟨by decide, (tokens_tile_text (by decide)).2.2.1⟩

end Sequencer
