import Sequencer.Proofs.Token.Passing

/-!
# Texts that are read alike

A relation of cursors is a **likeness** if related cursors have the same indentation in front of
them and come to the same token or line break next, and the cursors behind it are related again.
Positions are compared through two maps; with both constant, they do not count.
-/

namespace Sequencer

open List Lexed Token

/-! ### Moving positions -/

def Token.move (f : Position → Position) (t : Token) : Token := { t with pos := f t.pos }

def Diagnostic.move (f : Position → Position) (d : Diagnostic) : Diagnostic :=
  { d with pos := f d.pos }

def Lexed.move (f : Position → Position) (l : Lexed) : Lexed :=
  ⟨l.tokens.map (.move f), l.diagnostics.map (.move f), f l.finish⟩

theorem Lexed.move_id (l : Lexed) : l.move id = l := by
  obtain ⟨tokens, diagnostics, finish⟩ := l
  exact congrArg₂ (fun ts ds => (⟨ts, ds, finish⟩ : Lexed)) (map_id _) (map_id _)

variable (f : Position → Position)

theorem Lexed.move_cons (l : Lexed) (ts : List Token) (ds : List Diagnostic) :
    (l.cons ts ds).move f = (l.move f).cons (ts.map (.move f)) (ds.map (.move f)) := by
  simp [cons, move]

theorem Token.front_move (pos : Position) (c : Char) (cs : List Char) :
    front (f pos) c cs = ((front pos c cs).1.move f, (front pos c cs).2) := by
  unfold front
  split
  · rfl
  · split
    · rfl
    · split <;> rfl

theorem Token.complaints_move (t : Token) : (t.move f).complaints = t.complaints.map (.move f) := by
  simp only [complaints, move]
  by_cases h : t.kind = .illegal <;> simp [h, Diagnostic.move]

namespace Lexer

theorem indentTokens_move (indents : List Nat) (width : Nat) (pos : Position) :
    indentTokens indents width (f pos) = ((indentTokens indents width pos).1.map (.move f),
      (indentTokens indents width pos).2.1.map (.move f),
      (indentTokens indents width pos).2.2) := by
  simp only [indentTokens]
  split
  · rfl
  · split <;> simp [Token.move, Diagnostic.move]

theorem finalTokens_move (s : Lexer) (pos : Position) :
    s.finalTokens (f pos) = (s.finalTokens pos).map (.move f) := by
  simp only [finalTokens]
  split
  · rfl
  · split <;> simp [Token.move]

theorem lastKind_move (last : Kind) (ts : List Token) :
    lastKind last (ts.map (.move f)) = lastKind last ts := by
  rw [lastKind, lastKind, getLast?_map, Option.map_map]
  rfl

/-! ### Likenesses -/

/-- A relation of cursors in front of texts that are read alike, with positions compared through
`f` and `g`. -/
structure Likeness (f g : Position → Position) (R : Cursor → Cursor → Prop) : Prop where
  pos : ∀ {c d : Cursor}, R c d → g d.pos = f c.pos
  indented : ∀ {s x : Lexer}, R s.cursor x.cursor → R s.indented x.indented ∧
    indentWidth x.blanks = indentWidth s.blanks ∧
    isBlankAt x.indented.rest = isBlankAt s.indented.rest
  stop : ∀ {s x : Lexer}, R s.cursor x.cursor → R s.stop x.stop ∧
    x.stop.rest.head? = s.stop.rest.head?
  advance : ∀ {c d : Cursor} {cs ds : List Char}, R c d → c.rest = '\n' :: cs →
    d.rest = '\n' :: ds → R c.advance d.advance
  front : ∀ {s x : Lexer} {c : Char} {cs ds : List Char}, R s.cursor x.cursor →
    s.stop.rest = c :: cs → x.stop.rest = c :: ds → c ≠ '\n' → ∀ pos,
    front pos c ds = front pos c cs ∧
      R (s.stop.advanceBy ((front pos c cs).2 + 1))
      (x.stop.advanceBy ((front pos c cs).2 + 1))

/-- Lexers with related cursors that are the same otherwise. -/
structure Mates (R : Cursor → Cursor → Prop) (s x : Lexer) : Prop where
  cursor : R s.cursor x.cursor
  indents : x.indents = s.indents
  depth : x.depth = s.depth
  last : x.last = s.last
  lineStart : x.lineStart = s.lineStart

variable {f} {g : Position → Position} {R : Cursor → Cursor → Prop} {s x : Lexer}

theorem Likeness.rest_stop (hR : Likeness f g R) (h : R s.cursor x.cursor) {c : Char}
    {cs : List Char} (hrest : s.stop.rest = c :: cs) : ∃ ds, x.stop.rest = c :: ds := by
  have hhead := (hR.stop h).2
  rw [hrest] at hhead
  exact head?_eq_some_iff.mp hhead

theorem move_run_eq {s' x' : Lexer} {ts us : List Token} {ds es : List Diagnostic}
    (hs : Stepped s ts ds s') (hx : Stepped x us es x')
    (hts : us.map (Token.move g) = ts.map (.move f))
    (hds : es.map (Diagnostic.move g) = ds.map (.move f)) (h : x'.run.move g = s'.run.move f) :
    x.run.move g = s.run.move f := by
  rw [hs.run_eq, hx.run_eq, move_cons, move_cons, h, hts, hds]

/-- **Related lexers deliver the same tokens and complaints.** -/
theorem Likeness.run_eq (hR : Likeness f g R) (h : Mates R s x) : x.run.move g = s.run.move f := by
  induction s using induct generalizing x with
  | stopped s hs =>
    have hx : Stopped x := by
      refine ⟨h.lineStart.trans hs.start, fun c ds hrest => ?_⟩
      have hhead := (hR.stop h.cursor).2
      rw [hrest] at hhead
      obtain ⟨cs, hcs⟩ := head?_eq_some_iff.mp hhead.symm
      exact hs.rest c cs hcs
    rw [hs.run_eq, hx.run_eq]
    simp only [Lexed.move, ← finalTokens_move, hR.pos (hR.stop h.cursor).1, map_nil]
    simp only [finalTokens, h.indents, h.depth, h.last]
  | stepped s ts ds s' hs ih =>
    obtain ⟨hindented, hwidth, hblankAt⟩ := hR.indented h.cursor
    obtain ⟨hstop, -⟩ := hR.stop h.cursor
    cases hs with
    | blank hstart hblank =>
      exact move_run_eq (.blank hstart hblank)
        (.blank (h.lineStart.trans hstart) (hblankAt.trans hblank)) rfl rfl
        (ih ⟨hindented, h.indents, h.depth, h.last, rfl⟩)
    | indent hstart hblank hindent =>
      have hmove := indentTokens_move g s.indents (indentWidth s.blanks) x.indented.pos
      obtain ⟨us, es, indents, hindent'⟩ : ∃ us es indents, indentTokens s.indents
        (indentWidth s.blanks) x.indented.pos = (us, es, indents) := ⟨_, _, _, rfl⟩
      rw [hR.pos hindented, indentTokens_move f, hindent, hindent'] at hmove
      dsimp only at hmove
      obtain ⟨hts, hothers⟩ := Prod.mk.inj hmove.symm
      obtain ⟨hds, rfl⟩ := Prod.mk.inj hothers
      refine move_run_eq (.indent hstart hblank hindent) (.indent (h.lineStart.trans hstart)
        (hblankAt.trans hblank) (by rw [h.indents, hwidth, hindent'])) hts hds
        (ih ⟨hindented, rfl, h.depth, ?_, rfl⟩)
      change lastKind x.last us = lastKind s.last ts
      rw [← lastKind_move g, hts, lastKind_move, h.last]
    | inside hstart hrest hdepth =>
      obtain ⟨cs, hcs⟩ := hR.rest_stop h.cursor hrest
      exact move_run_eq (.inside hstart hrest hdepth)
        (.inside (h.lineStart.trans hstart) hcs (h.depth ▸ hdepth)) rfl rfl
        (ih ⟨hR.advance hstop hrest hcs, h.indents, h.depth, h.last, h.lineStart⟩)
    | skip hstart hrest hdepth hlast =>
      obtain ⟨cs, hcs⟩ := hR.rest_stop h.cursor hrest
      exact move_run_eq (.skip hstart hrest hdepth hlast)
        (.skip (h.lineStart.trans hstart) hcs (h.depth ▸ hdepth) (h.last.trans hlast)) rfl rfl
        (ih ⟨hR.advance hstop hrest hcs, h.indents, h.depth, h.last, rfl⟩)
    | line hstart hrest hdepth hlast =>
      obtain ⟨cs, hcs⟩ := hR.rest_stop h.cursor hrest
      refine move_run_eq (.line hstart hrest hdepth hlast)
        (.line (h.lineStart.trans hstart) hcs (h.depth ▸ hdepth) (h.last ▸ hlast)) ?_ rfl
        (ih ⟨hR.advance hstop hrest hcs, h.indents, h.depth, rfl, rfl⟩)
      simp only [map_cons, map_nil, Token.move, hR.pos hstop]
    | @token hstart c cs hrest hnul hline t n hfront =>
      obtain ⟨ds, hds⟩ := hR.rest_stop h.cursor hrest
      have hmove := front_move g x.stop.pos c ds
      rw [hR.pos hstop, (hR.front h.cursor hrest hds hline _).1, front_move f, hfront] at hmove
      obtain ⟨u, m, hfront'⟩ : ∃ u m, Token.front x.stop.pos c ds = (u, m) := ⟨_, _, rfl⟩
      rw [hfront'] at hmove
      obtain ⟨htoken, rfl⟩ := Prod.mk.inj hmove.symm
      have htoken : u.move g = t.move f := htoken
      have hkind : u.kind = t.kind := show (u.move g).kind = (t.move f).kind by rw [htoken]
      have hbehind := (hR.front h.cursor hrest hds hline s.stop.pos).2
      rw [hfront] at hbehind
      refine move_run_eq (.token hstart hrest hnul hline hfront)
        (.token (h.lineStart.trans hstart) hds hnul hline hfront') ?_ ?_
        (ih ⟨hbehind, h.indents, by rw [h.depth, hkind], hkind, h.lineStart⟩)
      · exact congrArg (fun t => [t]) htoken
      · rw [← complaints_move, ← complaints_move]
        exact congrArg complaints htoken

end Lexer

end Sequencer
