import Sequencer.Proofs.Program.Reading.Expr
import Sequencer.Proofs.Token.Layout

/-!
# Printing programs

A program is printed with one statement on a line and four blanks of indentation for each block. A
`Style` says where parentheses stand that need not be there. `Expr.Formed` and `Stmt.Formed` are the
trees of the language.
-/

namespace Sequencer

open List Token Lexer Layout Kind

namespace Token

/-! ### Pieces of a fixed spelling -/

/-- A token of a fixed spelling, with a blank before it and after it where it is wanted. -/
def Kind.piece (k : Kind) (before after : Bool) : Piece := ⟨k, k.spelling, before, after⟩

/-- A keyword or an operator between its operands. -/
def Kind.word (k : Kind) : Piece := k.piece true true

/-- An opening bracket, or a sign in front of its operand. -/
def Kind.lead (k : Kind) : Piece := k.piece true false

/-- A closing bracket, a comma or a colon. -/
def Kind.trail (k : Kind) : Piece := k.piece false true

/-- What stands between two tokens without a blank. -/
def Kind.tight (k : Kind) : Piece := k.piece false false

def Piece.name (x : String) : Piece := ⟨.ident, x, true, true⟩

def parens (ps : List Piece) : List Piece := lead .lparen :: (ps ++ [trail .rparen])

/-- Pieces of a list, with commas between them. -/
def commas : List (List Piece) → List Piece
  | [] => []
  | [ps] => ps
  | ps :: qs => ps ++ trail .comma :: commas qs

def Layout.header (ps : List Piece) (block : List Layout) : Layout :=
  .line (ps ++ [colon.trail]) block

/-! ### Tidy pieces -/

theorem sound_piece {k : Kind} {before after : Bool} (hk : k ∈ spellings.map Prod.snd)
    (hbefore : before = false → k.isClosing = true) (hafter : after = false → k.isOpening = true) :
    (k.piece before after).Sound where
  spelled := .fixed ((by decide : ∀ k ∈ spellings.map Prod.snd, (k.spelling, k) ∈ spellings) k hk)
  before := hbefore
  after := hafter

/-- A kind of a fixed spelling that is no bracket. -/
def Kind.isFlat (k : Kind) : Bool :=
  k ∈ spellings.map Prod.snd && k ∉ [.lparen, .rparen, .lbracket, .rbracket]

theorem depthAfter_of_isFlat {k : Kind} (h : k.isFlat = true) (d : Nat) : depthAfter d k = d := by
  cases k <;> first | rfl | exact absurd h (by decide)

/-- Sound pieces that close every bracket they open. -/
structure Tidy (ps : List Piece) : Prop where
  sound : ∀ p ∈ ps, p.Sound
  level : ∀ d, depthOf d ps = d

namespace Tidy

theorem nil : Tidy [] := ⟨nofun, fun _ => rfl⟩

variable {ps : List Piece}

theorem append {qs : List Piece} (h : Tidy ps) (h' : Tidy qs) : Tidy (ps ++ qs) where
  sound := forall_mem_append.mpr ⟨h.sound, h'.sound⟩
  level d := by
    rw [depthOf, foldl_append]
    exact (congrArg (depthOf · qs) (h.level d)).trans (h'.level d)

theorem cons {p : Piece} (hp : p.Sound)
    (hd : ∀ d, depthAfter d p.kind = d) (h : Tidy ps) : Tidy (p :: ps) where
  sound := forall_mem_cons.mpr ⟨hp, h.sound⟩
  level d := (congrArg (depthOf · ps) (hd d)).trans (h.level d)

theorem word {k : Kind} (hk : k.isFlat = true) (h : Tidy ps) : Tidy (k.word :: ps) := by
  have hspelled : k ∈ spellings.map Prod.snd := by
    simp only [isFlat, Bool.and_eq_true, decide_eq_true_eq] at hk
    exact hk.1
  exact .cons (sound_piece hspelled nofun nofun) (depthAfter_of_isFlat hk) h

theorem bracket {p q : Piece} (hp : p.Sound) (hopen : ∀ d, depthAfter d p.kind = d + 1)
    (hq : q.Sound) (hclose : ∀ d, depthAfter (d + 1) q.kind = d) (h : Tidy ps) :
    Tidy (p :: (ps ++ [q])) where
  sound := by
    rw [forall_mem_cons, forall_mem_append]
    exact ⟨hp, h.sound, by simpa using hq⟩
  level d := by
    have hinside : depthOf (depthAfter d p.kind) ps = d + 1 := by
      rw [h.level, hopen]
    rw [depthOf, foldl_cons, foldl_append]
    exact (congrArg (depthOf · [q]) hinside).trans (hclose d)

theorem parens (h : Tidy ps) : Tidy (parens ps) :=
  .bracket (sound_piece (by decide) nofun fun _ => rfl) (fun _ => rfl)
    (sound_piece (by decide) (fun _ => rfl) nofun) (fun _ => rfl) h

theorem arguments (h : Tidy ps) : Tidy (lparen.tight :: (ps ++ [rparen.trail])) :=
  .bracket (sound_piece (by decide) (fun _ => rfl) fun _ => rfl) (fun _ => rfl)
    (sound_piece (by decide) (fun _ => rfl) nofun) (fun _ => rfl) h

end Tidy

theorem tidy_commas {pss : List (List Piece)} (h : ∀ ps ∈ pss, Tidy ps) : Tidy (commas pss) := by
  induction pss with
  | nil => exact .nil
  | cons ps qs ih =>
    obtain ⟨hps, hqs⟩ := forall_mem_cons.mp h
    cases qs with
    | nil => exact hps
    | cons =>
      exact hps.append (.cons (sound_piece (by decide) (fun _ => rfl) nofun) (fun _ => rfl)
        (ih hqs))

end Token

namespace Program

open Token (Piece Layout IsWord Kind parens commas)

/-! ### Styles -/

/-- What a printer may choose: the sub-expressions and the whole expressions that stand in
parentheses although they need not, and whether a conditional in an `else` becomes an `elif`. -/
structure Style where
  inner : Expr → Bool
  outer : Expr → Bool
  elif : Bool

def Expr.isCompound : Expr → Bool
  | .name .. | .int .. | .bool .. => false
  | _ => true

/-- Every compound sub-expression stands in parentheses. -/
def Style.full : Style where
  inner := Expr.isCompound
  outer _ := false
  elif := false

/-- No parentheses but the ones that are needed. -/
def Style.minimal : Style where
  inner _ := false
  outer _ := false
  elif := true

/-- A sub-expression where one of the given level is wanted. -/
def Style.sub (style : Style) (level : Nat) (e : Expr) (ps : List Piece) : List Piece :=
  if style.inner e || level < e.level then parens ps else ps

def Style.whole (style : Style) (e : Expr) (ps : List Piece) : List Piece :=
  if style.outer e then parens ps else ps

/-! ### Expressions -/

mutual

/-- The pieces of an expression without parentheses around it. -/
def Expr.body (style : Style) : Expr → List Piece
  | .name _ x => [.name x]
  | .int _ _ raw => [⟨.int, raw, true, true⟩]
  | .bool _ b => [(if b then kwTrue else kwFalse).word]
  | .binary _ op left right =>
    style.sub op.level left (left.body style) ++
      op.token.word :: style.sub (op.level - 1) right (right.body style)
  | .compare first links => style.sub 7 first (first.body style) ++ linkPieces style links
  | .boolOp _ op first others =>
    style.sub (op.level - 1) first (first.body style) ++ otherPieces style op others
  | .unary _ op operand =>
    op.token.piece true (op = .not) :: style.sub op.level operand (operand.body style)
  | .call func _ args _ =>
    style.sub 0 func (func.body style) ++
      lparen.tight :: (commas (listPieces style args) ++ [rparen.trail])
  | .attr object field _ =>
    style.sub 0 object (object.body style) ++ [dot.tight, .name field]
  | .list _ elements _ =>
    lbracket.lead :: (commas (listPieces style elements) ++ [rbracket.trail])
  | .yield _ none => [kwYield.word]
  | .yield _ (some e) => kwYield.word :: style.whole e (e.body style)

def listPieces (style : Style) : List Expr → List (List Piece)
  | [] => []
  | e :: es => style.sub 11 e (e.body style) :: listPieces style es

def linkPieces (style : Style) : List (CompareOp × Position × Expr) → List Piece
  | [] => []
  | (op, _, e) :: ls => op.token.word :: (style.sub 7 e (e.body style) ++ linkPieces style ls)

def otherPieces (style : Style) (op : BoolOp) : List Expr → List Piece
  | [] => []
  | e :: es =>
    op.token.word :: (style.sub (op.level - 1) e (e.body style) ++ otherPieces style op es)

end

def Expr.pieces (style : Style) (e : Expr) : List Piece :=
  match e with
  | .yield .. => e.body style
  | _ => style.whole e (e.body style)

/-! ### Statements -/

def Stmt.isCond : Stmt → Bool
  | .cond .. => true
  | _ => false

mutual

/-- The lines of a statement. A conditional starts with the given keyword. -/
def Stmt.layouts (style : Style) (keyword : Kind) : Stmt → List Layout
  | .funcDef _ name _ params body =>
    [.header (kwDef.word :: .name name :: lparen.tight ::
        (commas (params.map fun p => [.name p.name]) ++ [rparen.trail]))
      (blockLayouts style body)]
  | .assign target others _ value =>
    [.line ((target :: others).flatMap (fun t => t.pieces style ++ [assign.word]) ++
      value.pieces style) []]
  | .expr value => [.line (value.pieces style) []]
  | .cond _ test body orElse =>
    .header (keyword.word :: test.pieces style) (blockLayouts style body) ::
      elseLayouts style orElse
  | .loop _ test body =>
    [.header (kwWhile.word :: test.pieces style) (blockLayouts style body)]
  | .each _ target iter body =>
    [.header (kwFor.word :: (style.sub 0 target (target.body style) ++
        kwIn.word :: iter.pieces style)) (blockLayouts style body)]
  | .ret _ none => [.line [kwReturn.word] []]
  | .ret _ (some e) => [.line (kwReturn.word :: e.pieces style) []]
  | .pass _ => [.line [kwPass.word] []]
  | .brk _ => [.line [kwBreak.word] []]
  | .cont _ => [.line [kwContinue.word] []]

def blockLayouts (style : Style) : List Stmt → List Layout
  | [] => []
  | s :: ss => s.layouts style .kwIf ++ blockLayouts style ss

def elseLayouts (style : Style) : List Stmt → List Layout
  | [] => []
  | s :: ss =>
    if style.elif && s.isCond && ss.isEmpty then s.layouts style .kwElif
    else [.header [kwElse.word] (s.layouts style .kwIf ++ blockLayouts style ss)]

end

def Module.text (style : Style) (m : Module) : List Char :=
  textAll 0 (blockLayouts style m.body)

/-! ### Trees of the language -/

/-- A word that is no keyword. -/
structure IsName (x : String) : Prop where
  word : IsWord x
  free : x ∉ keywords.map Prod.fst

/-- A literal that the language accepts: it starts with a digit and has a value of 64 bits. -/
structure IsLiteral (raw : String) (value : Int64) : Prop where
  digit : ∃ c cs, raw.toList = c :: cs ∧ isDigit c = true
  value : Text.Numeral.signed raw.toList = .ok value

/-- An expression that can be written as text. -/
inductive Expr.Formed : Expr → Prop
  | name {pos : Position} {x : String} (hx : IsName x) : Formed (.name pos x)
  | int {pos : Position} {value : Int64} {raw : String} (hraw : IsLiteral raw value) :
      Formed (.int pos value raw)
  | bool {pos : Position} {value : Bool} : Formed (.bool pos value)
  | binary {pos : Position} {op : BinaryOp} {left right : Expr} (hleft : left.Formed)
      (hright : right.Formed) : Formed (.binary pos op left right)
  | compare {first : Expr} {links : List (CompareOp × Position × Expr)} (hfirst : first.Formed)
      (nonempty : links ≠ []) (hlinks : ∀ l ∈ links, l.2.2.Formed) : Formed (.compare first links)
  | boolOp {pos : Position} {op : BoolOp} {first : Expr} {others : List Expr}
      (hfirst : first.Formed) (nonempty : others ≠ []) (hothers : ∀ e ∈ others, e.Formed) :
      Formed (.boolOp pos op first others)
  | unary {pos : Position} {op : UnaryOp} {operand : Expr} (hoperand : operand.Formed) :
      Formed (.unary pos op operand)
  | call {func : Expr} {lparen rparen : Position} {args : List Expr} (hfunc : func.Formed)
      (hargs : ∀ e ∈ args, e.Formed) : Formed (.call func lparen args rparen)
  | attr {object : Expr} {field : String} {pos : Position} (hobject : object.Formed)
      (hfield : IsName field) : Formed (.attr object field pos)
  | list {lbracket rbracket : Position} {elements : List Expr}
      (helements : ∀ e ∈ elements, e.Formed) : Formed (.list lbracket elements rbracket)

/-- A whole statement or an assigned value: an expression, or a `yield` with or without one. -/
inductive Expr.Whole : Expr → Prop
  | plain {e : Expr} (he : e.Formed) : Whole e
  | yield {pos : Position} {value : Option Expr} (hvalue : ∀ e ∈ value, e.Formed) :
      Whole (.yield pos value)

/-- What can be assigned: a name or an attribute. -/
def Expr.isTarget : Expr → Bool
  | .name .. | .attr .. => true
  | _ => false

/-- A statement that can be written as text. -/
inductive Stmt.Formed : Stmt → Prop
  | funcDef {pos namePos : Position} {name : String} {params : List Param} {body : List Stmt}
      (hname : IsName name) (hparams : ∀ p ∈ params, IsName p.name) (nonempty : body ≠ [])
      (hbody : ∀ s ∈ body, s.Formed) : Formed (.funcDef pos name namePos params body)
  | assign {target : Expr} {others : List Expr} {pos : Position} {value : Expr}
      (htargets : ∀ t ∈ target :: others, t.Formed ∧ t.isTarget = true) (hvalue : value.Whole) :
      Formed (.assign target others pos value)
  | expr {value : Expr} (hvalue : value.Whole) : Formed (.expr value)
  | cond {pos : Position} {test : Expr} {body orElse : List Stmt} (htest : test.Formed)
      (nonempty : body ≠ []) (hbody : ∀ s ∈ body, s.Formed) (horElse : ∀ s ∈ orElse, s.Formed) :
      Formed (.cond pos test body orElse)
  | loop {pos : Position} {test : Expr} {body : List Stmt} (htest : test.Formed)
      (nonempty : body ≠ []) (hbody : ∀ s ∈ body, s.Formed) : Formed (.loop pos test body)
  | each {pos : Position} {target iter : Expr} {body : List Stmt} (htarget : target.Formed)
      (hiter : iter.Formed) (nonempty : body ≠ []) (hbody : ∀ s ∈ body, s.Formed) :
      Formed (.each pos target iter body)
  | ret {pos : Position} {result : Option Expr} (hresult : ∀ e ∈ result, e.Formed) :
      Formed (.ret pos result)
  | pass {pos : Position} : Formed (.pass pos)
  | brk {pos : Position} : Formed (.brk pos)
  | cont {pos : Position} : Formed (.cont pos)

def Module.Formed (m : Module) : Prop := ∀ s ∈ m.body, s.Formed

/-! ### Sound lines -/

open Token (Tidy)

theorem tidy_name {x : String} (hx : IsName x) : Tidy [.name x] :=
  .cons ⟨.name hx.word hx.free, nofun, nofun⟩ (fun _ => rfl) .nil

variable {ps : List Piece} {e : Expr} (style : Style)

theorem tidy_sub (level : Nat) (e : Expr) (h : Tidy ps) : Tidy (style.sub level e ps) := by
  rw [Style.sub]
  split
  · exact h.parens
  · exact h

theorem tidy_whole (e : Expr) (h : Tidy ps) : Tidy (style.whole e ps) := by
  rw [Style.whole]
  split
  · exact h.parens
  · exact h

mutual

theorem tidy_body (style : Style) : ∀ {e : Expr}, e.Formed → Tidy (e.body style)
  | .name .., .name hx => tidy_name hx
  | .int .., .int hraw =>
    .cons ⟨.number (isNumber_of_signed hraw.digit hraw.value), nofun, nofun⟩
      (fun _ => rfl) .nil
  | .bool _ b, .bool => by
    cases b
    · exact .word (by decide) .nil
    · exact .word (by decide) .nil
  | .binary _ op left right, .binary hleft hright => by
    have hop : op.token.isFlat = true := by cases op <;> decide
    exact (tidy_sub style _ _ (tidy_body style hleft)).append
      (.word hop (tidy_sub style _ _ (tidy_body style hright)))
  | .compare first links, .compare hfirst _ hlinks =>
    (tidy_sub style _ _ (tidy_body style hfirst)).append (tidy_linkPieces style hlinks)
  | .boolOp _ op first others, .boolOp hfirst _ hothers =>
    (tidy_sub style _ _ (tidy_body style hfirst)).append (tidy_otherPieces style op hothers)
  | .unary _ op operand, .unary hoperand => by
    have hop : (op.token.piece true (op = .not)).Sound ∧ op.token.isFlat = true := by
      cases op <;> exact ⟨sound_piece (by decide) nofun (by decide), by decide⟩
    exact .cons hop.1 (depthAfter_of_isFlat hop.2)
      (tidy_sub style _ _ (tidy_body style hoperand))
  | .call func _ args _, .call hfunc hargs =>
    (tidy_sub style _ _ (tidy_body style hfunc)).append
      (tidy_commas (tidy_listPieces style hargs)).arguments
  | .attr object field _, .attr hobject hfield =>
    (tidy_sub style _ _ (tidy_body style hobject)).append
      (.cons (sound_piece (by decide) (fun _ => rfl) fun _ => rfl) (fun _ => rfl)
        (tidy_name hfield))
  | .list _ elements _, .list helements =>
    .bracket (sound_piece (by decide) nofun fun _ => rfl) (fun _ => rfl)
      (sound_piece (by decide) (fun _ => rfl) nofun) (fun _ => rfl)
      (tidy_commas (tidy_listPieces style helements))

theorem tidy_listPieces (style : Style) : ∀ {es : List Expr}, (∀ e ∈ es, e.Formed) →
    ∀ ps ∈ listPieces style es, Tidy ps
  | [], _ => nofun
  | e :: es, h => by
    rw [listPieces, forall_mem_cons]
    exact ⟨tidy_sub style _ _ (tidy_body style (h e mem_cons_self)),
      tidy_listPieces style fun e' he' => h e' (mem_cons_of_mem _ he')⟩

theorem tidy_linkPieces (style : Style) : ∀ {ls : List (CompareOp × Position × Expr)},
    (∀ l ∈ ls, l.2.2.Formed) → Tidy (linkPieces style ls)
  | [], _ => .nil
  | (op, pos, e) :: ls, h => by
    have hop : op.token.isFlat = true := by cases op <;> decide
    have he := tidy_sub style 7 e (tidy_body style (h (op, pos, e) mem_cons_self))
    exact .word hop (he.append (tidy_linkPieces style fun l hl => h l (mem_cons_of_mem _ hl)))

theorem tidy_otherPieces (style : Style) (op : BoolOp) : ∀ {es : List Expr},
    (∀ e ∈ es, e.Formed) → Tidy (otherPieces style op es)
  | [], _ => .nil
  | e :: es, h => by
    have hop : op.token.isFlat = true := by cases op <;> decide
    have he := tidy_sub style (op.level - 1) e (tidy_body style (h e mem_cons_self))
    exact .word hop (he.append
      (tidy_otherPieces style op fun e' he' => h e' (mem_cons_of_mem _ he')))

end

theorem tidy_pieces (h : e.Whole) : Tidy (e.pieces style) := by
  cases h with
  | plain he =>
    have hwhole := tidy_whole style e (tidy_body style he)
    cases he <;> exact hwhole
  | yield hvalue =>
    rename_i value
    cases value with
    | none => exact .word (by decide) .nil
    | some e =>
      exact .word (by decide)
        (tidy_whole style e (tidy_body style (hvalue e rfl)))

theorem body_ne_nil (h : e.Formed) : e.body style ≠ [] := by
  cases h with
  | compare _ nonempty _ =>
    obtain ⟨⟨op, pos, e⟩, ls, rfl⟩ := exists_cons_of_ne_nil nonempty
    simp [Expr.body, linkPieces]
  | boolOp _ nonempty _ =>
    obtain ⟨e, es, rfl⟩ := exists_cons_of_ne_nil nonempty
    simp [Expr.body, otherPieces]
  | _ => simp [Expr.body]

theorem pieces_ne_nil (h : e.Whole) : e.pieces style ≠ [] := by
  cases h with
  | plain he =>
    have hwhole : style.whole e (e.body style) ≠ [] := by
      rw [Style.whole]
      split
      · exact cons_ne_nil _ _
      · exact body_ne_nil style he
    cases he <;> exact hwhole
  | yield hvalue =>
    rename_i value
    cases value <;> exact cons_ne_nil _ _

theorem sound_line {block : List Layout} (nonempty : ps ≠ []) (h : Tidy ps)
    (hblock : ∀ l ∈ block, l.Sound) : (line ps block).Sound :=
  .line nonempty h.sound (h.level 0) hblock

theorem sound_header {block : List Layout} (h : Tidy ps) (hblock : ∀ l ∈ block, l.Sound) :
    (header ps block).Sound := by
  have hcolon : Tidy [colon.trail] :=
    .cons (sound_piece (by decide) (fun _ => rfl) nofun) (fun _ => rfl) .nil
  exact sound_line (by simp) (h.append hcolon) hblock

theorem sound_word {k : Kind} (hk : k.isFlat = true) (h : Tidy ps) :
    ∀ l ∈ [line (k.word :: ps) []], l.Sound :=
  forall_mem_singleton.mpr
    (sound_line (cons_ne_nil _ _) (.word hk h) (forall_mem_nil _))

theorem sound_assign {target : Expr} {others : List Expr} {value : Expr}
    (htargets : ∀ t ∈ target :: others, t.Formed ∧ t.isTarget = true) (hvalue : value.Whole) :
    (line ((target :: others).flatMap (fun t => t.pieces style ++ [assign.word]) ++
      value.pieces style) []).Sound := by
  have hassign : Tidy [assign.word] := .word (by decide) .nil
  have htidy : ∀ ts : List Expr, (∀ t ∈ ts, t.Formed ∧ t.isTarget = true) →
      Tidy (ts.flatMap fun t => t.pieces style ++ [assign.word]) := by
    intro ts
    induction ts with
    | nil => exact fun _ => .nil
    | cons t ts ih =>
      intro h
      obtain ⟨ht, hts⟩ := forall_mem_cons.mp h
      exact ((tidy_pieces style (.plain ht.1)).append hassign).append (ih hts)
  refine sound_line ?_ ((htidy _ htargets).append (tidy_pieces style hvalue)) nofun
  exact append_ne_nil_of_right_ne_nil _ (pieces_ne_nil style hvalue)

mutual

theorem sound_layouts (style : Style) {k : Kind} (hk : k = .kwIf ∨ k = .kwElif) :
    ∀ {s : Stmt}, s.Formed → ∀ l ∈ s.layouts style k, l.Sound
  | .funcDef _ name _ params body, .funcDef hname hparams _ hbody => by
    have hnames : ∀ ps ∈ params.map (fun p => [Piece.name p.name]), Tidy ps := by
      intro ps hps
      obtain ⟨p, hp, rfl⟩ := mem_map.mp hps
      exact tidy_name (hparams p hp)
    have hhead := (tidy_name hname).append (tidy_commas hnames).arguments
    exact forall_mem_singleton.mpr (sound_header (.word (by decide) hhead)
      (sound_blockLayouts style hbody))
  | .assign .., .assign htargets hvalue =>
    forall_mem_singleton.mpr (sound_assign style htargets hvalue)
  | .expr value, .expr hvalue =>
    forall_mem_singleton.mpr
      (sound_line (pieces_ne_nil style hvalue) (tidy_pieces style hvalue) (forall_mem_nil _))
  | .cond _ test body orElse, .cond htest _ hbody horElse => by
    have hkeyword : k.isFlat = true := by obtain rfl | rfl := hk <;> decide
    have hhead := Tidy.word hkeyword (tidy_pieces style (.plain htest))
    exact forall_mem_cons.mpr
      ⟨sound_header hhead (sound_blockLayouts style hbody), sound_elseLayouts style horElse⟩
  | .loop _ test body, .loop htest _ hbody => by
    have hhead := Tidy.word (k := .kwWhile) (by decide)
      (tidy_pieces style (.plain htest))
    exact forall_mem_singleton.mpr (sound_header hhead (sound_blockLayouts style hbody))
  | .each _ target iter body, .each htarget hiter _ hbody => by
    have hin := Tidy.word (k := .kwIn) (by decide)
      (tidy_pieces style (.plain hiter))
    have hhead := Tidy.word (k := .kwFor) (by decide)
      ((tidy_sub style 0 target (tidy_body style htarget)).append hin)
    exact forall_mem_singleton.mpr (sound_header hhead (sound_blockLayouts style hbody))
  | .ret _ none, .ret _ => sound_word (by decide) .nil
  | .ret _ (some e), .ret hresult =>
    sound_word (by decide) (tidy_pieces style (.plain (hresult e rfl)))
  | .pass _, .pass | .brk _, .brk | .cont _, .cont => sound_word (by decide) .nil

theorem sound_blockLayouts (style : Style) : ∀ {ss : List Stmt}, (∀ s ∈ ss, s.Formed) →
    ∀ l ∈ blockLayouts style ss, l.Sound
  | [], _ => nofun
  | s :: ss, h => by
    rw [blockLayouts, forall_mem_append]
    exact ⟨sound_layouts style (.inl rfl) (h s mem_cons_self),
      sound_blockLayouts style fun s' hs' => h s' (mem_cons_of_mem _ hs')⟩

theorem sound_elseLayouts (style : Style) : ∀ {ss : List Stmt}, (∀ s ∈ ss, s.Formed) →
    ∀ l ∈ elseLayouts style ss, l.Sound
  | [], _ => nofun
  | s :: ss, h => by
    have hs := h s mem_cons_self
    rw [elseLayouts]
    split
    · exact sound_layouts style (.inr rfl) hs
    · have hblock := forall_mem_append.mpr ⟨sound_layouts style (.inl rfl) hs,
        sound_blockLayouts style fun s' hs' => h s' (mem_cons_of_mem _ hs')⟩
      exact forall_mem_singleton.mpr
        (sound_header (.word (by decide) .nil) hblock)

end

end Program

end Sequencer
