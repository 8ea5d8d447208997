import Sequencer.Proofs.Program.Printer
import Sequencer.Proofs.Program.Reading.Stmt

/-!
# Parsing undoes printing

The lexer gives back the tokens of a printed program, and by induction on the tree they read as each
of its expressions and statements. No choice of the printer matters.
-/

namespace Sequencer.Program

open List
open Token (Bare Piece Layout Kind parens commas tokensAll)
open Sequencer.Program.Parser

/-! ### Expressions -/

variable {ps : List Piece} {e : Expr}

theorem reads_parens (h : Reads e.level (ps.map Piece.bare) e) :
    Reads 0 ((parens ps).map Piece.bare) e := by
  rw [parens, map_cons, map_append]
  exact reads_paren (h.mono (e.level_le) (Nat.le_refl 11))

variable (style : Style)

theorem reads_sub {ℓ : Nat} (hℓ : ℓ ≤ 11)
    (h : Reads e.level (ps.map Piece.bare) e) : Reads ℓ ((style.sub ℓ e ps).map Piece.bare) e := by
  rw [Style.sub]
  split
  · exact (reads_parens h).mono (Nat.zero_le ℓ) hℓ
  · rename_i hbare
    simp only [Bool.or_eq_true, decide_eq_true_eq, not_or, Nat.not_lt] at hbare
    exact h.mono hbare.2 hℓ

theorem reads_whole (h : Reads e.level (ps.map Piece.bare) e) :
    Reads 11 ((style.whole e ps).map Piece.bare) e := by
  rw [Style.whole]
  split
  · exact (reads_parens h).mono (Nat.zero_le 11) (Nat.le_refl 11)
  · exact h.mono (e.level_le) (Nat.le_refl 11)

theorem readsAll_commas {pss : List (List Piece)} {es : List Expr}
    (h : List.Forall₂ (fun ps e => Reads 11 (ps.map Piece.bare) e) pss es) :
    ReadsAll ((commas pss).map Piece.bare) es := by
  induction h with
  | nil => exact readsAll_nil
  | cons h htail ih =>
    cases htail with
    | nil => exact readsAll_single h
    | cons =>
      rw [commas, map_append, map_cons]
      · exact readsAll_cons h ih
      · nofun

mutual

/-- **A printed expression reads at its own level.** -/
theorem reads_body (style : Style) : ∀ {e : Expr}, e.Formed →
    Reads e.level ((e.body style).map Piece.bare) e
  | .name pos x, .name _ => reads_name pos x
  | .int pos _ _, .int hraw => reads_int pos hraw.value
  | .bool pos b, .bool => reads_bool pos b
  | .binary pos op left right, .binary hleft hright => by
    have hlevel := op.level_le
    rw [Expr.body, map_append, map_cons]
    exact reads_binary (reads_sub style hlevel (reads_body style hleft))
      (reads_sub style (by omega) (reads_body style hright)) pos
  | .compare first links, .compare hfirst nonempty hlinks => by
    obtain ⟨l, ls, rfl⟩ := exists_cons_of_ne_nil nonempty
    rw [Expr.body, map_append]
    exact reads_compare (reads_sub style (by decide) (reads_body style hfirst))
      (readsLinks_linkPieces style hlinks)
  | .boolOp pos op first others, .boolOp hfirst nonempty hothers => by
    have hlevel := op.level_le
    obtain ⟨e, es, rfl⟩ := exists_cons_of_ne_nil nonempty
    rw [Expr.body, map_append]
    exact reads_boolOp (reads_sub style (by omega) (reads_body style hfirst))
      (readsOthers_otherPieces style op hothers) pos
  | .unary pos op operand, .unary hoperand => by
    exact reads_unary (reads_sub style op.level_le (reads_body style hoperand)) pos
  | .call func l args r, .call hfunc hargs => by
    rw [Expr.body, map_append, map_cons, map_append]
    exact reads_call (reads_sub style (by decide) (reads_body style hfunc))
      (readsAll_commas (reads_listPieces style hargs)) l r
  | .attr object field pos, .attr hobject _ => by
    rw [Expr.body, map_append]
    exact reads_attr (reads_sub style (by decide) (reads_body style hobject)) field pos
  | .list l elements r, .list helements => by
    rw [Expr.body, map_cons, map_append]
    exact reads_list (readsAll_commas (reads_listPieces style helements)) l r

theorem reads_listPieces (style : Style) : ∀ {es : List Expr}, (∀ e ∈ es, e.Formed) →
    List.Forall₂ (fun ps e => Reads 11 (ps.map Piece.bare) e) (listPieces style es) es
  | [], _ => .nil
  | e :: es, h =>
    .cons (reads_sub style (by decide) (reads_body style (h e mem_cons_self)))
      (reads_listPieces style fun e' he' => h e' (mem_cons_of_mem _ he'))

theorem readsLinks_linkPieces (style : Style) : ∀ {ls : List (CompareOp × Position × Expr)},
    (∀ l ∈ ls, l.2.2.Formed) → ReadsLinks ((linkPieces style ls).map Piece.bare) ls
  | [], _ => readsLinks_nil
  | (op, pos, e) :: ls, h => by
    have he := reads_sub style (ℓ := 7) (by decide)
      (reads_body style (h (op, pos, e) mem_cons_self))
    rw [linkPieces, map_cons, map_append]
    exact readsLinks_cons op he
      (readsLinks_linkPieces style fun l hl => h l (mem_cons_of_mem _ hl)) pos

theorem readsOthers_otherPieces (style : Style) (op : BoolOp) : ∀ {es : List Expr},
    (∀ e ∈ es, e.Formed) → ReadsOthers op ((otherPieces style op es).map Piece.bare) es
  | [], _ => readsOthers_nil op
  | e :: es, h => by
    have hlevel : op.level - 1 ≤ 11 := Nat.le_trans (Nat.sub_le ..) op.level_le
    have he := reads_sub style hlevel (reads_body style (h e mem_cons_self))
    rw [otherPieces, map_cons, map_append]
    exact readsOthers_cons he
      (readsOthers_otherPieces style op fun e' he' => h e' (mem_cons_of_mem _ he'))

end

theorem reads_pieces (h : e.Formed) : Reads 11 ((e.pieces style).map Piece.bare) e := by
  have hwhole := reads_whole style (reads_body style h)
  cases h <;> exact hwhole

/-! ### Lines -/

theorem readsWhole_pieces (h : e.Whole) : ReadsWhole ((e.pieces style).map Piece.bare) e := by
  cases h with
  | plain he => exact readsWhole_of_reads (reads_pieces style he)
  | yield hvalue =>
    rename_i pos value
    cases value with
    | none => exact readsWhole_yield pos
    | some e =>
      exact readsWhole_yield_some (reads_whole style (reads_body style (hvalue e rfl))) pos

theorem unassignable?_of_isTarget (h : e.isTarget = true) : unassignable? e = none := by
  cases e <;> first | rfl | cases h

theorem readsAssign_pieces {ts : List Expr} {value : Expr}
    (hts : ∀ t ∈ ts, t.Formed ∧ t.isTarget = true) (hvalue : value.Whole) :
    ReadsAssign ((ts.flatMap (fun t => t.pieces style ++ [Kind.assign.word]) ++
      value.pieces style).map Piece.bare) ts value := by
  induction ts with
  | nil => exact readsAssign_nil (readsWhole_pieces style hvalue)
  | cons t ts ih =>
    obtain ⟨ht, hts⟩ := forall_mem_cons.mp hts
    rw [flatMap_cons, append_assoc, append_assoc, map_append]
    exact readsAssign_cons (readsWhole_pieces style (.plain ht.1)) (ih hts)

theorem readsParams_names (params : List Param) :
    ReadsParams ((commas (params.map fun p => [.name p.name])).map Piece.bare)
      (params.map Param.name) := by
  induction params with
  | nil => exact readsParams_nil
  | cons p ps ih =>
    cases ps with
    | nil => exact readsParams_single p.name
    | cons => exact readsParams_cons p.name ih

/-! ### Statements -/

theorem tokens_header {ls : List Layout} (h : ls ≠ []) :
    (Layout.header ps ls).tokens = ps.map Piece.bare ++ suiteTokens (tokensAll ls) := by
  rw [Layout.header, Layout.tokens, if_neg (by simpa using h), map_append, append_assoc]
  rfl

theorem tokensAll_header {ls : List Layout} (h : ls ≠ []) :
    tokensAll [.header ps ls] = ps.map Piece.bare ++ suiteTokens (tokensAll ls) := by
  rw [tokensAll, tokens_header h, tokensAll, append_nil]

theorem layouts_ne_nil (k : Kind) (s : Stmt) : s.layouts style k ≠ [] := by
  cases s with
  | ret _ result => cases result <;> exact cons_ne_nil _ _
  | _ => exact cons_ne_nil _ _

theorem blockLayouts_ne_nil {ss : List Stmt} (h : ss ≠ []) : blockLayouts style ss ≠ [] := by
  obtain ⟨s, ss, rfl⟩ := exists_cons_of_ne_nil h
  exact append_ne_nil_of_left_ne_nil (layouts_ne_nil style .kwIf s) _

mutual

/-- **A printed statement reads as itself**, and a conditional also after an `else`. -/
theorem reads_layouts (style : Style) : ∀ {s : Stmt}, s.Formed →
    ReadsStmt (tokensAll (s.layouts style .kwIf)) s ∧
      (s.isCond = true → ∃ bs, tokensAll (s.layouts style .kwElif) = fixed .kwElif :: bs ∧
        ReadsCond (fixed .kwElif :: bs) s)
  | .funcDef pos name namePos params body, .funcDef _ _ nonempty hbody => by
    refine ⟨?_, nofun⟩
    have hsuite := readsSuite_of_stmts (reads_blockLayouts style hbody)
    rw [Stmt.layouts, tokensAll_header (blockLayouts_ne_nil style nonempty), map_cons,
      map_cons, map_cons, map_append, cons_append, cons_append, cons_append, append_assoc]
    exact readsStmt_def (readsParams_names params) hsuite name pos namePos
  | .assign target others pos value, .assign htargets hvalue => by
    refine ⟨?_, nofun⟩
    obtain ⟨htarget, hothers⟩ := forall_mem_cons.mp htargets
    rw [Stmt.layouts, Token.tokensAll_line, flatMap_cons, append_assoc, append_assoc, map_append]
    exact readsStmt_line (readsLine_assign (readsWhole_pieces style (.plain htarget.1))
      (readsAssign_pieces style hothers hvalue)
      (fun t ht => unassignable?_of_isTarget (htargets t ht).2) pos)
  | .expr value, .expr hvalue => by
    refine ⟨?_, nofun⟩
    rw [Stmt.layouts, Token.tokensAll_line]
    exact readsStmt_line (readsLine_expr (readsWhole_pieces style hvalue))
  | .cond pos test body orElse, .cond htest nonempty hbody horElse => by
    have htokens : ∀ k, tokensAll ((Stmt.cond pos test body orElse).layouts style k) =
        fixed k :: ((test.pieces style).map Piece.bare ++
          (suiteTokens (tokensAll (blockLayouts style body)) ++
            tokensAll (elseLayouts style orElse))) := by
      intro k
      rw [Stmt.layouts, tokensAll, tokens_header (blockLayouts_ne_nil style nonempty), append_assoc]
      rfl
    have hcond := readsCond (reads_pieces style htest)
      (readsSuite_of_stmts (reads_blockLayouts style hbody)) (reads_elseLayouts style horElse)
    refine ⟨?_, fun _ => ⟨_, htokens .kwElif, hcond .kwElif (by decide) pos⟩⟩
    rw [htokens]
    exact readsStmt_if (hcond .kwIf (by decide) pos)
  | .loop pos test body, .loop htest nonempty hbody => by
    refine ⟨?_, nofun⟩
    have hsuite := readsSuite_of_stmts (reads_blockLayouts style hbody)
    rw [Stmt.layouts, tokensAll_header (blockLayouts_ne_nil style nonempty)]
    exact readsStmt_while (reads_pieces style htest) hsuite pos
  | .each pos target iter body, .each htarget hiter nonempty hbody => by
    refine ⟨?_, nofun⟩
    have hsuite := readsSuite_of_stmts (reads_blockLayouts style hbody)
    rw [Stmt.layouts, tokensAll_header (blockLayouts_ne_nil style nonempty), map_cons,
      map_append, map_cons, cons_append, append_assoc]
    exact readsStmt_for (reads_sub style (by decide) (reads_body style htarget))
      (reads_pieces style hiter) hsuite pos
  | .ret pos none, .ret _ => by
    refine ⟨?_, nofun⟩
    exact readsStmt_line (readsLine_ret pos)
  | .ret pos (some e), .ret hresult => by
    refine ⟨?_, nofun⟩
    rw [Stmt.layouts, Token.tokensAll_line]
    exact readsStmt_line (readsLine_ret_some (reads_pieces style (hresult e rfl)) pos)
  | .pass pos, .pass =>
    ⟨readsStmt_line (readsLine_word rfl (fun _ _ => rfl) (fun _ _ => rfl) pos), nofun⟩
  | .brk pos, .brk =>
    ⟨readsStmt_line (readsLine_word rfl (fun _ _ => rfl) (fun _ _ => rfl) pos), nofun⟩
  | .cont pos, .cont =>
    ⟨readsStmt_line (readsLine_word rfl (fun _ _ => rfl) (fun _ _ => rfl) pos), nofun⟩

theorem reads_blockLayouts (style : Style) : ∀ {ss : List Stmt}, (∀ s ∈ ss, s.Formed) →
    ReadsStmts (tokensAll (blockLayouts style ss)) ss
  | [], _ => readsStmts_nil
  | s :: ss, h => by
    rw [blockLayouts, Token.tokensAll_append]
    exact readsStmts_cons (reads_layouts style (h s mem_cons_self)).1
      (reads_blockLayouts style fun s' hs' => h s' (mem_cons_of_mem _ hs'))

theorem reads_elseLayouts (style : Style) : ∀ {ss : List Stmt}, (∀ s ∈ ss, s.Formed) →
    ReadsElse (tokensAll (elseLayouts style ss)) ss
  | [], _ => readsElse_nil
  | s :: ss, h => by
    -- A single conditional may share the line of the `else`; all else is a block below it.
    obtain ⟨hstmt, hcond⟩ := reads_layouts style (h s mem_cons_self)
    have hss := reads_blockLayouts style fun s' hs' => h s' (mem_cons_of_mem _ hs')
    rw [elseLayouts]
    split
    · rename_i helif
      simp only [Bool.and_eq_true, List.isEmpty_iff] at helif
      obtain ⟨⟨-, his⟩, rfl⟩ := helif
      obtain ⟨bs, htokens, hcond⟩ := hcond his
      rw [htokens]
      exact readsElse_elif hcond
    · have hne := append_ne_nil_of_left_ne_nil (layouts_ne_nil style .kwIf s)
        (blockLayouts style ss)
      rw [tokensAll_header hne, Token.tokensAll_append]
      exact readsElse_else (readsSuite_of_stmts (readsStmts_cons hstmt hss))

end

/-! ### Programs -/

/-- **Parsing undoes printing.** In every style, the text of a program of the language is read
without a complaint, and as this program up to positions. -/
theorem parse_text (style : Style) {m : Module} (h : m.Formed) :
    (parse (m.text style)).diagnostics = [] ∧ (parse (m.text style)).incomplete = false ∧
      (parse (m.text style)).module.erase = m.erase := by
  obtain ⟨htokens, hquiet⟩ := Token.lex_textAll (sound_blockLayouts style h)
  have hreads := reads_blockLayouts style h
  rw [← htokens] at hreads
  obtain ⟨hnone, hcomplete, hbody⟩ := parse_of_reads hquiet hreads
  exact ⟨hnone, hcomplete, congrArg Module.mk hbody⟩

/-- A program with most kinds of nodes, whose operators are nested against their precedence. -/
def pulse : Module :=
  let a := Expr.name nowhere "a"
  let b := Expr.name nowhere "b"
  let y := Expr.name nowhere "y"
  let bounds := [(.lt, nowhere, b), (.le, nowhere, .int nowhere 31 "0x1F")]
  let test := Expr.boolOp nowhere .and (.unary nowhere .not (.compare a bounds))
    [.boolOp nowhere .or b [.bool nowhere true]]
  let value := Expr.binary nowhere .sub
    (.binary nowhere .sub a (.binary nowhere .mul (.unary nowhere .neg b) a))
    (.binary nowhere .shl a b)
  let call := Expr.call (.name nowhere "f") nowhere [b] nowhere
  ⟨[.funcDef nowhere "pulse" nowhere [⟨"a", nowhere⟩, ⟨"b", nowhere⟩]
    [.loop nowhere test
      [.assign (.attr (.name nowhere "out") "x" nowhere) [y] nowhere (.yield nowhere (some value)),
        .cond nowhere y [.ret nowhere (some (.list nowhere [a, call] nowhere))]
          [.cond nowhere b [.pass nowhere] [.brk nowhere]]]]]⟩

theorem pulse_formed : pulse.Formed := by
  have ha : (Expr.name nowhere "a").Formed := .name ⟨by decide, by decide⟩
  have hb : (Expr.name nowhere "b").Formed := .name ⟨by decide, by decide⟩
  have hy : (Expr.name nowhere "y").Formed := .name ⟨by decide, by decide⟩
  have hf : (Expr.name nowhere "f").Formed := .name ⟨by decide, by decide⟩
  have hlimit : (Expr.int nowhere 31 "0x1F").Formed :=
    .int ⟨⟨'0', ['x', '1', 'F'], rfl, rfl⟩, rfl⟩
  have hout : (Expr.attr (.name nowhere "out") "x" nowhere).Formed :=
    .attr (.name ⟨by decide, by decide⟩) ⟨by decide, by decide⟩
  have hcall : (Expr.call (.name nowhere "f") nowhere [.name nowhere "b"] nowhere).Formed :=
    .call hf (by simpa using hb)
  refine forall_mem_singleton.mpr (.funcDef ⟨by decide, by decide⟩ ?_ nofun
    (forall_mem_singleton.mpr (.loop ?_ nofun ?_)))
  · simpa using ⟨⟨by decide, by decide⟩, ⟨by decide, by decide⟩⟩
  · refine .boolOp (.unary (.compare ha nofun ?_)) nofun (forall_mem_singleton.mpr ?_)
    · simpa using ⟨hb, hlimit⟩
    · exact .boolOp hb nofun (forall_mem_singleton.mpr .bool)
  · refine forall_mem_cons.mpr ⟨.assign ?_ (.yield ?_), forall_mem_singleton.mpr
      (.cond hy nofun ?_ (forall_mem_singleton.mpr (.cond hb nofun ?_ ?_)))⟩
    · simpa using ⟨⟨hout, rfl⟩, hy, rfl⟩
    · simpa using .binary (.binary ha (.binary (.unary hb) ha)) (.binary ha hb)
    · exact forall_mem_singleton.mpr (.ret (by simpa using .list (by simpa using ⟨ha, hcall⟩)))
    · exact forall_mem_singleton.mpr .pass
    · exact forall_mem_singleton.mpr .brk

/-- With brackets around every operand, and with as few as can be. -/
theorem pulse_read_back :
    pulse.Formed ∧
    pulse.text .full = ["def pulse(a, b):",
      "    while (not (a < b <= 0x1F)) and (b or True):",
      "        out.x = y = yield (a - ((-b) * a)) - (a << b)",
      "        if y:",
      "            return [a, (f(b))]",
      "        else:",
      "            if b:",
      "                pass",
      "            else:",
      "                break"].flatMap (fun line => line.toList ++ ['\n']) ∧
    pulse.text .minimal = ["def pulse(a, b):",
      "    while not a < b <= 0x1F and (b or True):",
      "        out.x = y = yield a - -b * a - (a << b)",
      "        if y:",
      "            return [a, f(b)]",
      "        elif b:",
      "            pass",
      "        else:",
      "            break"].flatMap (fun line => line.toList ++ ['\n']) ∧
    ((parse (pulse.text .full)).diagnostics = [] ∧ (parse (pulse.text .full)).incomplete = false ∧
      (parse (pulse.text .full)).module.erase = pulse.erase) ∧
    (parse (pulse.text .minimal)).diagnostics = [] ∧
      (parse (pulse.text .minimal)).incomplete = false ∧
      (parse (pulse.text .minimal)).module.erase = pulse.erase :=
  ⟨pulse_formed, by decide +kernel, by decide +kernel, parse_text .full pulse_formed,
    parse_text .minimal pulse_formed⟩

end Sequencer.Program
