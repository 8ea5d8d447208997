import Sequencer.Proofs.Verilog.Tokens

/-!
# Reading back what is written

The text of a module is read back, if its names are legal and its widths and indices are no negative
numbers. Each part is *legible* by itself: whatever it stands in, its tokens are read as what they
were written for. A text does not tell which assignments of a block are its defaults, so what is
read is the `plain` module, which has the same runs.
-/

namespace Sequencer.Verilog

open List Block
open Circuit Reader

/-! ### Expressions -/

section Expressions

variable {x : String} {e : Expr} {n : Nat}

/-- An expression whose text is read back. -/
def Expr.Legible (e : Expr) : Prop :=
  ∀ n, (tokens e.text).length ≤ n → Reads (ahead ["["] · = false) (expr n) (tokens e.text) e

theorem Expr.Legible.before (h : e.Legible) (hn : (tokens e.text).length ≤ n) :
    Reads (ahead [";"] · = true) (expr n) (tokens e.text) e := by
  intro rest hrest
  obtain ⟨rest, rfl⟩ := ahead_iff.mp hrest
  exact h n hn _ rfl

theorem legible_of_operand (ts : List (List Char)) (h : Legal x)
    (htokens : tokens e.text = words [x] ++ ts)
    (hread : Reads (ahead ["["] · = false) operand (words [x] ++ ts) e) : e.Legible := by
  intro n hn
  rw [htokens] at hn ⊢
  cases n with
  | zero => exact absurd hn (Nat.not_succ_le_zero _)
  | succ n =>
    refine reads_if_not_starts (fun rest _ => ?_) (reads_orElse_right (fun rest => ?_) hread)
    · rw [append_assoc]
      exact h.solid.ahead rfl _
    · rw [append_assoc]
      show (number _ >>= _) = none
      rw [number_of_legal h]
      rfl

theorem legible_name (h : Legal x) : (Expr.name x).Legible :=
  legible_of_operand [] h h.solid.tokens
    ((takes_name h).bind (reads_if_not_starts (fun _ hrest => hrest) fun _ _ => rfl))

theorem legible_bit (h : Legal x) (index : Nat) : (Expr.bit x index).Legible := by
  refine legible_of_operand (words ["["] ++ (words [toString index] ++ words ["]"])) h ?_ ?_
  · show tokens (x ++ "[" ++ toString index ++ "]") = _
    simp (disch := decide) only [String.append_assoc, tokens_append_left, tokens_append_between,
      tokens_append_right, h.solid.tokens, (solid_toString index).tokens]
    rfl
  · refine (takes_name h).bind (reads_if_starts (fun _ => rfl)
      ((takes_expect ["["]).bind ((takes_natural index).bind ?_)))
    exact (reads_optional (g := fun low => words [toString low]) (o := none) fun low hlow =>
      absurd hlow (Option.not_mem_none _)).bind (takes_expect _).map fun _ _ => rfl

theorem legible_part (h : Legal x) (high low : Nat) : (Expr.part x high low).Legible := by
  refine legible_of_operand (words ["["] ++ (words [toString high] ++
    (words [":"] ++ words [toString low] ++ words ["]"]))) h ?_ ?_
  · show tokens (x ++ "[" ++ toString high ++ ":" ++ toString low ++ "]") = _
    simp (disch := decide) only [String.append_assoc, tokens_append_left, tokens_append_between,
      tokens_append_right, h.solid.tokens, (solid_toString high).tokens,
      (solid_toString low).tokens]
    rfl
  · refine (takes_name h).bind (reads_if_starts (fun _ => rfl)
      ((takes_expect ["["]).bind ((takes_natural high).bind ?_)))
    exact (reads_optional (g := fun low => words [toString low]) (o := some low)
      fun low _ => takes_natural low).bind (takes_expect _).map fun _ _ => rfl

theorem legible_number {k : Number} (h : 0 ≤ k.width) : (Expr.number k).Legible := by
  intro n hn
  have hread := takes_number h
  obtain ⟨width, v⟩ := k
  obtain ⟨width, rfl⟩ := Int.eq_ofNat_of_zero_le h
  rw [Expr.text, tokens_number] at hn ⊢
  rw [tokens_number] at hread
  cases n with
  | zero => exact absurd hn (Nat.not_succ_le_zero _)
  | succ n =>
    exact reads_if_not_starts (fun _ _ => (solid_toString width).ahead rfl _)
      (reads_orElse_left hread.map)

theorem legible_binary {op : Op} {l r : Expr} (hop : ∀ code, op ≠ .unknown code) (hl : l.Legible)
    (hr : r.Legible) : (Expr.binary op l r).Legible := by
  obtain ⟨htoken, hread, hnext⟩ := takes_operator hop
  have htokens : tokens (Expr.binary op l r).text =
      words ["("] ++ (tokens l.text ++ (words [op.symbol] ++ (tokens r.text ++ words [")"]))) := by
    simp (disch := decide) only [Expr.text, String.append_assoc, tokens_append_left,
      tokens_append_between, tokens_append_right, htoken]
    rfl
  intro n hn
  rw [htokens] at hn ⊢
  cases n with
  | zero => exact absurd hn (Nat.not_succ_le_zero _)
  | succ n =>
    simp only [length_append, length_words, length_singleton] at hn
    refine reads_if_starts (fun _ => rfl) ((takes_expect ["("]).bind ((hl n (by omega)).bind
      (hread.bind ((hr n (by omega)).bind (takes_expect [")"]).map fun _ _ => rfl))
        fun rest _ => ?_))
    rw [append_assoc]
    exact hnext _

end Expressions

/-! ### Statements -/

section Statements

variable {sign : String} {level n : Nat} {ss : List Stmt}

theorem closed_stmt (sign : String) (level : Nat) (s : Stmt) : Closed (s.render sign level) := by
  cases s with
  | assign =>
    rw [Stmt.render, ← String.empty_append (s := line ..)]
    exact closed_append_line _ _ _
  | branch | select => exact closed_append_line _ _ _

theorem closed_render (sign : String) (level : Nat) (ss : List Stmt) :
    Closed (render sign level ss) := by
  induction ss with
  | nil => exact tokens_empty_append
  | cons s ss ih => exact (closed_stmt sign level s).append ih

theorem tokens_render (sign : String) (level : Nat) (ss : List Stmt) :
    tokens (render sign level ss) = ss.flatMap fun s => tokens (s.render sign level) := by
  induction ss with
  | nil => rfl
  | cons s ss ih => rw [render, closed_stmt, ih, flatMap_cons]

/-- A statement whose text is read back, whatever the sign of an assignment is. Only `else` can be
mistaken for a part of it. -/
structure Stmt.Legible (s : Stmt) : Prop where
  reads : ∀ {sign}, Solid sign → ∀ level n, (tokens (s.render sign level)).length < n →
    Reads (ahead ["else"] · = false) (stmt sign n (stmts sign n)) (tokens (s.render sign level)) s
  first : ∀ {sign}, Solid sign → ∀ level rest,
    ahead ["else"] (tokens (s.render sign level) ++ rest) = false

/-- The tokens of a block. -/
def blockTokens (sign : String) (level : Nat) (ss : List Stmt) : List (List Char) :=
  words ["begin"] ++ (tokens (render sign level ss) ++ words ["end"])

theorem takes_block (hsign : Solid sign) (h : ∀ s ∈ ss, s.Legible)
    (hn : (blockTokens sign level ss).length ≤ n) :
    Takes (block (stmts sign n)) (blockTokens sign level ss) ss := by
  refine takes_between fun rest hrest => ?_
  obtain ⟨rest, rfl⟩ := ahead_iff.mp hrest
  rw [blockTokens, length_append, length_append, tokens_render] at hn
  rw [tokens_render]
  cases n with
  | zero => exact absurd hn (by simp [length_words])
  | succ n =>
    simp only [length_words, length_singleton] at hn
    refine reads_many (P := (ahead ["else"] · = false)) (by omega) (fun s hs => ?_)
      (fun s hs => (h s hs).first hsign level) _ ⟨rfl, rfl⟩
    have hlength := length_le_flatMap (g := fun s : Stmt => tokens (s.render sign level)) hs
    exact (h s hs).reads hsign level n (by omega)

theorem reads_optionalBlock {ws : List String} {o : Option (List Stmt)} (hsign : Solid sign)
    (h : ∀ ss ∈ o, ∀ s ∈ ss, s.Legible)
    (hn : (optionTokens ws (blockTokens sign level) o).length ≤ n) :
    Reads (ahead ws · = false) (optional ws (block (stmts sign n)))
      (optionTokens ws (blockTokens sign level) o) o := by
  refine reads_optional fun ss hss => takes_block hsign (h ss hss) ?_
  rw [Option.mem_def.mp hss, optionTokens, Option.elim, length_append] at hn
  omega

theorem legible_assign {x : String} {e : Expr} (hx : Legal x) (he : e.Legible) :
    (Stmt.assign x e).Legible := by
  have htokens : ∀ {sign}, Solid sign → ∀ level, tokens ((Stmt.assign x e).render sign level) =
      words [x] ++ (words [sign] ++ (tokens e.text ++ words [";"])) := by
    intro sign hsign level
    rw [Stmt.render, tokens_lastLine]
    show tokens (x ++ " " ++ sign ++ " " ++ e.text ++ ";") = _
    simp (disch := decide) only [String.append_assoc, tokens_append_left, tokens_append_between,
      tokens_append_right, hx.solid.tokens, hsign.tokens]
    rfl
  have hne : ∀ k ∈ keywords, ∀ ts, ahead [k] (words [x] ++ ts) = false := by
    intro k hk ts
    refine ahead_of_ne ?_ ts
    rintro rfl
    exact hx.2 hk
  refine ⟨fun hsign level n hn => ?_, fun hsign level rest => ?_⟩
  · rw [htokens hsign] at hn ⊢
    simp only [length_append, length_words, length_singleton] at hn
    exact reads_if_not_starts (fun _ _ => hne "if" (by decide) _)
      (reads_if_not_starts (fun _ _ => hne "case" (by decide) _)
        ((takes_name hx).bind (Takes.map (takes_between (he.before (by omega))))))
  · rw [htokens hsign]
    exact hne "else" (by decide) _

theorem legible_branch {test : Expr} {yes : List Stmt} {no : Option (List Stmt)}
    (htest : test.Legible) (hyes : ∀ s ∈ yes, s.Legible) (hno : ∀ ss ∈ no, ∀ s ∈ ss, s.Legible) :
    (Stmt.branch test yes no).Legible := by
  have htokens : ∀ sign level, tokens ((Stmt.branch test yes no).render sign level) =
      words ["if", "("] ++ (tokens test.text ++ (words [")"] ++ (blockTokens sign (level + 1) yes ++
        optionTokens ["else"] (blockTokens sign (level + 1)) no))) := by
    intro sign level
    cases no <;>
    · simp (disch := decide) only [Stmt.render, renderOption, Option.isSome, if_true, if_false,
        Bool.false_eq_true, String.append_assoc, String.empty_append, tokens_append_left,
        tokens_append_right, tokens_line, tokens_lastLine, closed_render _ _ _ _, blockTokens,
        append_assoc, toString]
      rfl
  refine ⟨fun hsign level n hn => ?_, fun hsign level rest => ?_⟩
  · rw [htokens] at hn ⊢
    simp only [length_append, length_words] at hn
    exact reads_if_starts (fun _ => rfl) ((takes_expect ["if", "("]).bind
      ((htest n (by omega)).bind ((takes_expect [")"]).bind
        ((takes_block hsign hyes (by omega)).bind
          (reads_optionalBlock hsign hno (by omega)).map)) fun _ _ => rfl))
  · rw [htokens]
    rfl

/-- The tokens of an arm of a selection. -/
def armTokens (sign : String) (level : Nat) (arm : Number × List Stmt) : List (List Char) :=
  tokens arm.1.text ++ (words [":"] ++ blockTokens sign (level + 1) arm.2)

theorem tokens_renderArms (sign : String) (level : Nat) (arms : List (Number × List Stmt))
    (t : String) : tokens (renderArms sign level arms ++ t) =
      arms.flatMap (armTokens sign level) ++ tokens t := by
  induction arms with
  | nil => exact tokens_empty_append t
  | cons arm arms ih =>
    simp (disch := decide) only [renderArms, String.append_assoc, tokens_line, tokens_append_right,
      closed_render _ _ _ _, ih, flatMap_cons, armTokens, blockTokens, append_assoc, toString]
    rfl

theorem legible_select {test : Expr} {arms : List (Number × List Stmt)}
    {other : Option (List Stmt)} (htest : test.Legible)
    (harms : ∀ arm ∈ arms, 0 ≤ arm.1.width ∧ ∀ s ∈ arm.2, s.Legible)
    (hother : ∀ ss ∈ other, ∀ s ∈ ss, s.Legible) : (Stmt.select test arms other).Legible := by
  have htokens : ∀ sign level, tokens ((Stmt.select test arms other).render sign level) =
      words ["case", "("] ++ (tokens test.text ++ (words [")"] ++
        (arms.flatMap (armTokens sign (level + 1)) ++
          (optionTokens ["default", ":"] (blockTokens sign (level + 2)) other ++
            words ["endcase"])))) := by
    intro sign level
    cases other <;>
    · simp (disch := decide) only [Stmt.render, renderOption, Option.isSome, if_true, if_false,
        Bool.false_eq_true, String.append_assoc, String.empty_append, tokens_append_left,
        tokens_append_right, tokens_line, tokens_lastLine, closed_render _ _ _ _,
        tokens_renderArms, optionTokens, Option.elim, blockTokens, append_assoc, toString]
      rfl
  refine ⟨fun {sign} hsign level n hn => ?_, fun hsign level rest => ?_⟩
  · rw [htokens] at hn ⊢
    simp only [length_append, length_words] at hn
    have harm : ∀ arm ∈ arms, Takes (Reader.arm (stmts sign n)) (armTokens sign (level + 1) arm)
        arm := by
      intro arm harm
      have hlength := length_le_flatMap (g := armTokens sign (level + 1)) harm
      rw [armTokens, length_append, length_append] at hlength
      exact (takes_number (harms arm harm).1).bind ((takes_expect [":"]).bind
        (takes_block hsign (harms arm harm).2 (by omega)).map)
    refine reads_if_not_starts (fun _ _ => rfl) (reads_if_starts (fun _ => rfl)
      ((takes_expect ["case", "("]).bind ((htest n (by omega)).bind ((takes_expect [")"]).bind
        ((reads_many (P := fun _ => True) (by omega) (fun arm h => (harm arm h).reads)
          fun _ _ _ => trivial).bind ((reads_optionalBlock hsign hother (by omega)).bind
            (takes_expect ["endcase"]).map fun _ _ => rfl)
              fun _ _ => ⟨trivial, ?_⟩)) fun _ _ => rfl)))
    cases other <;> rfl
  · rw [htokens]
    rfl

end Statements

/-! ### Declarations -/

section Declarations

variable {x : String} {width : Int} {n : Nat}

theorem exists_rangeTokens (h : 1 ≤ width) : ∃ ts, Reads (ahead ["["] · = false) range ts width ∧
    (∀ t, tokens (rangeText width ++ t) = ts ++ tokens t) ∧
    ∀ rest, ahead ["reg"] rest = false → ahead ["reg"] (ts ++ rest) = false := by
  by_cases hone : width ≤ 1
  · obtain rfl : width = 1 := by omega
    exact ⟨[], reads_if_not_starts (fun _ hrest => hrest) fun _ _ => rfl, tokens_empty_append,
      fun _ hrest => hrest⟩
  · obtain ⟨high, hhigh⟩ := Int.eq_ofNat_of_zero_le (show 0 ≤ width - 1 by omega)
    obtain rfl : width = high + 1 := by omega
    refine ⟨words ["["] ++ (words [toString high] ++ words [":", "0", "]"]), ?_, fun t => ?_,
      fun _ _ => rfl⟩
    · exact reads_if_starts (fun _ => rfl) ((takes_expect ["["]).bind
        ((takes_natural high).bind (takes_expect _).map))
    · rw [rangeText, if_neg hone, hhigh]
      show tokens ("[" ++ toString high ++ ":0] " ++ t) = _
      simp (disch := decide) only [String.append_assoc, tokens_append_left, tokens_append_between,
        (solid_toString high).tokens, append_assoc]
      rfl

theorem takes_declared (h : 1 ≤ width) (hx : Legal x) :
    Takes declared (tokens (rangeText width ++ x)) (width, x) ∧
      ∀ rest, ahead ["reg"] (tokens (rangeText width ++ x) ++ rest) = false := by
  obtain ⟨ts, hreads, htokens, hreg⟩ := exists_rangeTokens h
  rw [htokens, hx.solid.tokens]
  refine ⟨hreads.bind (takes_name hx).map fun _ _ => hx.solid.ahead rfl _, fun rest => ?_⟩
  rw [append_assoc]
  refine hreg _ (ahead_of_ne ?_ _)
  rintro rfl
  exact hx.2 (by decide)

/-- The tokens of a port. -/
def portTokens (p : PortDecl) : List (List Char) := words [","] ++ tokens p.text

theorem takes_port {p : PortDecl} (h : 1 ≤ p.width) (hx : Legal p.ident) :
    Takes port (portTokens p) p := by
  obtain ⟨hread, hreg⟩ := takes_declared h hx
  obtain ⟨dir, isReg, width, x⟩ := p
  have htokens : tokens (PortDecl.text ⟨dir, isReg, width, x⟩) = words [dir.text] ++
      (optionTokens ["reg"] (fun _ => []) (if isReg then some () else none) ++
        tokens (rangeText width ++ x)) := by
    cases dir <;> cases isReg <;>
    · simp (disch := decide) only [PortDecl.text, Direction.text, String.append_assoc,
        tokens_append_left, tokens_append_between, if_true, if_false, Bool.false_eq_true]
      rfl
  have hdir : Takes (token fun t => if t = "input".toList then some Direction.input
      else if t = "output".toList then some .output else none) (words [dir.text]) dir := by
    cases dir <;> exact takes_token rfl
  rw [portTokens, htokens]
  refine (takes_expect [","]).bind (hdir.bind ?_)
  cases isReg <;> exact (reads_optional fun _ _ _ _ => rfl).bind hread.map fun rest _ => hreg rest

/-- A declaration with legal names and widths. -/
def Decl.Legible : Decl → Prop
  | .constant x k => Legal x ∧ 0 ≤ k.width
  | .reg width x k => 1 ≤ width ∧ Legal x ∧ 0 ≤ k.width
  | .wire width x e => 1 ≤ width ∧ Legal x ∧ e.Legible

theorem tokens_given {kind : String} (h : kind.toList.getLast?.any isApart = true) (s t : String) :
    tokens (kind ++ s ++ " = " ++ t ++ ";") =
      tokens kind ++ (tokens s ++ (words ["="] ++ (tokens t ++ words [";"]))) := by
  rw [String.append_assoc, String.append_assoc, String.append_assoc, tokens_append_left _ h]
  simp (disch := decide) only [tokens_append_left, tokens_append_between, tokens_append_right]
  rfl

theorem takes_decl {d : Decl} (h : d.Legible) (hn : (tokens d.text).length ≤ n) :
    Takes (decl n) (tokens d.text) d := by
  cases d with
  | constant x k =>
    rw [show Decl.text (.constant x k) = "assign " ++ x ++ " = " ++ k.text ++ ";" from rfl,
      tokens_given rfl, h.1.solid.tokens]
    exact reads_if_starts (fun _ => rfl) ((takes_expect ["assign"]).bind ((takes_name h.1).bind
      (Takes.map (takes_between (takes_number h.2).reads))))
  | reg width x k =>
    have htext : Decl.text (.reg width x k) =
        "reg " ++ (rangeText width ++ x) ++ " = " ++ k.text ++ ";" := by
      rw [← String.append_assoc]
      rfl
    rw [htext, tokens_given rfl]
    exact reads_if_not_starts (fun _ _ => rfl) (reads_if_starts (fun _ => rfl)
      ((takes_expect ["reg"]).bind ((takes_declared h.1 h.2.1).1.bind
        (Takes.map (takes_between (takes_number h.2.2).reads)))))
  | wire width x e =>
    have htext : Decl.text (.wire width x e) =
        "wire " ++ (rangeText width ++ x) ++ " = " ++ e.text ++ ";" := by
      rw [← String.append_assoc]
      rfl
    rw [htext, tokens_given rfl] at hn ⊢
    simp only [length_append] at hn
    exact reads_if_not_starts (fun _ _ => rfl) (reads_if_not_starts (fun _ _ => rfl)
      ((takes_expect ["wire"]).bind ((takes_declared h.1 h.2.1).1.bind
        (Takes.map (takes_between (h.2.2.before (by omega)))))))

end Declarations

/-! ### Blocks -/

section Blocks

variable {n : Nat}

/-- The numbers of a block as assignments. -/
def Block.resets (b : Block) : List Stmt := b.numbers.map fun p => .assign p.1 (.number p.2)

/-- The statements of a block, in the order in which they are written. -/
def Block.stmts (b : Block) : List Stmt := b.resets ++ b.body

theorem numberLines_eq (sign : String) (level : Nat) (b : Block) :
    numberLines sign level b.numbers = render sign level b.resets := by
  rw [numberLines, resets]
  induction b.numbers with
  | nil => rfl
  | cons p numbers ih =>
    rw [map_cons, String.join_cons, ih]
    rfl

theorem render_append (sign : String) (level : Nat) (ss ts : List Stmt) :
    render sign level (ss ++ ts) = render sign level ss ++ render sign level ts := by
  induction ss with
  | nil => exact String.empty_append.symm
  | cons s ss ih => rw [cons_append, render, render, ih, String.append_assoc]

theorem tokens_renderComb (o : Option Block) (t : String) :
    tokens ((o.map renderComb).getD "" ++ t) =
      optionTokens alwaysWords (blockTokens "=" 1) (o.map stmts) ++
        tokens t := by
  cases o with
  | none => exact tokens_empty_append t
  | some b =>
    show tokens (b.renderComb ++ t) = _
    rw [renderComb, numberLines_eq]
    simp (disch := decide) only [String.append_assoc, closed_render _ _ _ _, tokens_append_left,
      Option.map_some, optionTokens, Option.elim, blockTokens, Block.stmts, render_append,
      append_assoc]
    rfl

/-- The tokens of the block at the clock edge. -/
def edgeTokens (b : Block) : List (List Char) :=
  words ["begin", "if", "(", "sys_rst", ")"] ++ (blockTokens "<=" 2 b.resets ++
    (words ["else"] ++ (blockTokens "<=" 2 b.body ++ words ["end"])))

theorem tokens_renderSync (o : Option Block) (t : String) :
    tokens ((o.map renderSync).getD "" ++ t) =
      optionTokens edgeWords edgeTokens o ++ tokens t := by
  cases o with
  | none => exact tokens_empty_append t
  | some b =>
    show tokens (b.renderSync ++ t) = _
    rw [renderSync, numberLines_eq]
    simp (disch := decide) only [String.append_assoc, closed_render _ _ _ _, tokens_append_left,
      optionTokens, Option.elim, edgeTokens, blockTokens, append_assoc]
    rfl

theorem takes_atEdge {b : Block} (h : ∀ s ∈ b.stmts, s.Legible) (hn : (edgeTokens b).length ≤ n) :
    Takes (atEdge n) (edgeTokens b) b := by
  have hresets : b.resets.mapM reset? = some b.numbers := by
    rw [resets]
    induction b.numbers with
    | nil => rfl
    | cons p numbers ih =>
      rw [map_cons, mapM_cons, ih]
      rfl
  obtain ⟨hreset, hbody⟩ := forall_mem_append.mp h
  simp only [edgeTokens, length_append] at hn
  exact (takes_expect _).bind ((takes_block solid_update hreset (by omega)).bind (reads_lift hresets
    ((takes_expect ["else"]).bind ((takes_block solid_update hbody (by omega)).bind
      (takes_expect ["end"]).map))))

end Blocks

/-! ### Modules -/

theorem behindComments_line {s : String} (h : '\n' ∉ s.toList) (t : List Char) :
    behindComments false ((line 0 ("//" ++ s)).toList ++ t) = behindComments false t := by
  have hinside : ∀ cs : List Char, '\n' ∉ cs →
      behindComments true (cs ++ '\n' :: t) = behindComments false t := by
    intro cs hcs
    induction cs with
    | nil => rfl
    | cons c cs ih =>
      rw [mem_cons, not_or] at hcs
      rw [cons_append, behindComments, decide_eq_true (Ne.symm hcs.1), ih hcs.2]
  simp only [line, String.toList_append, append_assoc]
  exact hinside _ h

theorem behindComments_header {m : Module} (h : '\n' ∉ m.digest.toList) (t : List Char) :
    behindComments false (m.header.toList ++ t) = behindComments false t := by
  rw [Module.header, String.toList_append, append_assoc]
  refine (behindComments_line (s := " Generated by fsmc. Do not edit.") (by decide) _).trans ?_
  split
  · rfl
  · refine behindComments_line (s := " source-sha3: " ++ m.digest) ?_ t
    rw [String.toList_append, mem_append, not_or]
    exact ⟨by decide, h⟩

theorem tokens_portLines (ports : List PortDecl) (t : String) :
    tokens (portLines ports ++ t) = words ["input", "sys_clk", ",", "input", "sys_rst"] ++
      (ports.flatMap portTokens ++ tokens t) := by
  have hlist : ∀ (l : List String) (s : String),
      tokens (",\n".intercalate ((s :: l).map ("\t" ++ ·)) ++ ("\n" ++ t)) =
        tokens s ++ (l.flatMap (fun s => words [","] ++ tokens s) ++ tokens t) := by
    intro l
    induction l with
    | nil =>
      intro s
      rw [map_singleton, String.intercalate_singleton]
      simp (disch := decide) only [String.append_assoc, tokens_append_left, tokens_append_between]
      rfl
    | cons u l ih =>
      intro s
      rw [map_cons, map_cons, String.intercalate_cons_cons, ← map_cons (f := ("\t" ++ ·))]
      simp (disch := decide) only [String.append_assoc, tokens_append_left, tokens_append_between,
        ih, flatMap_cons, append_assoc]
      rfl
  rw [portLines, String.append_assoc, hlist, flatMap_cons, flatMap_map]
  rfl

theorem tokens_decls (ds : List Decl) (t : String) :
    tokens (paragraph (ds.map fun d => line 0 d.text) ++ t) =
      ds.flatMap (fun d => tokens d.text) ++ tokens t := by
  have hlines : ∀ t, tokens (String.join (ds.map fun d => line 0 d.text) ++ t) =
      ds.flatMap (fun d => tokens d.text) ++ tokens t := by
    intro t
    induction ds with
    | nil => exact tokens_empty_append t
    | cons d ds ih =>
      rw [map_cons, String.join_cons, String.append_assoc, tokens_line, ih, flatMap_cons,
        append_assoc]
  unfold paragraph
  split
  · rename_i hempty
    rw [List.isEmpty_iff, map_eq_nil_iff] at hempty
    rw [hempty]
    exact tokens_empty_append t
  · rw [String.append_assoc, hlines, tokens_append_left (s := "\n") t rfl]
    rfl

/-- A module with legal names and widths, and a digest on one line. -/
structure Module.Legible (m : Module) : Prop where
  ident : Legal m.ident
  digest : '\n' ∉ m.digest.toList
  ports : ∀ p ∈ m.ports, 1 ≤ p.width ∧ Legal p.ident
  decls : ∀ d ∈ m.decls, d.Legible
  blocks : ∀ b, m.comb = some b ∨ m.sync = some b → ∀ s ∈ b.stmts, s.Legible

/-- What the text of a module says: the defaults are statements like others. -/
def Module.plain (m : Module) : Module :=
  { m with digest := "", comb := (m.comb.map Block.stmts).map (⟨[], ·⟩) }

/-- The text of a module behind its header. -/
def Module.body (m : Module) : String :=
  line 0 s!"module {m.ident}(" ++ (portLines m.ports ++ (line 0 ");" ++ ("\n" ++
    (paragraph (m.decls.map fun d => line 0 d.text) ++ ((m.comb.map renderComb).getD "" ++
      ((m.sync.map renderSync).getD "" ++ line 0 "endmodule"))))))

/-- The tokens of a module behind its header. -/
def Module.tokens (m : Module) : List (List Char) :=
  words ["module"] ++ (words [m.ident] ++
    (words ["(", "input", "sys_clk", ",", "input", "sys_rst"] ++
      (m.ports.flatMap portTokens ++ (words [")", ";"] ++
        (m.decls.flatMap (fun d => Verilog.tokens d.text) ++
          (optionTokens alwaysWords (blockTokens "=" 1) (m.comb.map stmts) ++
            (optionTokens edgeWords edgeTokens m.sync ++
              words ["endmodule"])))))))

namespace Module.Legible

variable {m : Module} (h : m.Legible)

include h

theorem tokens_body : Verilog.tokens m.body = m.tokens := by
  have hident : Verilog.tokens ("module " ++ m.ident ++ "(") = words ["module", m.ident, "("] := by
    simp (disch := decide) only [String.append_assoc, tokens_append_left, tokens_append_right,
      h.ident.solid.tokens]
    rfl
  rw [body, tokens_line, tokens_portLines, tokens_line, tokens_append_left (s := "\n") _ rfl,
    tokens_decls, tokens_renderComb, tokens_renderSync, tokens_lastLine]
  show Verilog.tokens ("module " ++ m.ident ++ "(") ++ _ = _
  rw [hident]
  rfl

theorem takes {n : Nat} (hn : m.tokens.length ≤ n) : Takes (wholeModule n) m.tokens m.plain := by
  simp only [Module.tokens, length_append, length_words, length_singleton] at hn
  have hports : Reads (fun rest => True ∧ port rest = none) (many port n) _ m.ports :=
    reads_many (P := fun _ => True) (by omega)
      (fun p hp => (takes_port (h.ports p hp).1 (h.ports p hp).2).reads) fun _ _ _ => trivial
  have hdecls : Reads (fun rest => True ∧ decl n rest = none) (many (decl n) n)
      (m.decls.flatMap fun d => Verilog.tokens d.text) m.decls := by
    refine reads_many (P := fun _ => True) (by omega) (fun d hd => ?_) fun _ _ _ => trivial
    have hlength := length_le_flatMap (g := fun d : Decl => Verilog.tokens d.text) hd
    exact (takes_decl (h.decls d hd) (by omega)).reads
  have hcomb : Reads (ahead alwaysWords · = false) (optional alwaysWords (block (stmts "=" n)))
      (optionTokens alwaysWords (blockTokens "=" 1) (m.comb.map stmts))
      (m.comb.map stmts) := by
    refine reads_optionalBlock solid_assign (fun ss hss => ?_) (by omega)
    obtain ⟨b, hb, rfl⟩ := Option.map_eq_some_iff.mp hss
    exact h.blocks b (.inl hb)
  have hsync : Reads (ahead edgeWords · = false) (optional edgeWords (atEdge n))
      (optionTokens edgeWords edgeTokens m.sync) m.sync := by
    refine reads_optional fun b hb => takes_atEdge (h.blocks b (.inr hb)) ?_
    have hlength : (edgeTokens b).length ≤ (optionTokens edgeWords edgeTokens m.sync).length := by
      rw [Option.mem_def.mp hb, optionTokens, Option.elim, length_append]
      omega
    omega
  refine (takes_expect ["module"]).bind ((takes_name h.ident).bind ((takes_expect _).bind
    (hports.bind ((takes_expect [")", ";"]).bind (hdecls.bind (hcomb.bind (hsync.bind
      (takes_expect ["endmodule"]).map fun _ _ => rfl) fun _ _ => ?_) fun _ _ => ⟨trivial, ?_⟩))
        fun _ _ => ⟨trivial, rfl⟩)))
  · cases m.sync <;> rfl
  · cases m.comb <;> cases m.sync <;> rfl

end Module.Legible

/-- **What is written is read back.** -/
theorem read_render {m : Module} (h : m.Legible) : Module.read m.render = some m.plain := by
  have hrender : m.render = m.header ++ m.body := by
    simp only [Module.render, Module.body, String.append_assoc]
  have hskip : behindComments false m.render.toList = m.body.toList := by
    rw [hrender, String.toList_append, behindComments_header h.digest]
    simp only [Module.body, line, String.toList_append]
    rfl
  have hread := h.takes (Nat.le_refl _) [] trivial
  rw [append_nil] at hread
  rw [Module.read, hskip, ← tokens, h.tokens_body, Module.ofTokens?, hread]
  rfl

end Sequencer.Verilog
