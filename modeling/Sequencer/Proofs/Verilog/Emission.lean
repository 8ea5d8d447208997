import Sequencer.Proofs.Verilog.Agreement
import Sequencer.Proofs.Verilog.ReadBack

/-!
# Emitted modules are legible

What is written for a proper fragment can be read back, and reading it back changes no run.
-/

namespace Sequencer.Verilog

open List
open Circuit Simulation Names

/-! ### Legible parts -/

/-- No keyword has an underscore, so a name that was made legal is none. -/
theorem legal_moduleName (name : String) : Legal (moduleName name) := by
  unfold moduleName
  split
  · refine ⟨⟨'t', ['o', 'p'], rfl, by decide, ?_⟩, by decide⟩
    exact forall_mem_cons.mpr ⟨.inl (by decide), forall_mem_singleton.mpr (.inl (by decide))⟩
  · rename_i hname
    simp only [Bool.or_eq_true, decide_eq_true_eq, contains_iff_mem, not_or] at hname
    refine ⟨isIdentifier_legalName name, fun hkeyword => hname.2 ?_⟩
    have hplain : ∀ k ∈ keywords, '_' ∉ k.toList := by decide
    have hnone := hplain _ hkeyword
    have hkept : ∀ (p : Char → Bool) (c : Char), '_' ≠ (if p c then c else '_') →
        (if p c then c else '_') = c := by
      intro p c hc
      split
      · rfl
      · rw [if_neg ‹_›] at hc
        exact absurd rfl hc
    have hsame : legalChars name.toList = name.toList := by
      rw [legalName, String.toList_ofList] at hnone
      cases hchars : name.toList with
      | nil => exact absurd (String.toList_eq_nil_iff.mp hchars) hname.1
      | cons c cs =>
        rw [hchars, legalChars, mem_cons, not_or] at hnone
        rw [legalChars, hkept _ c hnone.1]
        refine congrArg _ ((map_congr_left fun d hd => ?_).trans (map_id cs))
        exact hkept _ d fun heq => hnone.2 (mem_map.mpr ⟨d, hd, heq.symm⟩)
    rw [legalName, hsame, String.ofList_toList] at hkeyword
    exact hkeyword

variable {n : Names} {v : Value} {e : Expr}

theorem Names.Spells.covers (h : n.Spells v) : n.Covers v where
  signals := fun s hs => isSome_net?.mpr (h.signals s hs)
  wires := fun u hu => by rw [needsWire, ← h.wires u hu, Names.width?, Option.isSome_map]

theorem legible_exprOf (h : n.Spells v) (hnames : ∀ x ∈ e.names, Legal x)
    (he : exprOf n v = .ok e) : e.Legible := by
  induction v generalizing e with
  | hole => cases he
  | signal s =>
    cases he
    exact legible_name (hnames _ mem_cons_self)
  | const tag l =>
    cases he
    exact legible_number (Int.le_of_lt (width_of_isSized h.sized).1)
  | slice tag x lo hi =>
    cases he
    obtain ⟨ss, ⟨hlo, hhi, hwidth⟩, -⟩ := h.regular
    have hbound := (width_of_isSized h.inner.sized).2
    rw [names_select] at hnames
    have hname := hnames _ mem_cons_self
    obtain ⟨low, rfl⟩ := Int.eq_ofNat_of_zero_le hlo
    obtain ⟨high, hhigh⟩ := Int.eq_ofNat_of_zero_le (show 0 ≤ hi - 1 by omega)
    have hwrap : wrap (hi - 1) = high := by rw [wrap_eq_self (by omega) (by omega), hhigh]
    rw [select, hwrap]
    split
    · exact legible_name hname
    · split
      · exact legible_bit hname low
      · exact legible_part hname high low
  | binary tag op l r ihl ihr =>
    rw [exprOf] at he
    split at he
    · cases he
      exact legible_name (hnames _ mem_cons_self)
    · obtain ⟨left, right, hleft, hright, rfl⟩ := bind₂_eq_ok.mp he
      obtain ⟨hl, hr⟩ := forall_mem_append.mp hnames
      obtain ⟨ss, hop, -⟩ := h.regular
      exact legible_binary hop (ihl h.left hl hleft) (ihr h.right hr hright)

theorem one_le_of_wireWidth? {width : Int} (h : isSized v = true)
    (hwidth : wireWidth? v = some width) : 1 ≤ width := by
  cases v with
  | hole | signal | const => cases hwidth
  | binary tag op l r =>
    obtain ⟨-, rfl⟩ : ¬ op.isComparison = true ∧ _ = width := by simpa [wireWidth?] using hwidth
    exact (width_of_isSized h).1
  | slice tag x lo hi =>
    obtain ⟨-, rfl⟩ : ¬ indexable x = true ∧ _ = width := by simpa [wireWidth?] using hwidth
    simp only [isSized, Bool.and_eq_true] at h
    exact (width_of_isSized h.2).1

/-- A block that may be absent is written for one that is there. -/
theorem stmtsOf_of_stmtsOfOption {o : Option (List Circuit.Stmt)} {b : Option (List Stmt)}
    (h : stmtsOfOption n o = .ok b) : ∀ body ∈ b, ∃ ss ∈ o.toList, stmtsOf n ss = .ok body := by
  intro body hbody
  obtain _ | _ | ⟨s, ss⟩ := o
  · cases h
    cases hbody
  · cases h
    cases hbody
  · obtain ⟨x, y, hx, hy, rfl⟩ := bind₂_eq_ok.mp h
    obtain rfl := Option.some.inj hbody
    refine ⟨s :: ss, mem_cons_self, ?_⟩
    rw [stmtsOf, hx, hy]
    rfl

theorem stmtsOf_of_armsOf {width : Int} {arms : List (Literal × List Circuit.Stmt)}
    {b : List (Number × List Stmt)} (h : armsOf n width arms = .ok b) :
    ∀ arm ∈ b, arm.1.width = width ∧ ∃ ss ∈ arms.map Prod.snd, stmtsOf n ss = .ok arm.2 := by
  induction arms generalizing b with
  | nil =>
    cases h
    exact forall_mem_nil _
  | cons arm arms ih =>
    obtain ⟨x, y, hx, hy, rfl⟩ := bind₂_eq_ok.mp h
    refine forall_mem_cons.mpr ⟨⟨rfl, arm.2, mem_cons_self, hx⟩, fun arm' harm => ?_⟩
    obtain ⟨hwidth, ss, hss, hread⟩ := ih hy arm' harm
    exact ⟨hwidth, ss, mem_cons_of_mem _ hss, hread⟩

variable (hlegal : ∀ x ∈ n.given, Legal x)

include hlegal

theorem legible_of_spells (h : n.Spells v) (he : exprOf n v = .ok e) : e.Legible :=
  legible_exprOf h (fun x hx => hlegal x (names_exprOf_subset h.covers he hx)) he

theorem legible_wireValue {w : Wire} (h : n.Spells w.node) (he : wireValue n w = .ok e) :
    e.Legible := by
  obtain ⟨v, ident, width⟩ := w
  cases v with
  | hole | signal | const => exact legible_of_spells hlegal h he
  | slice tag x lo hi => exact legible_of_spells hlegal h.inner he
  | binary tag op l r =>
    obtain ⟨left, right, hleft, hright, rfl⟩ := bind₂_eq_ok.mp he
    obtain ⟨ss, hop, -⟩ := h.regular
    exact legible_binary hop (legible_of_spells hlegal h.left hleft)
      (legible_of_spells hlegal h.right hright)

theorem legible_stmtsOf (ss : List Circuit.Stmt) (h : ∀ s ∈ walk ss, n.Writes s)
    {body : List Stmt} (hbody : stmtsOf n ss = .ok body) : ∀ s ∈ body, s.Legible := by
  induction ss using blocks_induct generalizing body with
  | nil =>
    cases hbody
    exact forall_mem_nil _
  | cons s ss ihs ih =>
    simp only [walk, s.walk_eq_cons, cons_append, forall_mem_cons, forall_mem_append] at h
    obtain ⟨hself, hblocks, hrest⟩ := h
    have hvalue : ∀ v ∈ values s, ∀ e, exprOf n v = .ok e → e.Legible := fun v hv e he =>
      legible_of_spells hlegal (hself.values v hv) he
    have hblock : ∀ block ∈ s.blocks, ∀ b, stmtsOf n block = .ok b → ∀ t ∈ b, t.Legible :=
      fun block hmem b hb => ihs block hmem (fun t ht => hblocks t (mem_flatMap_of_mem hmem ht)) hb
    obtain ⟨a, b, ha, hb, rfl⟩ := bind₂_eq_ok.mp hbody
    refine forall_mem_append.mpr ⟨?_, ih hrest hb⟩
    have hoption : ∀ o b, (∀ block ∈ o.toList, block ∈ s.blocks) → stmtsOfOption n o = .ok b →
        ∀ body ∈ b, ∀ t ∈ body, t.Legible := by
      intro o b ho hb body hbody
      obtain ⟨block, hmem, hread⟩ := stmtsOf_of_stmtsOfOption hb body hbody
      exact hblock block (ho block hmem) body hread
    cases s with
    | hole | marker => cases ha
    | assign t v =>
      obtain ⟨e, he, ha⟩ := bind_eq_ok.mp ha
      cases ha
      refine forall_mem_singleton.mpr (legible_assign (hlegal _ ?_) (hvalue v mem_cons_self e he))
      exact signalName_mem_given (isSome_net?.mpr (hself.target t rfl))
    | branch test yes no =>
      obtain ⟨e, he, ha⟩ := bind_eq_ok.mp ha
      obtain ⟨yes', no', hyes, hno, rfl⟩ := bind₂_eq_ok.mp ha
      exact forall_mem_singleton.mpr (legible_branch (hvalue test mem_cons_self e he)
        (hblock yes mem_cons_self yes' hyes) (hoption no no' (fun _ => mem_cons_of_mem _) hno))
    | select test arms other =>
      rw [stmtOf] at ha
      split at ha
      · cases ha
        exact forall_mem_nil _
      · rename_i hwritten
        have htest : test ∈ values (.select test arms other) := by simp [values, hwritten]
        obtain ⟨e, he, ha⟩ := bind_eq_ok.mp ha
        obtain ⟨arms', other', harms, hother, rfl⟩ := bind₂_eq_ok.mp ha
        refine forall_mem_singleton.mpr (legible_select (hvalue test htest e he)
          (fun arm harm => ?_) (hoption other other' (fun _ => mem_append_right _) hother))
        obtain ⟨hwidth, block, hmem, hread⟩ := stmtsOf_of_armsOf harms arm harm
        refine ⟨?_, hblock block (mem_append_left _ hmem) arm.2 hread⟩
        rw [hwidth]
        exact Int.le_of_lt (width_of_isSized (hself.values test htest).sized).1

omit hlegal

/-! ### Legible modules -/

/-- **Emitted modules are legible.** -/
theorem Emitted.legible {ports : List Port} {f : Fragment} {m : Module}
    (h : Emitted ports f n m) (hident : Legal m.ident) (hdigest : '\n' ∉ m.digest.toList) :
    m.Legible := by
  have hlegal : ∀ x ∈ n.given, Legal x := h.names ▸ legal_ofFragment ports f
  have hnet : ∀ net ∈ n.nets, Legal net.ident ∧ 1 ≤ net.signal.bits := fun net hnet =>
    ⟨hlegal _ (mem_append_left _ (mem_map_of_mem hnet)), h.one_le_bits_of_mem (mem_map_of_mem hnet)⟩
  have hblock : ∀ driven ss b, (∀ s ∈ walk ss, s ∈ walk f.comb ∨ s ∈ walk f.sync) →
      blockOf n driven ss = .ok (some b) → ∀ s ∈ b.stmts, s.Legible := by
    intro driven ss b hss hb
    obtain ⟨hnone, -⟩ | ⟨body, hbody, hblock⟩ := block_cases hb
    · cases hnone
    obtain rfl := Option.some.inj hblock
    refine forall_mem_append.mpr ⟨fun s hs => ?_,
      legible_stmtsOf hlegal ss (fun s hs => h.writes (hss s hs)) hbody⟩
    simp only [Block.resets, map_map, mem_map, mem_filter] at hs
    obtain ⟨net, ⟨hmem, -⟩, rfl⟩ := hs
    obtain ⟨hname, hbits⟩ := hnet net hmem
    exact legible_assign hname (legible_number (Int.le_of_lt hbits))
  refine ⟨hident, hdigest, fun p hp => ?_, fun d hd => ?_, fun b hb => ?_⟩
  · rw [h.written.ports] at hp
    obtain ⟨net, hmem, hp⟩ := mem_filterMap.mp hp
    obtain ⟨hname, hwidth⟩ := width_portOf? hp
    rw [hname, hwidth]
    exact (hnet net hmem).symm
  · obtain ⟨net, hmem, hd⟩ | ⟨w, hw, e, he, rfl⟩ := h.written.mem_decls.mp hd
    · obtain ⟨hname, hbits⟩ := hnet net hmem
      obtain ⟨-, -, rfl⟩ | rfl := declOf?_cases hd
      · exact ⟨hname, Int.le_of_lt hbits⟩
      · exact ⟨hbits, hname, Int.le_of_lt hbits⟩
    · obtain ⟨hspell, -⟩ := h.spells_of_mem_wires hw
      refine ⟨?_, hlegal _ (mem_append_right _ (mem_map_of_mem hw)),
        legible_wireValue hlegal hspell he⟩
      exact one_le_of_wireWidth? hspell.sized (node_of_mem_wires (h.names ▸ hw)).2
  · obtain hb | hb := hb
    · exact hblock _ _ b (fun _ => .inl) (hb ▸ h.written.comb)
    · exact hblock _ _ b (fun _ => .inr) (hb ▸ h.written.sync)

/-! ### Runs of what is read back -/

theorem runComb_stmts (bits : String → Nat) (b : Block) (ρ : Store) :
    Block.runComb bits ⟨[], b.stmts⟩ ρ = b.runComb bits ρ := by
  have hnumbers : ∀ (ps : List (String × Number)) (ρ : Store),
      run bits id ρ (ps.map fun p => .assign p.1 (.number p.2)) =
        ps.foldl (fun ρ p => Function.update ρ p.1 (p.2.toNat % 2 ^ bits p.1)) ρ := by
    intro ps
    induction ps with
    | nil => exact fun _ => rfl
    | cons p ps ih => exact fun ρ => ih _
  show run bits id ρ (b.resets ++ b.body) = _
  rw [run_append, Block.resets, hnumbers]
  rfl

theorem settled_plain {m : Module} {ρ : Store} : m.plain.Settled ρ ↔ m.Settled ρ := by
  have hcomb : (∀ b ∈ m.plain.comb, b.runComb m.bits ρ = ρ) ↔
      ∀ b ∈ m.comb, b.runComb m.bits ρ = ρ := by
    rw [Module.plain]
    cases m.comb with
    | none => exact Iff.rfl
    | some b => simp [runComb_stmts]
  exact ⟨fun h => ⟨h.decls, hcomb.mp h.comb⟩, fun h => ⟨h.decls, hcomb.mpr h.comb⟩⟩

/-- **Reading a module back changes no run.** -/
theorem plays_plain {m : Module} {es : List (Event String Nat)} {ρ : Store} :
    m.plain.Plays es ρ ↔ m.Plays es ρ := by
  constructor
  · intro h
    induction h with
    | reset settled resets inputs => exact .reset (settled_plain.mp settled) resets inputs
    | put before input settled put inputs regs ih =>
      exact .put ih input (settled_plain.mp settled) put inputs regs
    | tick before settled inputs regs ih =>
      exact .tick ih (settled_plain.mp settled) inputs regs
  · intro h
    induction h with
    | reset settled resets inputs => exact .reset (settled_plain.mpr settled) resets inputs
    | put before input settled put inputs regs ih =>
      exact .put ih input (settled_plain.mpr settled) put inputs regs
    | tick before settled inputs regs ih =>
      exact .tick ih (settled_plain.mpr settled) inputs regs

end Sequencer.Verilog
