import Sequencer.Proofs.Design.Acceptance
import Sequencer.Proofs.Verilog.Reading

/-!
# Widths that do not wrap around

Nothing keeps a program from making a value too wide for 64-bit widths: a left shift by a constant
is wider by the constant itself. `Value.trueWidth` is counted without a bound.
-/

namespace Sequencer

open List
open Circuit Verilog Command Project Simulation

/-! ### Counting without a bound -/

namespace Circuit

/-- Whether widths are added up for the result of the operator. -/
def Op.isCounted : Op → Bool
  | .add | .sub | .mul | .shl => true
  | _ => false

namespace Value

/-- How many bits a left shift by `right`, which has `r` bits, adds. -/
def growth (right : Value) (r : Int) : Int :=
  match right with
  | const _ c => if 0 ≤ c.value then c.value.toInt else Nat.pow 2 (min r maxShiftBits).toNat - 1
  | _ => Nat.pow 2 (min r maxShiftBits).toNat - 1

/-- The width of an operator's result, counted without a bound. -/
def trueOpWidth (op : Op) (l : Int) (right : Value) (r : Int) : Int :=
  match op with
  | .add | .sub => max l r + 1
  | .mul => l + r
  | .shl => l + growth right r
  | .shr => l
  | .or | .xor | .and => max l r
  | _ => 1

/-- The width of a value, counted without a bound. -/
def trueWidth : Value → Int
  | hole => 0
  | signal s => s.bits
  | const _ l => l.bits
  | binary _ op left right => trueOpWidth op left.trueWidth right right.trueWidth
  | slice _ _ lo hi => hi - lo

/-- Whether the width of a node is computed and does not fit into 64 bits. -/
def outgrows : Value → Bool
  | binary tag op l r => op.isCounted && 9223372036854775808 ≤ (binary tag op l r).trueWidth
  | slice _ _ lo hi => 9223372036854775808 ≤ hi - lo
  | _ => false

variable {op : Op} {l r : Int} {right v : Value}

theorem opWidth_eq : opWidth op l right r =
    if op.isCounted then wrap (trueOpWidth op l right r) else trueOpWidth op l right r := by
  cases op with
  | shl =>
    rw [opWidth, Op.isCounted, if_pos rfl, trueOpWidth]
    cases right with
    | const tag c =>
      simp only [shlWidth, growth]
      split
      · rfl
      · rw [Int.add_sub_assoc]
    | hole | signal | binary | slice => simp only [shlWidth, growth, Int.add_sub_assoc]
  | _ => rfl

theorem growth_nonneg (right : Value) (r : Int) : 0 ≤ growth right r := by
  have hpow : ∀ n, 0 ≤ (Nat.pow 2 n : Int) - 1 := fun n => by
    have := Nat.two_pow_pos n
    rw [Nat.pow_eq]
    omega
  cases right with
  | const tag c =>
    simp only [growth]
    split
    · rename_i hc
      simpa [Int64.le_iff_toInt_le] using hc
    · exact hpow _
  | hole | signal | binary | slice => exact hpow _

theorem one_le_trueOpWidth (hl : 1 ≤ l) (hr : 1 ≤ r) : 1 ≤ trueOpWidth op l right r := by
  have := growth_nonneg right r
  cases op <;> simp only [trueOpWidth] <;> omega

/-- No value is empty where no part of it is. -/
theorem one_le_trueWidth (h : v.Solid) (hreads : ∀ x ∈ v.reads, 1 ≤ x.bits) : 1 ≤ v.trueWidth := by
  induction v with
  | hole => exact h.elim
  | signal s => exact hreads s mem_cons_self
  | const => exact h
  | binary tag op l r ihl ihr =>
    obtain ⟨hl, hr⟩ := forall_mem_append.mp hreads
    exact one_le_trueOpWidth (ihl h.1 hl) (ihr h.2 hr)
  | slice tag x lo hi ih => exact Int.sub_pos_of_lt h.1

/-- Where no node is too wide, the width has not wrapped around. -/
theorem width_eq_trueWidth (h : v.Solid) (hreads : ∀ x ∈ v.reads, 1 ≤ x.bits)
    (hfits : ∀ u ∈ v.walk, u.outgrows = false) : v.width = v.trueWidth := by
  induction v with
  | hole | signal | const => rfl
  | binary tag op l r ihl ihr =>
    have hpos := one_le_trueWidth h hreads
    obtain ⟨hl, hr⟩ := forall_mem_append.mp hreads
    obtain ⟨hself, hl', hr'⟩ := forall_mem_cons.mp hfits |>.imp_right forall_mem_append.mp
    rw [width, opWidth_eq, ihl h.1 hl hl', ihr h.2 hr hr']
    split
    · rename_i hop
      have hlt : (binary tag op l r).trueWidth < 9223372036854775808 := by
        simpa [outgrows, hop] using hself
      exact wrap_eq_self (Int.le_trans Int.one_nonneg hpos) hlt
    · rfl
  | slice tag x lo hi ih =>
    have hself := (forall_mem_cons.mp hfits).1
    have hlo := h.1
    simp only [outgrows, decide_eq_false_iff_not] at hself
    exact wrap_eq_self (by omega) (by omega)

theorem wrap_lt (n : Int) : wrap n < 9223372036854775808 := by
  rw [wrap, Int.bmod_def]
  split <;> omega

theorem not_outgrows (h : v.width = v.trueWidth) : v.outgrows = false := by
  cases v with
  | hole | signal | const => rfl
  | binary tag op l r =>
    cases hop : op.isCounted with
    | false => simp [outgrows, hop]
    | true =>
      have hlt := wrap_lt (trueOpWidth op l.width r r.width)
      rw [width, opWidth_eq, if_pos hop] at h
      simp only [outgrows, ← h, decide_eq_false (Int.not_le.mpr hlt), Bool.and_false]
  | slice tag x lo hi =>
    have hlt := wrap_lt (hi - lo)
    rw [width, trueWidth] at h
    simp only [outgrows, decide_eq_false_iff_not]
    omega

end Value

/-! ### The nodes of a design -/

/-- The value nodes of a statement, apart from the statements inside it: what it assigns to, its
values with all their parts, and the literals of its arms. -/
def Stmt.valueNodes : Stmt → List Value
  | .assign t v => .signal t :: v.walk
  | .branch test _ _ => test.walk
  | .select test arms _ => test.walk ++ arms.map fun arm => .ofLiteral arm.1
  | _ => []

/-- The value nodes of a fragment. -/
def Fragment.valueNodes (f : Fragment) : List Value :=
  (walk f.comb ++ walk f.sync).flatMap Stmt.valueNodes

variable {s : Stmt} {u v : Value} {bound : Nat}

theorem Value.Solid.self_mem_walk (h : v.Solid) : v ∈ v.walk := by
  cases v with
  | hole => exact h.elim
  | signal | const | binary | slice => exact mem_cons_self

theorem Stmt.walk_subset_valueNodes (hv : v ∈ ownValues s) : v.walk ⊆ s.valueNodes := by
  cases s with
  | hole | marker => cases hv
  | assign t u =>
    obtain rfl := mem_singleton.mp hv
    exact subset_cons_self _ _
  | branch test yes no =>
    obtain rfl := mem_singleton.mp hv
    exact Subset.refl _
  | select test arms other =>
    obtain rfl := mem_singleton.mp hv
    exact subset_append_left _ _

/-- In the statements of a design nothing is empty: neither values nor targets nor literals. -/
theorem Stmt.Regular.solid_nodes (hs : s.Regular bound) (hsolid : ∀ v ∈ ownValues s, v.Solid)
    (hreads : ∀ x ∈ s.ownReads, 1 ≤ x.bits) (hu : u ∈ s.valueNodes) :
    u.Solid ∧ (∀ x ∈ u.reads, 1 ≤ x.bits) ∧ u.walk ⊆ s.valueNodes := by
  have hpart : ∀ v ∈ ownValues s, (∀ x ∈ v.reads, 1 ≤ x.bits) → u ∈ v.walk →
      u.Solid ∧ (∀ x ∈ u.reads, 1 ≤ x.bits) ∧ u.walk ⊆ s.valueNodes := fun v hv hr hu =>
    ⟨(hsolid v hv).of_mem_walk hu, fun x hx => hr x (Value.reads_subset_of_mem_walk hu hx),
      fun _ hy => walk_subset_valueNodes hv (Value.walk_subset hu hy)⟩
  cases s with
  | hole | marker => cases hu
  | assign t v =>
    obtain rfl | hu := mem_cons.mp hu
    · exact ⟨trivial, by simpa [Value.reads] using hs.1, by simp [Value.walk, valueNodes]⟩
    · exact hpart v mem_cons_self hreads hu
  | branch test yes no => exact hpart test mem_cons_self hreads hu
  | select test arms other =>
    obtain hu | hliteral := mem_append.mp hu
    · exact hpart test mem_cons_self hreads hu
    · obtain ⟨x, rfl, -, hbits⟩ := hs
      obtain ⟨arm, harm, rfl⟩ := mem_map.mp hliteral
      have hsome : 1 ≤ arm.1.bits := hbits arm harm ▸ hreads x mem_cons_self
      exact ⟨hsome, by simp [Value.ofLiteral, Value.reads], fun y hy => mem_singleton.mp hy ▸ hu⟩

end Circuit

/-- The value that a wire holds: its node, or what a slice is taken from. -/
def Verilog.Wire.held (w : Wire) : Value :=
  match w.node with
  | .slice _ x _ _ => x
  | v => v

section Design

variable {settings : Settings} {text : List Char} {d : Design} {u : Value}

section

variable (h : (compileText settings text).result = .ok d)

include h

theorem solid_nodes_of_compileText (hu : u ∈ d.fragment.valueNodes) :
    u.Solid ∧ (∀ x ∈ u.reads, 1 ≤ x.bits) ∧ u.walk ⊆ d.fragment.valueNodes := by
  obtain ⟨p, w, hrealizes, hsolid, hpool⟩ := solid_of_compileText h
  have hw := wired_options settings firstTag
  obtain ⟨s, hs, hu⟩ := mem_flatMap.mp hu
  have hregular : s.Regular w.supply := (mem_append.mp hs).elim (hrealizes.regular_comb hw s)
    (hrealizes.regular_sync s)
  have hreads : ∀ x ∈ s.ownReads, 1 ≤ x.bits := fun x hx => hrealizes.one_le_bits hw
    ((mem_append.mp hs).imp (fun hs => mem_reads.mpr ⟨s, hs, hx⟩)
      fun hs => mem_reads.mpr ⟨s, hs, hx⟩)
  obtain ⟨h₁, h₂, hsub⟩ := hregular.solid_nodes (hrealizes.solid hsolid hpool s hs) hreads hu
  exact ⟨h₁, h₂, fun v hv => mem_flatMap_of_mem hs (hsub hv)⟩

theorem measured_of_widths (hwidths : ∀ v ∈ d.fragment.valueNodes, 1 ≤ v.width) :
    Measured d.fragment := by
  intro s hs v hv u hu
  have hnode : u ∈ d.fragment.valueNodes :=
    mem_flatMap_of_mem hs (Stmt.walk_subset_valueNodes hv hu)
  obtain ⟨hsolid, -, hsub⟩ := solid_nodes_of_compileText h hnode
  unfold Value.shiftFits
  split
  · rename_i tag l r
    have hr := hwidths r (hsub (by simp [Value.walk, hsolid.2.self_mem_walk]))
    simp only [Bool.or_eq_true, decide_eq_true_eq]
    exact .inr (by omega)
  · rfl

theorem held_of_mem_wires {w : Wire} (hw : w ∈ (Names.ofFragment d.ports d.fragment).wires) :
    w.held ∈ d.fragment.valueNodes ∧ w.width = w.held.width := by
  obtain ⟨⟨s, hs, v, hv, hnode⟩, hwidth⟩ := node_of_mem_wires hw
  have hnode : w.node ∈ d.fragment.valueNodes :=
    mem_flatMap_of_mem hs (Stmt.walk_subset_valueNodes (values_subset hv) hnode)
  obtain ⟨hsolid, -, hsub⟩ := solid_nodes_of_compileText h hnode
  cases hv : w.node with
  | hole | signal | const => simp [hv, wireWidth?] at hwidth
  | binary tag op l r =>
    simp only [hv, wireWidth?] at hwidth
    split at hwidth
    · cases hwidth
    · simp_all [Wire.held]
  | slice tag x lo hi =>
    rw [hv] at hsolid hsub
    simp only [hv, wireWidth?] at hwidth
    split at hwidth
    · cases hwidth
    · simp only [Wire.held, hv]
      exact ⟨hsub (by simp [Value.walk, hsolid.2.self_mem_walk]), (Option.some.inj hwidth).symm⟩

end

/-- **When widths are the true ones.** No node of a compiled design is empty, and all widths are the
true ones exactly if no node is too wide for a 64-bit number. The design can then be written, and
every wire is as wide as the value it holds. -/
theorem widths_true_iff (h : (compileText settings text).result = .ok d) :
    (∀ v ∈ d.fragment.valueNodes, 1 ≤ v.trueWidth) ∧
    ((∀ v ∈ d.fragment.valueNodes, 1 ≤ v.width ∧ v.width = v.trueWidth) ↔
      ∀ v ∈ d.fragment.valueNodes, v.outgrows = false) ∧
    ((∀ v ∈ d.fragment.valueNodes, v.outgrows = false) → ∀ name digest, ∃ m,
      ofFragment name digest d.ports d.fragment = .ok m ∧
        ∀ width ident value, .wire width ident value ∈ m.decls →
          ∃ w ∈ (Names.ofFragment d.ports d.fragment).wires, w.ident = ident ∧
            w.held ∈ d.fragment.valueNodes ∧ width = w.held.trueWidth) := by
  have hpos : ∀ v ∈ d.fragment.valueNodes, 1 ≤ v.trueWidth := fun v hv => by
    obtain ⟨hsolid, hreads, -⟩ := solid_nodes_of_compileText h hv
    exact Value.one_le_trueWidth hsolid hreads
  have hexact : (∀ v ∈ d.fragment.valueNodes, v.outgrows = false) →
      ∀ v ∈ d.fragment.valueNodes, 1 ≤ v.width ∧ v.width = v.trueWidth := fun hfits v hv => by
    obtain ⟨hsolid, hreads, hsub⟩ := solid_nodes_of_compileText h hv
    have heq := Value.width_eq_trueWidth hsolid hreads fun u hu => hfits u (hsub hu)
    exact ⟨heq ▸ hpos v hv, heq⟩
  refine ⟨hpos, ⟨fun hall v hv => Value.not_outgrows (hall v hv).2, hexact⟩, ?_⟩
  intro hfits name digest
  have hmeasured := measured_of_widths h fun v hv => (hexact hfits v hv).1
  obtain ⟨m, hm⟩ := ((accepted_of_compileText h).mpr hmeasured).written name digest
  refine ⟨m, hm, fun width ident value hdecl => ?_⟩
  obtain ⟨-, -, -, -, hmodule⟩ := ofFragment_eq_ok.mp hm
  obtain ⟨net, -, hnet⟩ | ⟨w, hw, e, -, hwire⟩ := (written_of_moduleOf hmodule).mem_decls.mp hdecl
  · obtain ⟨-, -, hdecl⟩ | hdecl := declOf?_cases hnet <;> cases hdecl
  · obtain ⟨rfl, rfl, rfl⟩ := Decl.wire.inj hwire
    obtain ⟨hheld, hwidth⟩ := held_of_mem_wires h hw
    exact ⟨w, hw, rfl, hheld, hwidth.trans (hexact hfits _ hheld).2⟩

end Design

/-- All widths of the relay are the true ones. -/
theorem relay_widths_true : ∃ d,
    (compileText relaySettings relayText).result = .ok d ∧
      ∀ v ∈ d.fragment.valueNodes, 1 ≤ v.width ∧ v.width = v.trueWidth := by
  obtain ⟨d, hd, hfits⟩ : ∃ d, (compileText relaySettings relayText).result = .ok d ∧
      ∀ v ∈ d.fragment.valueNodes, v.outgrows = false := by
    decide +kernel
  exact ⟨d, hd, (widths_true_iff hd).2.1.mpr hfits⟩

/-- A program that shifts by the greatest number there is. -/
def spreadText : List Char :=
  ("def spread():\n    a = Register(8)\n    b = Register(8)\n" ++
    "    b.store = a << 9223372036854775807\n").toList

/-- **A wire that is too narrow**: the shifted value has 8 + (2^63 - 1) bits, and what its width has
become is negative, so that the wire of the module is one of a single bit. -/
theorem spread_wraps : ∃ d m, (compileText .empty spreadText).result = .ok d ∧
    ofFragment d.name "" d.ports d.fragment = .ok m ∧
      (∃ v ∈ d.fragment.valueNodes, v.trueWidth = 9223372036854775815 ∧
        v.width = -9223372036854775801) ∧
      .wire (-9223372036854775801) "expr_tmp"
        (.binary .shl (.name "a") (.number ⟨63, 9223372036854775807⟩)) ∈ m.decls ∧
      rangeText (-9223372036854775801) = "" := by
  simp only [exists_and_left]
  decide +kernel

end Sequencer
