import Sequencer.Proofs.Verilog.Interface
import Sequencer.Proofs.Verilog.Semantics

/-!
# Reading what is written

A name shows a signal, and a wire the result of the operator that it stands for (`Names.Displays`);
then an expression, evaluated by the rules of the language, gives what the simulator gives for the
value it was written for. Where each wire equals its own expression, it shows what it should.
-/

namespace Sequencer.Verilog

open List
open Circuit Simulation Verilog.Expr Decl Option

/-! ### What names stand for -/

/-- The names have the widths of what they stand for. -/
structure Names.Measures (n : Names) (bits : String → Nat) : Prop where
  nets : ∀ net ∈ n.nets, bits net.ident = declaredBits net.signal.bits
  wires : ∀ w ∈ n.wires, bits w.ident = declaredBits w.width

/-- A well-made value with names for everything it is written with. -/
structure Names.Spells (n : Names) (v : Value) : Prop where
  sized : isSized v = true
  regular : v.Regular
  signals : ∀ x ∈ v.reads, x ∈ n.signals
  wires : ∀ u ∈ v.walk, n.width? u = wireWidth? u

/-- What the wire of a value carries: the result of an operator, or what a slice is taken from. -/
def carried : Value → Value
  | .slice _ x _ _ => x
  | v => v

/-- The values that a value is directly made of. -/
def parts : Value → List Value
  | .binary _ _ l r => [l, r]
  | .slice _ x _ _ => [x]
  | _ => []

theorem walk_subset_of_mem_parts {u v : Value} (h : u ∈ parts v) : u.walk ⊆ v.walk.tail := by
  cases v with
  | hole | signal | const => cases h
  | binary tag op l r =>
    simp only [parts, mem_cons, not_mem_nil, or_false] at h
    obtain rfl | rfl := h <;> simp [Value.walk]
  | slice tag x lo hi =>
    obtain rfl := mem_singleton.mp h
    simp [Value.walk]

theorem reads_subset_of_mem_parts {u v : Value} (h : u ∈ parts v) : u.reads ⊆ v.reads := by
  intro x hx
  have hwalk := walk_subset_of_mem_parts h (Value.signal_mem_walk.mpr hx)
  exact Value.signal_mem_walk.mp (mem_of_mem_tail hwalk)

/-- The names that a value is written with show what it is made of. -/
structure Names.Displays (n : Names) (ρ : Store) (σ : Valuation) (v : Value) : Prop where
  signals : ∀ x ∈ v.reads, ρ (n.signalName x) = (σ.get x).toNat
  wires : ∀ u ∈ v.walk, ∀ w, n.wire? u = some w → ρ w.ident = (denote σ (carried u)).toNat

/-- Every signal has a value within its width. -/
def Ranged (σ : Valuation) : Prop := ∀ x, 1 ≤ x.bits → (σ.get x).toNat < 2 ^ x.bits.toNat

variable {width : Int}

theorem declaredBits_of_pos (h : 1 ≤ width) : declaredBits width = width.toNat := by
  rw [declaredBits, Int.max_eq_left h]

variable {σ : Valuation} {v : Value} {n : Names} {ρ : Store} {bits : String → Nat}

theorem denote_lt (hσ : Ranged σ) (h : isSized v = true) :
    (denote σ v).toNat < 2 ^ v.width.toNat := by
  have hwidth := width_of_isSized h
  cases v with
  | hole => cases h
  | signal x => exact hσ x hwidth.1
  | const | binary | slice => exact toNat_truncate_lt hwidth.1

namespace Names

variable {tag : Nat} {op : Op} {l r : Value}

theorem Spells.of_mem_parts {u : Value} (h : n.Spells v) (hu : u ∈ parts v) :
    n.Spells u ∧ u.reads ⊆ v.reads := by
  obtain ⟨hsized, ⟨ss, hbuilt⟩, hsignals, hwires⟩ := h
  have hwalk := walk_subset_of_mem_parts hu
  have hreads := reads_subset_of_mem_parts hu
  suffices hpart : isSized u = true ∧ u.BuiltOn ss from
    ⟨⟨hpart.1, ⟨ss, hpart.2⟩, fun x hx => hsignals x (hreads hx),
      fun t ht => hwires t (mem_of_mem_tail (hwalk ht))⟩, hreads⟩
  cases v with
  | hole | signal | const => cases hu
  | binary tag op l r =>
    simp only [isSized, Bool.and_eq_true] at hsized
    simp only [parts, mem_cons, not_mem_nil, or_false] at hu
    obtain rfl | rfl := hu
    · exact ⟨hsized.2.1, hbuilt.2.1⟩
    · exact ⟨hsized.2.2, hbuilt.2.2⟩
  | slice tag x lo hi =>
    simp only [isSized, Bool.and_eq_true] at hsized
    obtain rfl := mem_singleton.mp hu
    exact ⟨hsized.2, hbuilt.2⟩

theorem Spells.left (h : n.Spells (.binary tag op l r)) : n.Spells l :=
  (h.of_mem_parts (by simp [parts])).1

theorem Spells.right (h : n.Spells (.binary tag op l r)) : n.Spells r :=
  (h.of_mem_parts (by simp [parts])).1

theorem Spells.inner {x : Value} {lo hi : Int} (h : n.Spells (.slice tag x lo hi)) : n.Spells x :=
  (h.of_mem_parts (by simp [parts])).1

theorem Spells.of_mem_walk {u : Value} (h : n.Spells v) (hu : u ∈ v.walk) :
    n.Spells u ∧ u.reads ⊆ v.reads :=
  ⟨Value.of_mem_walk hu h (fun h => ⟨h.left, h.right⟩) fun h => h.inner,
    Value.reads_subset_of_mem_walk hu⟩

theorem Displays.of_mem_parts {u : Value} (h : n.Displays ρ σ v) (hu : u ∈ parts v) :
    n.Displays ρ σ u :=
  ⟨fun x hx => h.signals x (reads_subset_of_mem_parts hu hx),
    fun t ht => h.wires t (mem_of_mem_tail (walk_subset_of_mem_parts hu ht))⟩

theorem exists_net {x : Signal} (hx : x ∈ n.signals) :
    ∃ net ∈ n.nets, net.signal = x ∧ n.signalName x = net.ident := by
  cases hnet : n.net? x with
  | none => exact absurd hx (net?_eq_none.mp hnet)
  | some net =>
    refine ⟨net, mem_of_find?_eq_some hnet, by simpa using find?_some hnet, ?_⟩
    rw [signalName, hnet]
    rfl

theorem Measures.signal (hbits : n.Measures bits) {x : Signal} (hx : x ∈ n.signals)
    (hone : 1 ≤ x.bits) : bits (n.signalName x) = x.bits.toNat := by
  obtain ⟨net, hnet, rfl, hname⟩ := exists_net hx
  rw [hname, hbits.nets net hnet, declaredBits_of_pos hone]

theorem Measures.wire (hbits : n.Measures bits) {w : Wire} (hw : n.wire? v = some w)
    (hone : 1 ≤ w.width) : bits w.ident = w.width.toNat := by
  rw [hbits.wires w (mem_of_find?_eq_some hw), declaredBits_of_pos hone]

theorem Spells.self_mem_walk (h : n.Spells v) : v ∈ v.walk := by
  cases v with
  | hole => cases h.sized
  | signal | const | binary | slice => simp [Value.walk]

theorem Spells.wire? (h : n.Spells v) : (n.wire? v).map Wire.width = wireWidth? v :=
  h.wires v h.self_mem_walk

theorem baseName_spec (hbits : n.Measures bits) {x : Value} {lo hi : Int}
    (h : n.Spells (.slice tag x lo hi)) (hd : n.Displays ρ σ (.slice tag x lo hi)) :
    bits (n.baseName (.slice tag x lo hi) x) = x.width.toNat ∧
      ρ (n.baseName (.slice tag x lo hi) x) = (denote σ x).toNat := by
  have hone := (width_of_isSized h.inner.sized).1
  have hwired : ∀ u ∈ (Value.slice tag x lo hi).walk,
      (n.wire? u).map Wire.width = some x.width → carried u = x →
        bits (n.wireName u) = x.width.toNat ∧ ρ (n.wireName u) = (denote σ x).toNat := by
    intro u hu hwidth hcarried
    obtain ⟨w, hw, hwidth⟩ := map_eq_some_iff.mp hwidth
    have hname : n.wireName u = w.ident := by
      rw [wireName, hw]
      rfl
    rw [hname, hbits.wire hw (hwidth ▸ hone), hwidth, hd.wires u hu w hw, hcarried]
    exact ⟨rfl, rfl⟩
  have hslice : indexable x = false → bits (n.wireName (.slice tag x lo hi)) = x.width.toNat ∧
      ρ (n.wireName (.slice tag x lo hi)) = (denote σ x).toNat := by
    intro hx
    refine hwired _ (by simp [Value.walk]) ?_ rfl
    rw [h.wire?, wireWidth?, if_neg (by simp [hx])]
  cases x with
  | hole => cases h.inner.sized
  | signal y =>
    exact ⟨hbits.signal (h.signals y (by simp [Value.reads])) hone,
      hd.signals y (by simp [Value.reads])⟩
  | const | slice => exact hslice rfl
  | binary tag' op l r =>
    by_cases hop : op.isComparison = true
    · have hnot : indexable (.binary tag' op l r) = false := by simp [indexable, hop]
      simp only [baseName, hnot, Bool.false_eq_true, if_false]
      exact hslice hnot
    · have hindex : indexable (.binary tag' op l r) = true := by simpa [indexable] using hop
      simp only [baseName, hindex, if_true]
      refine hwired _ (mem_cons_of_mem _ h.inner.self_mem_walk) ?_ rfl
      rw [h.inner.wire?, wireWidth?, if_neg hop]

end Names

theorem combine_comparison {op : Op} (hop : op.isComparison = true) (width width' a b : Nat) :
    combine width op a b = combine width' op a b := by
  cases op with
  | eq | ne | lt | le | gt | ge => rfl
  | add | sub | mul | shl | shr | or | xor | and | unknown => cases hop

theorem width_comparison {op : Op} (hop : op.isComparison = true) (tag : Nat) (l r : Value) :
    (Value.binary tag op l r).width = 1 := by
  cases op with
  | eq | ne | lt | le | gt | ge => rfl
  | add | sub | mul | shl | shr | or | xor | and | unknown => cases hop

section

variable (hbits : n.Measures bits) (hσ : Ranged σ)

include hbits hσ

/-- **Expressions agree**: what is written for a value has its width and its value, whatever the
context. -/
theorem exprOf_spec (h : n.Spells v) (hd : n.Displays ρ σ v) {e : Expr} (he : exprOf n v = .ok e) :
    e.size bits = v.width.toNat ∧ ∀ context, e.value bits ρ context = (denote σ v).toNat := by
  induction v generalizing e with
  | hole => cases h.sized
  | signal x =>
    cases he
    have hone := (width_of_isSized h.sized).1
    exact ⟨hbits.signal (h.signals x (by simp [Value.reads])) hone,
      fun _ => hd.signals x (by simp [Value.reads])⟩
  | const tag l =>
    cases he
    exact ⟨rfl, fun _ => Nat.mod_eq_of_lt (denote_lt hσ h.sized)⟩
  | binary tag op l r ihl ihr =>
    have hwire := h.wire?
    rw [exprOf] at he
    split at he
    · rename_i w hw
      cases he
      rw [hw, map_some, wireWidth?] at hwire
      split at hwire
      · cases hwire
      · have hsame : w.width = (Value.binary tag op l r).width := some.inj hwire
        have hone := (width_of_isSized h.sized).1
        refine ⟨?_, fun _ => hd.wires _ (by simp [Value.walk]) w hw⟩
        rw [size, hbits.wire hw (hsame ▸ hone), hsame]
    · rename_i hw
      obtain ⟨left, right, hleft, hright, rfl⟩ := bind₂_eq_ok.mp he
      rw [hw, map_none, wireWidth?] at hwire
      split at hwire
      · rename_i hop
        obtain ⟨ss, hknown, -⟩ := h.regular
        have hl := (ihl h.left (hd.of_mem_parts (by simp [parts])) hleft).2
        have hr := (ihr h.right (hd.of_mem_parts (by simp [parts])) hright).2
        have hone := width_comparison hop tag l r
        refine ⟨by rw [size, if_pos hop, hone]; rfl, fun context => ?_⟩
        rw [value, hl, hr, combine_comparison hop context (1 : Int).toNat, denote, hone]
        exact combine_eq hknown (by omega) (by simp [hop]) (by simp [hop])
      · cases hwire
  | slice tag x lo hi =>
    cases he
    obtain ⟨ss, ⟨hlo, hlt, hhi⟩, -⟩ := h.regular
    obtain ⟨hbase, hvalue⟩ := Names.baseName_spec hbits h hd
    have hinner := width_of_isSized h.inner.sized
    have hrange := denote_lt hσ h.inner.sized
    obtain ⟨hsize, heval⟩ := select_spec hlo hlt hhi hinner.2 hbase (hvalue ▸ hrange)
    refine ⟨?_, fun context => ?_⟩
    · rw [hsize, Value.width, wrap_eq_self (by omega) (by omega)]
    · rw [heval, hvalue, denote, toNat_slice _ hlo hlt (by omega)]

/-- **Wires agree**: the expression of a wire gives what the wire has to carry, once the parts of
its value are shown. -/
theorem wireValue_spec {w : Wire} (hw : n.wire? w.node = some w) (h : n.Spells w.node)
    (hd : ∀ u ∈ parts w.node, n.Displays ρ σ u) {e : Expr} (he : wireValue n w = .ok e) :
    e.assigned bits ρ w.ident = (denote σ (carried w.node)).toNat := by
  have hwidth := h.wire?
  rw [hw, map_some] at hwidth
  obtain ⟨v, ident, width⟩ := w
  cases v with
  | hole | signal | const => cases hwidth
  | slice tag x lo hi =>
    rw [wireWidth?] at hwidth
    split at hwidth
    · cases hwidth
    · obtain rfl := some.inj hwidth
      have hone := (width_of_isSized h.inner.sized).1
      have hx : exprOf n x = .ok e := he
      obtain ⟨-, hvalue⟩ := exprOf_spec hbits hσ h.inner (hd x (by simp [parts])) hx
      rw [assigned, hvalue, hbits.wire hw hone, carried]
      exact Nat.mod_eq_of_lt (denote_lt hσ h.inner.sized)
  | binary tag op l r =>
    rw [wireWidth?] at hwidth
    split at hwidth
    · cases hwidth
    · rename_i hop
      have hop : op.isComparison = false := Bool.not_eq_true _ ▸ hop
      have hsame : width = (Value.binary tag op l r).width := some.inj hwidth
      have hfits := width_of_isSized h.sized
      have hknown : ∀ code, op ≠ .unknown code := by
        obtain ⟨ss, hknown, -⟩ := h.regular
        exact hknown
      obtain ⟨left, hleft, he⟩ := bind_eq_ok.mp (show (do
        let left ← exprOf n l
        let right ← exprOf n r
        return binary op left right) = Except.ok e from he)
      obtain ⟨right, hright, he⟩ := bind_eq_ok.mp he
      cases he
      have hlw := width_of_isSized h.left.sized
      have hrw := width_of_isSized h.right.sized
      obtain ⟨hls, hlv⟩ := exprOf_spec hbits hσ h.left (hd l (by simp [parts])) hleft
      obtain ⟨hrs, hrv⟩ := exprOf_spec hbits hσ h.right (hd r (by simp [parts])) hright
      obtain ⟨hlle, hrle⟩ : l.width ≤ (Value.binary tag op l r).width ∧
          (isShift op = false → r.width ≤ (Value.binary tag op l r).width) :=
        operands_le hknown hop hlw hrw hfits
      have hwire : bits ident = (Value.binary tag op l r).width.toNat := by
        rw [hbits.wire hw (hsame ▸ hfits.1), hsame]
      have hmono : ∀ {k : Int} {x : Nat}, x < 2 ^ k.toNat → k ≤ (Value.binary tag op l r).width →
          x < 2 ^ (Value.binary tag op l r).width.toNat := fun hx hk =>
        Nat.lt_of_lt_of_le hx (Nat.pow_le_pow_right (by omega) (Int.toNat_le_toNat hk))
      -- The context is the width of the wire, since no operand is wider.
      have hsize :
          (binary op left right).size bits ≤ (Value.binary tag op l r).width.toNat := by
        simp only [size, hop, Bool.false_eq_true, if_false, hls, hrs]
        split
        · exact Int.toNat_le_toNat hlle
        · rename_i hshift
          exact Nat.max_le.mpr ⟨Int.toNat_le_toNat hlle,
            Int.toNat_le_toNat (hrle (Bool.not_eq_true _ ▸ hshift))⟩
      rw [assigned, hwire, Nat.max_eq_left hsize, value, hlv, hrv,
        combine_eq hknown hfits (fun _ => hmono (denote_lt hσ h.left.sized) hlle)
          (fun _ hshift => hmono (denote_lt hσ h.right.sized) (hrle hshift))]
      exact Nat.mod_eq_of_lt (denote_lt hσ h.sized)

/-- Where the wires equal their expressions and signals are shown, values are shown. -/
theorem displays_of_wires
    (hwires : ∀ w ∈ n.wires, ∃ e, wireValue n w = .ok e ∧ ρ w.ident = e.assigned bits ρ w.ident)
    (h : n.Spells v) (hv : ∀ x ∈ v.reads, ρ (n.signalName x) = (σ.get x).toNat) :
    n.Displays ρ σ v := by
  have hwire : ∀ {u : Value}, n.Spells u → (∀ t ∈ parts u, n.Displays ρ σ t) → ∀ w,
      n.wire? u = some w → ρ w.ident = (denote σ (carried u)).toNat := by
    intro u hu hparts w hw
    obtain rfl : w.node = u := by simpa using find?_some hw
    obtain ⟨e, he, hvalue⟩ := hwires w (mem_of_find?_eq_some hw)
    rw [hvalue, wireValue_spec hbits hσ hw hu hparts he]
  induction v with
  | hole => cases h.sized
  | signal | const =>
    refine ⟨hv, fun u hu w hw => ?_⟩
    obtain rfl := mem_singleton.mp hu
    exact hwire h (by simp [parts]) w hw
  | binary tag op l r ihl ihr =>
    have hl := ihl h.left fun x hx => hv x (by simp [Value.reads, hx])
    have hr := ihr h.right fun x hx => hv x (by simp [Value.reads, hx])
    refine ⟨hv, fun u hu w hw => ?_⟩
    simp only [Value.walk, mem_cons, mem_append] at hu
    obtain rfl | hu | hu := hu
    · exact hwire h (by simpa [parts] using ⟨hl, hr⟩) w hw
    · exact hl.wires u hu w hw
    · exact hr.wires u hu w hw
  | slice tag x lo hi ih =>
    have hx := ih h.inner hv
    refine ⟨hv, fun u hu w hw => ?_⟩
    simp only [Value.walk, mem_cons] at hu
    obtain rfl | hu := hu
    · exact hwire h (by simpa [parts] using hx) w hw
    · exact hx.wires u hu w hw

end

/-! ### The widths of a module -/

/-- A port or a declaration gives the name this width. -/
def Declares (m : Module) (x : String) (width : Int) : Prop :=
  (∃ p ∈ m.ports, p.ident = x ∧ p.width = width) ∨ ∃ d ∈ m.decls, d.width? x = some width

theorem bits_of_declares {m : Module} {x : String} (h : Declares m x width)
    (hunique : ∀ width', Declares m x width' → width' = width) : m.bits x = declaredBits width := by
  have hlookup : ((m.ports.find? (·.ident = x)).map PortDecl.width).or
      (m.decls.findSome? (width? x)) = some width := by
    cases hp : m.ports.find? (·.ident = x) with
    | some p =>
      have hx : p.ident = x := by simpa using find?_some hp
      rw [map_some, some_or, hunique p.width (.inl ⟨p, mem_of_find?_eq_some hp, hx, rfl⟩)]
    | none =>
      rw [map_none, none_or]
      cases hd : m.decls.findSome? (width? x) with
      | some width' =>
        obtain ⟨d, hd, hwidth⟩ := exists_of_findSome?_eq_some hd
        rw [hunique width' (.inr ⟨d, hd, hwidth⟩)]
      | none =>
        obtain ⟨p, hp', hx, -⟩ | ⟨d, hd', hwidth⟩ := h
        · simpa [hx] using find?_eq_none.mp hp p hp'
        · simp [findSome?_eq_none_iff.mp hd d hd'] at hwidth
  rw [Module.bits, hlookup, getD_some]

section Written

variable {f : Fragment} {m : Module}

theorem mem_of_mapM {ε α β : Type} {g : α → Except ε β} {l : List α} {bs : List β}
    (h : l.mapM g = .ok bs) {b : β} : b ∈ bs ↔ ∃ a ∈ l, g a = .ok b := by
  induction l generalizing bs with
  | nil =>
    cases h
    simp
  | cons a l ih =>
    rw [mapM_cons] at h
    obtain ⟨c, cs, hc, hcs, rfl⟩ := bind₂_eq_ok.mp h
    simp only [mem_cons, ih hcs, exists_eq_or_imp, hc, Except.ok.injEq]
    rw [eq_comm]

variable {d : Decl}

theorem wireDecl_eq_ok {w : Wire} :
    wireDecl n w = .ok d ↔ ∃ e, wireValue n w = .ok e ∧ d = .wire w.width w.ident e := by
  rw [wireDecl, bind_eq_ok]
  refine exists_congr fun e => and_congr_right fun _ => ?_
  show Except.ok (wire w.width w.ident e) = .ok d ↔ _
  rw [Except.ok.injEq, eq_comm]

theorem Written.mem_decls (h : Written n f m) : d ∈ m.decls ↔
    (∃ net ∈ n.nets, declOf? net = some d) ∨
      ∃ w ∈ n.wires, ∃ e, wireValue n w = .ok e ∧ d = .wire w.width w.ident e := by
  obtain ⟨wires, hwires, hdecls⟩ := h.decls
  simp only [hdecls, mem_append, mem_filterMap, mem_of_mapM hwires, mem_reverse, wireDecl_eq_ok]

theorem Written.exists_wireValue (h : Written n f m) {w : Wire} (hw : w ∈ n.wires) :
    ∃ e, wireValue n w = .ok e := by
  obtain ⟨wires, hwires, -⟩ := h.decls
  obtain ⟨d, hd⟩ := exists_mapM_iff.mp ⟨wires, hwires⟩ w (mem_reverse.mpr hw)
  obtain ⟨e, he, -⟩ := wireDecl_eq_ok.mp hd
  exact ⟨e, he⟩

/-- An output that nothing drives is declared as a constant, and what is no port as a register. -/
theorem declOf?_cases {net : Net} (h : declOf? net = some d) :
    (net.port = some .output ∧ net.driven = false ∧ d = .constant net.ident (.resetOf net.signal)) ∨
    d = .reg net.signal.bits net.ident (.resetOf net.signal) := by
  grind [declOf?]

theorem width?_declOf? {net : Net} (h : declOf? net = some d) {x : String}
    (hd : d.width? x = some width) : net.ident = x ∧ net.signal.bits = width := by
  obtain ⟨-, -, rfl⟩ | rfl := declOf?_cases h
  · cases hd
  · simpa [width?] using hd

theorem portOf?_or_declOf? (net : Net) : (∃ p, portOf? net = some p) ∨
    declOf? net = some (.reg net.signal.bits net.ident (.resetOf net.signal)) := by
  cases hport : net.port with
  | some dir =>
    left
    unfold portOf?
    split
    · exact ⟨_, rfl⟩
    · rw [hport]
      exact ⟨_, rfl⟩
  | none =>
    by_cases hdriven : net.driven = true
    · right
      simp [declOf?, hport, hdriven]
    · left
      have hinput : net.isInput = true := by simp [Net.isInput, hport, hdriven]
      rw [portOf?, if_pos hinput]
      exact ⟨_, rfl⟩

theorem Written.declares_iff (h : Written n f m) {x : String} :
    Declares m x width ↔ (∃ net ∈ n.nets, net.ident = x ∧ net.signal.bits = width) ∨
      ∃ w ∈ n.wires, w.ident = x ∧ w.width = width := by
  constructor
  · rintro (⟨p, hp, hx, hwidth⟩ | ⟨d, hd, hwidth⟩)
    · rw [h.ports] at hp
      obtain ⟨net, hnet, hp⟩ := mem_filterMap.mp hp
      obtain ⟨hident, hbits⟩ := width_portOf? hp
      exact .inl ⟨net, hnet, hident ▸ hx, hbits ▸ hwidth⟩
    · obtain ⟨net, hnet, hd⟩ | ⟨w, hw, e, -, rfl⟩ := h.mem_decls.mp hd
      · exact .inl ⟨net, hnet, width?_declOf? hd hwidth⟩
      · rw [width?] at hwidth
        split at hwidth
        · rename_i hx
          exact .inr ⟨w, hw, hx, some.inj hwidth⟩
        · cases hwidth
  · rintro (⟨net, hnet, rfl, rfl⟩ | ⟨w, hw, rfl, rfl⟩)
    · obtain ⟨p, hp⟩ | hd := portOf?_or_declOf? net
      · obtain ⟨hident, hbits⟩ := width_portOf? hp
        exact .inl ⟨p, h.ports ▸ mem_filterMap.mpr ⟨net, hnet, hp⟩, hident, hbits⟩
      · exact .inr ⟨_, h.mem_decls.mpr (.inl ⟨net, hnet, hd⟩), by simp [width?]⟩
    · obtain ⟨e, he⟩ := h.exists_wireValue hw
      exact .inr ⟨_, h.mem_decls.mpr (.inr ⟨w, hw, e, he, rfl⟩), by simp [width?]⟩

theorem Written.measures (h : Written n f m) (hn : n.Distinct) : n.Measures m.bits := by
  have hnodup : (n.nets.map Net.ident ++ n.wires.map Wire.ident).Nodup := hn.idents.of_cons.of_cons
  obtain ⟨hnets, hwires, hdisjoint⟩ := nodup_append'.mp hnodup
  constructor
  · intro net hnet
    refine bits_of_declares (h.declares_iff.mpr (.inl ⟨net, hnet, rfl, rfl⟩)) fun width' hd => ?_
    obtain ⟨net', hnet', hx, rfl⟩ | ⟨w, hw, hx, rfl⟩ := h.declares_iff.mp hd
    · rw [inj_on_of_nodup_map hnets hnet' hnet hx]
    · exact (hdisjoint (mem_map_of_mem hnet) (hx ▸ mem_map_of_mem hw)).elim
  · intro w hw
    refine bits_of_declares (h.declares_iff.mpr (.inr ⟨w, hw, rfl, rfl⟩)) fun width' hd => ?_
    obtain ⟨net, hnet, hx, rfl⟩ | ⟨w', hw', hx, rfl⟩ := h.declares_iff.mp hd
    · exact (hdisjoint (mem_map_of_mem hnet) (hx ▸ mem_map_of_mem hw)).elim
    · rw [inj_on_of_nodup_map hwires hw' hw hx]

end Written

/-! ### Statements -/

theorem eval_eq_ok (hs : isSized v = true) (hr : v.Regular) (σ : Valuation) :
    eval σ v = .ok (denote σ v) := eval_total hr (whole_of_isSized hs) (measured_of_isSized hs) σ

/-- Carry out writes under the names of their signals. -/
def Names.writeAll (n : Names) (ρ : Store) (ws : List Write) : Store :=
  ws.foldl (fun ρ w => Function.update ρ (n.signalName w.1) w.2.toNat) ρ

/-- A statement that can be written with the names `n`. -/
structure Names.Writes (n : Names) (s : Circuit.Stmt) : Prop where
  writable : Writable s
  values : ∀ v ∈ values s, n.Spells v
  target : ∀ t, target? s = some t → t ∈ n.signals

/-- A statement in a run of statements: what it is written with is shown wherever the values satisfy
`Inv`, and its assignment keeps `Inv`. -/
structure InRun (n : Names) (look : Store → Store) (σ : Valuation) (Inv : Store → Prop)
    (s : Circuit.Stmt) : Prop extends n.Writes s where
  shown : ∀ ρ, Inv ρ → ∀ v ∈ Verilog.values s, n.Displays (look ρ) σ v
  kept : ∀ ρ, Inv ρ → ∀ t, target? s = some t → ∀ k, Inv (Function.update ρ (n.signalName t) k)

/-- Running what is written carries out the writes that are executed. -/
def Carries (n : Names) (Inv : Store → Prop) (go : Store → Store) (ws : List Write) : Prop :=
  ∀ ρ, Inv ρ → go ρ = n.writeAll ρ ws ∧ Inv (n.writeAll ρ ws)

section Running

variable {look : Store → Store}
  {Inv : Store → Prop}

theorem Carries.nil : Carries n Inv (fun ρ => ρ) [] := fun _ hρ => ⟨rfl, hρ⟩

theorem Carries.congr {go go' : Store → Store} {ws : List Write} (h : Carries n Inv go ws)
    (heq : ∀ ρ, Inv ρ → go' ρ = go ρ) : Carries n Inv go' ws := fun ρ hρ =>
  ⟨(heq ρ hρ).trans (h ρ hρ).1, (h ρ hρ).2⟩

theorem Carries.append {go go' : Store → Store} {ws vs : List Write} (h : Carries n Inv go ws)
    (h' : Carries n Inv go' vs) : Carries n Inv (fun ρ => go' (go ρ)) (ws ++ vs) := by
  intro ρ hρ
  obtain ⟨hgo, hinv⟩ := h ρ hρ
  obtain ⟨hgo', hinv'⟩ := h' _ hinv
  rw [Names.writeAll, foldl_append]
  exact ⟨(congrArg go' hgo).trans hgo', hinv'⟩

theorem run_append (ρ : Store) (ss ts : List Stmt) :
    run bits look ρ (ss ++ ts) = run bits look (run bits look ρ ss) ts := by
  induction ss generalizing ρ with
  | nil => rfl
  | cons s ss ih =>
    exact ih _

theorem carries_assign (hbits : n.Measures bits) (hσ : Ranged σ) {t : Signal}
    (h : InRun n look σ Inv (.assign t v)) {e : Expr} (he : exprOf n v = .ok e) :
    Carries n Inv (fun ρ => Stmt.run bits look ρ (.assign (n.signalName t) e))
      [(t, truncate (denote σ v) t.bits)] := by
  intro ρ hρ
  have hone : 1 ≤ t.bits := h.writable.1.1
  have hspell := h.values v (by simp [values])
  obtain ⟨-, hvalue⟩ := exprOf_spec hbits hσ hspell (h.shown ρ hρ v (by simp [values])) he
  have hassigned : e.assigned bits (look ρ) (n.signalName t) =
      (truncate (denote σ v) t.bits).toNat := by
    rw [assigned, hvalue, hbits.signal (h.target t rfl) hone, toNat_truncate_of_pos hone]
  refine ⟨?_, h.kept ρ hρ t rfl _⟩
  show Stmt.run bits look ρ (.assign (n.signalName t) e) = _
  rw [Stmt.run, hassigned]
  rfl

theorem toNat_arm {l : Literal} (h : 1 ≤ l.bits) :
    (Number.ofInt64 l.value l.bits).toNat = l.word.toNat :=
  Nat.mod_eq_of_lt (toNat_truncate_lt h)

variable (bits look) in
theorem run_stmtsOfOption {o : Option (List Circuit.Stmt)} {body : Option (List Stmt)}
    (hb : stmtsOfOption n o = .ok body) : ∃ chosen, stmtsOf n (o.getD []) = .ok chosen ∧
      ∀ ρ, runOption bits look ρ body = run bits look ρ chosen := by
  match o with
  | none | some [] =>
    cases hb
    exact ⟨[], rfl, fun _ => rfl⟩
  | some (s :: ss) =>
    obtain ⟨a, b, ha, hb', rfl⟩ := bind₂_eq_ok.mp hb
    refine ⟨a ++ b, ?_, fun _ => rfl⟩
    rw [getD_some, stmtsOf, ha, hb']
    rfl

variable (bits look) in
theorem run_armsOf (v : UInt64) {arms : List (Literal × List Circuit.Stmt)}
    (harms : ∀ arm ∈ arms, arm.1.bits = width) (hone : 1 ≤ width) {other : List Circuit.Stmt}
    {body : List (Number × List Stmt)} {rest : List Stmt} (hb : armsOf n width arms = .ok body)
    (hother : stmtsOf n other = .ok rest) : ∃ chosen,
      stmtsOf n (((arms.find? fun arm => v = arm.1.word).map Prod.snd).getD other) = .ok chosen ∧
        ∀ ρ, (runArms bits look ρ v.toNat body).getD (run bits look ρ rest) =
          run bits look ρ chosen := by
  induction arms generalizing body with
  | nil =>
    cases hb
    exact ⟨rest, hother, fun _ => rfl⟩
  | cons arm arms ih =>
    obtain ⟨a, b, ha, hb', rfl⟩ := bind₂_eq_ok.mp hb
    obtain ⟨rfl, harms⟩ := forall_mem_cons.mp harms
    by_cases hv : v = arm.1.word
    · refine ⟨a, by simpa [hv] using ha, fun ρ => ?_⟩
      rw [runArms, toNat_arm hone, if_pos (congrArg UInt64.toNat hv), getD_some]
    · obtain ⟨chosen, hchosen, hrun⟩ := ih harms hb'
      refine ⟨chosen, by simpa [hv] using hchosen, fun ρ => ?_⟩
      rw [runArms, toNat_arm hone, if_neg (mt UInt64.toNat_inj.mp hv), hrun]

/-- What is written for a statement with blocks inside it runs the block that its test chooses. -/
theorem run_chosen (hbits : n.Measures bits) (hσ : Ranged σ) {s : Circuit.Stmt}
    (hs : s.isLeaf = false) (h : InRun n look σ Inv s) {body : List Stmt}
    (hb : stmtOf n s = .ok body) : eval σ s.test = .ok (denote σ s.test) ∧
      ∃ chosen, stmtsOf n (s.chosen (denote σ s.test)) = .ok chosen ∧
        ∀ ρ, Inv ρ → run bits look ρ body = run bits look ρ chosen := by
  cases s with
  | hole | assign _ _ | marker _ => cases hs
  | branch test yes no =>
    have hspell := h.values test (by simp [values])
    obtain ⟨e, he, hb⟩ := bind_eq_ok.mp hb
    obtain ⟨yes', no', hyes, hno, rfl⟩ := bind₂_eq_ok.mp hb
    have htest : ∀ ρ, Inv ρ → e.value bits (look ρ) (e.size bits) = (denote σ test).toNat :=
      fun ρ hρ => (exprOf_spec hbits hσ hspell (h.shown ρ hρ test (by simp [values])) he).2 _
    have hrun : ∀ ρ, Inv ρ → run bits look ρ [.branch e yes' no'] =
        if denote σ test ≠ 0 then run bits look ρ yes' else runOption bits look ρ no' := by
      intro ρ hρ
      simp only [run, Stmt.run, htest ρ hρ, ne_eq, ← UInt64.toNat_inj, UInt64.toNat_zero]
    refine ⟨eval_eq_ok hspell.sized hspell.regular σ, ?_⟩
    rw [Stmt.test, Stmt.chosen]
    by_cases hzero : denote σ test ≠ 0
    · rw [if_pos hzero]
      exact ⟨yes', hyes, fun ρ hρ => by rw [hrun ρ hρ, if_pos hzero]⟩
    · obtain ⟨chosen, hchosen, hno⟩ := run_stmtsOfOption bits look hno
      rw [if_neg hzero]
      exact ⟨chosen, hchosen, fun ρ hρ => by rw [hrun ρ hρ, if_neg hzero, hno]⟩
  | select test arms other =>
    obtain ⟨x, rfl, -, hlits⟩ := h.writable.1
    refine ⟨rfl, ?_⟩
    rw [stmtOf] at hb
    split at hb
    · rename_i hempty
      cases hb
      simp only [Bool.and_eq_true, List.isEmpty_iff] at hempty
      obtain ⟨rfl, hother⟩ := hempty
      exact ⟨[], congrArg (stmtsOf n) hother, fun _ _ => rfl⟩
    · rename_i hwritten
      have hspell := h.values (.signal x) (by simp [values, hwritten])
      obtain ⟨e, he, hb⟩ := bind_eq_ok.mp hb
      obtain ⟨arms', other', harms, hother, rfl⟩ := bind₂_eq_ok.mp hb
      obtain ⟨rest, hrest, hother⟩ := run_stmtsOfOption bits look hother
      obtain ⟨chosen, hchosen, hrun⟩ := run_armsOf bits look (σ.get x) hlits
        (width_of_isSized hspell.sized).1 harms hrest
      refine ⟨chosen, hchosen, fun ρ hρ => ?_⟩
      have htest := (exprOf_spec hbits hσ hspell
        (h.shown ρ hρ (.signal x) (by simp [values, hwritten])) he).2
      rw [denote] at htest
      simp only [run, Stmt.run, htest, hother, hrun]

/-- Running a block carries out the writes that the simulator executes. -/
theorem run_stmtsOf (hbits : n.Measures bits) (hσ : Ranged σ) (ss : List Circuit.Stmt)
    (h : ∀ t ∈ walk ss, InRun n look σ Inv t) {body : List Stmt} (hb : stmtsOf n ss = .ok body) :
    ∃ ws, exec σ ss = .ok ws ∧ Carries n Inv (fun ρ => run bits look ρ body) ws := by
  induction ss using block_induct generalizing body with
  | nil =>
    cases hb
    exact ⟨[], rfl, .nil⟩
  | cons s ss ihs ih =>
    obtain ⟨a, b, ha, hb', rfl⟩ := bind₂_eq_ok.mp hb
    have hrun := h s (by simp [walk, s.self_mem_walk])
    have hstmt : ∃ ws, execStmt σ s = .ok ws ∧
        Carries n Inv (fun ρ => run bits look ρ a) ws := by
      cases hleaf : s.isLeaf with
      | true =>
        cases s with
        | hole | marker _ => exact hrun.writable.1.elim
        | branch _ _ _ | select _ _ _ => cases hleaf
        | assign t v =>
          obtain ⟨e, he, ha⟩ := bind_eq_ok.mp ha
          cases ha
          refine ⟨_, ?_, carries_assign hbits hσ hrun he⟩
          have heval := eval_eq_ok (hrun.values v (by simp [values])).sized hrun.writable.1.2
          exact bind_eq_ok.mpr ⟨_, heval σ, rfl⟩
      | false =>
        obtain ⟨heval, chosen, hchosen, hgo⟩ := run_chosen hbits hσ hleaf hrun ha
        obtain ⟨ws, hws, hcarries⟩ := ihs _
          (fun t ht => h t (by simp [walk, s.walk_chosen_subset _ ht])) hchosen
        refine ⟨ws, ?_, hcarries.congr hgo⟩
        rw [execStmt_chosen hleaf, heval]
        exact hws
    obtain ⟨ws, hws, hcarries⟩ := hstmt
    obtain ⟨vs, hvs, hcarries'⟩ := ih (fun t ht => h t (by simp [walk, ht])) hb'
    refine ⟨ws ++ vs, ?_, ?_⟩
    · rw [exec_cons, hws, hvs]
      rfl
    · simp only [run_append]
      exact hcarries.append hcarries'

end Running

end Sequencer.Verilog
