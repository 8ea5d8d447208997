import Mathlib.Algebra.Group.Nat.Defs
import Mathlib.Tactic.Common
import Sequencer.Simulation.Eval

/-!
# The widths and shapes of values

A number travels as a word cut to the width of a signal. `bitsFor` of the greatest number is the
least width that keeps all of them apart.

The same expression is lowered to different values in different places, with other tags and other
signals. `Alike` says in what sense these are one value.

Widths wrap around, so that of a sum can come out negative. The only value that cannot be evaluated
for this is a left shift by an amount of negative width.
-/

namespace Sequencer

theorem getElem?_of_isPrefix {α : Type} {l m : List α} (h : l <+: m) {i : Nat} {a : α}
    (hi : l[i]? = some a) : m[i]? = some a := by
  obtain ⟨hlt, rfl⟩ := List.getElem?_eq_some_iff.mp hi
  exact List.prefix_iff_getElem?.mp h i hlt

end Sequencer

namespace Sequencer.Circuit

open UInt64 Int64

variable {width : Int} {n i : Nat}

theorem truncate_eq_self {v : UInt64} (h : v.toNat < 2 ^ width.toNat) : truncate v width = v := by
  unfold truncate
  split
  · rw [show Nat.pow 2 width.toNat = 2 ^ width.toNat from rfl, Nat.mod_eq_of_lt h,
      UInt64.ofNat_toNat]
  · rfl

theorem toNat_truncate {v : UInt64} (h₀ : 0 ≤ width) (h : width < 64) :
    (truncate v width).toNat = v.toNat % 2 ^ width.toNat := by
  unfold truncate
  rw [if_pos ⟨h₀, h⟩]
  have : v.toNat % 2 ^ width.toNat < 2 ^ 64 := Nat.lt_of_le_of_lt (Nat.mod_le _ _) v.toNat_lt
  exact toNat_ofNat_of_lt' this

@[simp]
theorem truncate_zero (width : Int) : truncate 0 width = 0 := by
  unfold truncate
  split <;> simp

@[simp]
theorem truncate_truncate (v : UInt64) (width : Int) :
    truncate (truncate v width) width = truncate v width := by
  by_cases h : 0 ≤ width ∧ width < 64
  · apply truncate_eq_self
    rw [toNat_truncate h.1 h.2]
    exact Nat.mod_lt _ (Nat.two_pow_pos _)
  · simp [truncate, h]

theorem bitsFor_ofNat (hn : n < 2 ^ 63) :
    bitsFor (Int64.ofNat n) = if n = 0 then 1 else ((n.log2 + 1 : Nat) : Int) := by
  have hint : (Int64.ofNat n).toInt = n := toInt_ofNat_of_lt hn
  have hpos : ¬ Int64.ofNat n < 0 := by
    rw [lt_iff_toInt_lt, hint]
    simp
  have hzero : Int64.ofNat n = 0 ↔ n = 0 := by
    rw [← toInt_inj, hint]
    simp
  unfold bitsFor bitLength
  split <;> simp_all

theorem one_le_bitsFor (v : Int64) : 1 ≤ bitsFor v := by
  unfold bitsFor
  split
  · omega
  · rename_i hneg
    split
    · omega
    · rename_i hzero
      rw [← toInt_inj, toInt_zero] at hzero
      rw [lt_iff_toInt_lt, toInt_zero] at hneg
      rw [bitLength, if_neg (by omega)]
      omega

theorem lt_two_pow_bitsFor (hi : i ≤ n) (hn : n < 2 ^ 63) : i < 2 ^ (bitsFor (ofNat n)).toNat := by
  rw [bitsFor_ofNat hn]
  split
  · show i < 2 ^ 1
    omega
  · exact Nat.lt_of_le_of_lt hi Nat.lt_log2_self

theorem bitsFor_le {w : Nat} (hn : n < 2 ^ 63) (hw : 1 ≤ w) (h : n < 2 ^ w) :
    bitsFor (ofNat n) ≤ w := by
  rw [bitsFor_ofNat hn]
  split
  · omega
  · rename_i hne
    have := (Nat.log2_lt hne).mpr h
    omega

theorem toNat_ofNat_of_le (hi : i ≤ n) (hn : n < 2 ^ 63) : (UInt64.ofNat i).toNat = i := by
  have : i < 2 ^ 64 := by omega
  exact toNat_ofNat_of_lt' this

theorem ofNat_inj {j : Nat} (hi : i ≤ n) (hj : j ≤ n) (hn : n < 2 ^ 63)
    (h : UInt64.ofNat i = UInt64.ofNat j) : i = j := by
  rw [← toNat_ofNat_of_le hi hn, h, toNat_ofNat_of_le hj hn]

variable (hi : i ≤ n) (hn : n < 2 ^ 63) (hw : bitsFor (Int64.ofNat n) ≤ width)

include hi hn hw

theorem truncate_ofNat : truncate (UInt64.ofNat i) width = UInt64.ofNat i := by
  apply truncate_eq_self
  rw [toNat_ofNat_of_le hi hn]
  have hmono : (bitsFor (Int64.ofNat n)).toNat ≤ width.toNat := by omega
  exact Nat.lt_of_lt_of_le (lt_two_pow_bitsFor hi hn) (Nat.pow_le_pow_right (by omega) hmono)

theorem word_sized : (Literal.sized (Int64.ofNat i) width).word = UInt64.ofNat i :=
  truncate_ofNat hi hn (Int.le_trans hw (Int.le_max_left _ _))

end Sequencer.Circuit

namespace Sequencer.Circuit.Value

open Simulation List

def reads : Value → List Signal
  | hole => []
  | signal s => [s]
  | const _ _ => []
  | binary _ _ left right => left.reads ++ right.reads
  | slice _ x _ _ => x.reads

variable {σ τ : Valuation}

theorem denote_congr {v : Value} (h : ∀ s ∈ v.reads, σ.get s = τ.get s) :
    denote σ v = denote τ v := by
  induction v with
  | hole => rfl
  | signal s => exact h s (by simp [reads])
  | const => rfl
  | binary tag op l r ihl ihr =>
    simp only [reads, List.mem_append] at h
    simp only [denote, ihl fun s hs => h s (.inl hs), ihr fun s hs => h s (.inr hs)]
  | slice tag x lo hi ih => simp only [denote, ih h]

theorem eval_congr {v : Value} (h : ∀ s ∈ v.reads, σ.get s = τ.get s) : eval σ v = eval τ v := by
  simp only [eval, denote_congr h]

/-- A value as programs make them: it reads only signals of `ss`, its operators are known, and its
slices lie within what they are taken from. -/
def BuiltOn (ss : List Signal) : Value → Prop
  | hole => True
  | signal s => s ∈ ss
  | const _ _ => True
  | binary _ op left right => (∀ code, op ≠ .unknown code) ∧ left.BuiltOn ss ∧ right.BuiltOn ss
  | slice _ x lo hi => (0 ≤ lo ∧ lo < hi ∧ hi ≤ x.width) ∧ x.BuiltOn ss

theorem BuiltOn.mono {ss ts : List Signal} (hst : ss ⊆ ts) {v : Value} (h : v.BuiltOn ss) :
    v.BuiltOn ts := by
  induction v with
  | hole => trivial
  | signal s => exact hst h
  | const => trivial
  | binary tag op l r ihl ihr => exact ⟨h.1, ihl h.2.1, ihr h.2.2⟩
  | slice tag x lo hi ih => exact ⟨h.1, ih h.2⟩

theorem BuiltOn.reads_subset {ss : List Signal} {v : Value} (h : v.BuiltOn ss) : v.reads ⊆ ss := by
  induction v with
  | hole => simp [reads]
  | signal s => simpa [reads] using (show s ∈ ss from h)
  | const => simp [reads]
  | binary tag op l r ihl ihr =>
    simp only [reads, List.append_subset]
    exact ⟨ihl h.2.1, ihr h.2.2⟩
  | slice tag x lo hi ih => exact ih h.2

/-- Two values of the same shape: they differ in their tags, and where one reads the signal at a
place of `ss` the other reads the one at the same place of `ts`. -/
inductive Alike (ss ts : List Signal) : Value → Value → Prop
  | hole : Alike ss ts hole hole
  | signal {i : Nat} {s t : Signal} : ss[i]? = some s → ts[i]? = some t → s.bits = t.bits →
      Alike ss ts (signal s) (signal t)
  | const (a b : Nat) (l : Literal) : Alike ss ts (const a l) (const b l)
  | binary (a b : Nat) (op : Op) {l l' r r' : Value} : Alike ss ts l l' → Alike ss ts r r' →
      Alike ss ts (binary a op l r) (binary b op l' r')
  | slice (a b : Nat) (lo hi : Int) {x x' : Value} : Alike ss ts x x' →
      Alike ss ts (slice a x lo hi) (slice b x' lo hi)

namespace Alike

variable {ss ts : List Signal} {v u : Value}

theorem mono {ss' ts' : List Signal} (hs : ss <+: ss') (ht : ts <+: ts') (h : Alike ss ts v u) :
    Alike ss' ts' v u := by
  induction h with
  | hole => exact .hole
  | signal h₁ h₂ h₃ => exact .signal (getElem?_of_isPrefix hs h₁) (getElem?_of_isPrefix ht h₂) h₃
  | const a b l => exact .const a b l
  | binary a b op _ _ ihl ihr => exact .binary a b op ihl ihr
  | slice a b lo hi _ ih => exact .slice a b lo hi ih

variable (h : Alike ss ts v u)

include h

theorem isNatConst_eq : v.isNatConst = u.isNatConst := by
  cases h <;> rfl

theorem width_eq : v.width = u.width := by
  induction h with
  | hole => rfl
  | signal _ _ h => exact h
  | const => rfl
  | binary a b op hl hr ihl ihr =>
    simp only [width, ihl, ihr]
    cases hr <;> rfl
  | slice => rfl

theorem measurable_eq : v.measurable = u.measurable := by
  induction h with
  | hole | signal | const | slice => rfl
  | binary a b op hl hr ihl ihr =>
    simp only [measurable, ihl, ihr, hr.isNatConst_eq, hr.width_eq]

theorem fault?_eq : fault? v = fault? u := by
  induction h with
  | hole | signal | const => rfl
  | binary a b op hl hr ihl ihr =>
    have hm := (Alike.binary a b op hl hr).measurable_eq
    simp only [fault?, ihl, ihr]
    cases op <;> simp only [opFault?, hm]
  | slice a b lo hi _ ih => exact ih

variable (hστ : ∀ (i : Nat) s t, ss[i]? = some s → ts[i]? = some t → σ.get s = τ.get t)

include hστ

/-- Where the signals at the same places have the same values, values of the same shape stand for
the same word. -/
theorem denote_eq : denote σ v = denote τ u := by
  induction h with
  | hole => rfl
  | signal h₁ h₂ _ => exact hστ _ _ _ h₁ h₂
  | const => rfl
  | binary a b op hl hr ihl ihr =>
    have hw := (Alike.binary a b op hl hr).width_eq
    simp only [denote, ihl, ihr, hw]
  | slice a b lo hi _ ih => simp only [denote, ih]

theorem eval_eq : eval σ v = eval τ u := by
  simp only [eval, h.fault?_eq, h.denote_eq hστ]

end Alike

/-- A negative constant in at least the given width, which keeps its two's complement value; every
other value as it is. -/
def widened (v : Value) (width : Int) : Value :=
  match v with
  | const tag l => if l.value < 0 ∧ l.bits < width then const tag (.sized l.value width) else v
  | _ => v

/-! ### Widths -/

/-- No part of the value is missing. -/
def Whole : Value → Prop
  | hole => False
  | signal _ => True
  | const _ _ => True
  | binary _ _ left right => left.Whole ∧ right.Whole
  | slice _ x _ _ => x.Whole

/-- No part of the value is missing, and neither its constants nor its slices are empty. -/
def Solid : Value → Prop
  | hole => False
  | signal _ => True
  | const _ l => 1 ≤ l.bits
  | binary _ _ left right => left.Solid ∧ right.Solid
  | slice _ x lo hi => lo < hi ∧ x.Solid

/-- Whether a node is no left shift, or one by an amount that has a width: by a constant that is not
negative, or by a value whose width is not negative. -/
def shiftFits : Value → Bool
  | binary _ .shl _ right => right.isNatConst || 0 ≤ right.width
  | _ => true

/-- No left shift in the value has an amount of negative width. -/
def Measured (v : Value) : Prop := ∀ u ∈ v.walk, u.shiftFits = true

instance (v : Value) : Decidable v.Measured := inferInstanceAs (Decidable (∀ u ∈ _, _))

variable {u v : Value}

/-- What passes from a value to its operands passes to all its parts. -/
theorem of_mem_walk {P : Value → Prop} (hu : u ∈ v.walk) (h : P v)
    (hbinary : ∀ {tag op l r}, P (binary tag op l r) → P l ∧ P r)
    (hslice : ∀ {tag x lo hi}, P (slice tag x lo hi) → P x) : P u := by
  induction v with
  | hole => cases hu
  | signal | const => exact mem_singleton.mp hu ▸ h
  | binary tag op l r ihl ihr =>
    simp only [walk, mem_cons, mem_append] at hu
    obtain rfl | hu | hu := hu
    · exact h
    · exact ihl hu (hbinary h).1
    · exact ihr hu (hbinary h).2
  | slice tag x lo hi ih =>
    simp only [walk, mem_cons] at hu
    obtain rfl | hu := hu
    · exact h
    · exact ih hu (hslice h)

theorem walk_subset (hu : u ∈ v.walk) : u.walk ⊆ v.walk :=
  of_mem_walk (P := fun u => u.walk ⊆ v.walk) hu (Subset.refl _)
    (fun h => ⟨fun w hw => h (by simp [walk, hw]), fun w hw => h (by simp [walk, hw])⟩)
    fun h w hw => h (by simp [walk, hw])

theorem reads_subset_of_mem_walk (hu : u ∈ v.walk) : u.reads ⊆ v.reads :=
  of_mem_walk (P := fun u => u.reads ⊆ v.reads) hu (Subset.refl _)
    append_subset.mp fun h => h

theorem Whole.of_mem_walk (h : v.Whole) (hu : u ∈ v.walk) : u.Whole :=
  Value.of_mem_walk hu h (fun h => h) fun h => h

theorem Solid.whole (h : v.Solid) : v.Whole := by
  induction v with
  | hole => exact h
  | signal | const => trivial
  | binary _ _ _ _ ihl ihr => exact ⟨ihl h.1, ihr h.2⟩
  | slice _ _ _ _ ih => exact ih h.2

theorem Solid.of_mem_walk (h : v.Solid) (hu : u ∈ v.walk) : u.Solid :=
  Value.of_mem_walk hu h (fun h => h) And.right

theorem Measured.of_mem_walk (h : v.Measured) (hu : u ∈ v.walk) : u.Measured :=
  fun w hw => h w (walk_subset hu hw)

variable {tag : Nat} {op : Op} {l r : Value}

theorem measured_binary : (binary tag op l r).Measured ↔
    (binary tag op l r).shiftFits = true ∧ l.Measured ∧ r.Measured := by
  simp only [Measured, walk, forall_mem_cons, forall_mem_append]

theorem measured_slice {x : Value} {lo hi : Int} : (slice tag x lo hi).Measured ↔ x.Measured := by
  simp [Measured, walk, shiftFits]

theorem measurable_binary : (binary tag op l r).measurable = true ↔
      (l.measurable = true ∧ r.measurable = true) ∧ (binary tag op l r).shiftFits = true := by
  cases op <;> simp [measurable, shiftFits]

/-- What is measured has a width. -/
theorem measurable_of_measured (hv : v.Whole) (h : v.Measured) : v.measurable = true := by
  induction v with
  | hole => exact hv.elim
  | signal | const | slice => rfl
  | binary tag op l r ihl ihr =>
    obtain ⟨hfits, hl, hr⟩ := measured_binary.mp h
    exact measurable_binary.mpr ⟨⟨ihl hv.1 hl, ihr hv.2 hr⟩, hfits⟩

theorem measurable_of_fault? (h : fault? v = none) : v.measurable = true := by
  cases v with
  | hole => cases h
  | signal | const | slice => rfl
  | binary tag op l r =>
    rw [fault?, Option.or_eq_none_iff, Option.or_eq_none_iff] at h
    obtain ⟨-, -, hop⟩ := h
    unfold opFault? at hop
    split at hop
    · cases hop
    · simpa using hop

theorem fault?_binary (hop : ∀ code, op ≠ .unknown code) :
    fault? (binary tag op l r) = none ↔
      (fault? l = none ∧ fault? r = none) ∧ (binary tag op l r).shiftFits = true := by
  have hnode : opFault? op (binary tag op l r) = none ↔
      (binary tag op l r).measurable = true := by
    cases op with
    | unknown code => exact absurd rfl (hop code)
    | _ => simp [opFault?]
  rw [fault?, Option.or_eq_none_iff, Option.or_eq_none_iff, hnode, measurable_binary]
  constructor
  · rintro ⟨hl, hr, -, hfits⟩
    exact ⟨⟨hl, hr⟩, hfits⟩
  · rintro ⟨⟨hl, hr⟩, hfits⟩
    exact ⟨hl, hr, ⟨measurable_of_fault? hl, measurable_of_fault? hr⟩, hfits⟩

/-- **A left shift by an amount without a width is all that can be wrong** with a value that is made
of known operators and has no missing parts. -/
theorem fault?_eq_none_iff {ss : List Signal} (hbuilt : v.BuiltOn ss) (hv : v.Whole) :
    fault? v = none ↔ v.Measured := by
  induction v with
  | hole => exact hv.elim
  | signal | const => simp [fault?, Measured, walk, shiftFits]
  | slice tag x lo hi ih => exact (ih hbuilt.2 hv).trans measured_slice.symm
  | binary tag op l r ihl ihr =>
    rw [fault?_binary hbuilt.1, ihl hbuilt.2.1 hv.1, ihr hbuilt.2.2 hv.2, measured_binary, and_comm]

end Sequencer.Circuit.Value
