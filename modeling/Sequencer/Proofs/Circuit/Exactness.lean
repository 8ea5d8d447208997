import Sequencer.Proofs.Verilog.Semantics

/-!
# The width rules lose nothing

The simulator cuts the result of every node to the width of the node. The widths are chosen so that
nothing is ever cut off; here this is proved against arithmetic on natural numbers. Left shifts by
more than six bits are left out, since there bits are lost on purpose.
-/

namespace Sequencer.Circuit

open Simulation Verilog Op Value

/-! ### Arithmetic without a bound -/

/-- What an operator makes of two numbers that nothing bounds. A difference is taken modulo
`2 ^ bits`. -/
def Op.unbounded (bits : Nat) : Op → Nat → Nat → Nat
  | .add, a, b => a + b
  | .sub, a, b => (((a : Int) - b) % (2 ^ bits : Nat)).toNat
  | .mul, a, b => a * b
  | .shl, a, b => a * 2 ^ b
  | .shr, a, b => a / 2 ^ b
  | .or, a, b => a ||| b
  | .xor, a, b => a ^^^ b
  | .and, a, b => a &&& b
  | .eq, a, b => if a = b then 1 else 0
  | .ne, a, b => if a ≠ b then 1 else 0
  | .lt, a, b => if a < b then 1 else 0
  | .le, a, b => if a ≤ b then 1 else 0
  | .gt, a, b => if b < a then 1 else 0
  | .ge, a, b => if b ≤ a then 1 else 0
  | .unknown _, _, _ => 0

namespace Value

/-- The value of a tree in unbounded arithmetic, where `ρ` gives the signals. A constant is its
two's complement in as many bits as it has. -/
def unbounded (ρ : Signal → Nat) : Value → Nat
  | hole => 0
  | signal s => ρ s
  | const _ l => (l.value.toInt % (2 ^ l.bits.toNat : Nat)).toNat
  | binary _ op l r =>
    op.unbounded (max l.width r.width + 1).toNat (l.unbounded ρ) (r.unbounded ρ)
  | slice _ x lo hi => x.unbounded ρ / 2 ^ lo.toNat % 2 ^ (hi - lo).toNat

/-- Whether the width rules keep every bit of a value: no part is missing, all nodes have widths
between 1 and 64, slices lie within what they are taken from, and the amount of a left shift is a
constant that is not negative or has at most six bits. -/
def isLossless : Value → Bool
  | hole => false
  | signal s => fits s.bits
  | const _ l => fits l.bits
  | binary tag op l r =>
    op ∈ table && fits (binary tag op l r).width &&
      (op ≠ .shl || r.isNatConst || r.width ≤ 6) && l.isLossless && r.isLossless
  | slice _ x lo hi => 0 ≤ lo && lo < hi && hi ≤ x.width && x.isLossless

section Lossless

variable {tag : Nat} {op : Op} {l r x : Value} {lo hi : Int}

theorem isLossless_binary : (binary tag op l r).isLossless = true ↔
    op ∈ table ∧ (1 ≤ opWidth op l.width r r.width ∧ opWidth op l.width r r.width ≤ 64) ∧
      (op = .shl → r.isNatConst = true ∨ r.width ≤ 6) ∧
        l.isLossless = true ∧ r.isLossless = true := by
  have hamount : (op ≠ .shl ∨ r.isNatConst = true) ∨ r.width ≤ 6 ↔
      (op = .shl → r.isNatConst = true ∨ r.width ≤ 6) := by
    rw [or_assoc, Decidable.imp_iff_not_or]
  simp only [isLossless, Bool.and_eq_true, Bool.or_eq_true, decide_eq_true_eq, fits_iff, and_assoc,
    width, hamount]

theorem isLossless_slice : (slice tag x lo hi).isLossless = true ↔
    0 ≤ lo ∧ lo < hi ∧ hi ≤ x.width ∧ x.isLossless = true := by
  simp [isLossless, and_assoc]

theorem known_of_mem_table (h : op ∈ table) : ∀ code, op ≠ .unknown code := by
  rintro code rfl
  simp [table] at h

theorem isSized_of_isLossless {v : Value} (h : v.isLossless = true) : isSized v = true := by
  induction v with
  | hole => cases h
  | signal | const => exact h
  | binary tag op l r ihl ihr =>
    obtain ⟨-, hwidth, -, hl, hr⟩ := isLossless_binary.mp h
    simp only [isSized, Bool.and_eq_true]
    exact ⟨fits_iff.mpr hwidth, ihl hl, ihr hr⟩
  | slice tag x lo hi ih =>
    obtain ⟨hlo, hlt, hhi, hx⟩ := isLossless_slice.mp h
    have hwidth := width_of_isSized (ih hx)
    simp only [isSized, Bool.and_eq_true]
    refine ⟨fits_iff.mpr ?_, ih hx⟩
    rw [width, wrap_eq_self (by omega) (by omega)]
    omega

theorem builtOn_of_isLossless {v : Value} (h : v.isLossless = true) : v.BuiltOn v.reads := by
  induction v with
  | hole => cases h
  | signal s => exact List.mem_singleton_self s
  | const => trivial
  | binary tag op l r ihl ihr =>
    obtain ⟨hop, -, -, hl, hr⟩ := isLossless_binary.mp h
    exact ⟨known_of_mem_table hop, (ihl hl).mono (List.subset_append_left _ _),
      (ihr hr).mono (List.subset_append_right _ _)⟩
  | slice tag x lo hi ih =>
    obtain ⟨hlo, hlt, hhi, hx⟩ := isLossless_slice.mp h
    exact ⟨⟨hlo, hlt, hhi⟩, ih hx⟩

theorem eval_of_isLossless {v : Value} (h : v.isLossless = true) (σ : Valuation) :
    eval σ v = .ok (denote σ v) :=
  have hsized := isSized_of_isLossless h
  eval_total ⟨_, builtOn_of_isLossless h⟩ (whole_of_isSized hsized) (measured_of_isSized hsized) σ

theorem isLossless_of_mem_walk {u v : Value} (h : v.isLossless = true) (hu : u ∈ v.walk) :
    u.isLossless = true := by
  refine of_mem_walk (P := fun u => u.isLossless = true) hu h (fun h => ?_) fun h => ?_
  · obtain ⟨-, -, -, hl, hr⟩ := isLossless_binary.mp h
    exact ⟨hl, hr⟩
  · obtain ⟨-, -, -, hx⟩ := isLossless_slice.mp h
    exact hx

end Lossless

end Value

/-! ### Constants and amounts -/

theorem natCast_toUInt64 (v : Int64) : (v.toUInt64.toNat : Int) = v.toInt % (2 ^ 64 : Nat) := by
  have hbmod : v.toInt = (v.toUInt64.toNat : Int).bmod (2 ^ 64) := BitVec.toInt_eq_toNat_bmod _
  rw [hbmod, Int.bmod_emod, ← Int.natCast_emod, Nat.mod_eq_of_lt v.toUInt64.toNat_lt]

theorem Literal.toNat_word {l : Literal} (h : 1 ≤ l.bits ∧ l.bits ≤ 64) :
    l.word.toNat = (l.value.toInt % (2 ^ l.bits.toNat : Nat)).toNat := by
  have hdvd : ((2 ^ l.bits.toNat : Nat) : Int) ∣ (2 ^ 64 : Nat) :=
    Int.natCast_dvd_natCast.mpr (Nat.pow_dvd_pow 2 (by omega))
  rw [Literal.word, toNat_truncate_of_pos h.1, ← Int.toNat_natCast (_ % _), Int.natCast_emod,
    natCast_toUInt64, Int.emod_emod_of_dvd _ hdvd]

theorem Literal.word_le {l : Literal} (h : 1 ≤ l.bits ∧ l.bits ≤ 64) (hpos : 0 ≤ l.value) :
    (l.word.toNat : Int) ≤ l.value.toInt := by
  have hlow : 0 ≤ l.value.toInt := by simpa [Int64.le_iff_toInt_le] using hpos
  obtain ⟨n, hn⟩ := Int.eq_ofNat_of_zero_le hlow
  rw [toNat_word h, hn, ← Int.natCast_emod, Int.toNat_natCast]
  exact Int.ofNat_le.mpr (Nat.mod_le _ _)

/-- A left shift by a variable amount is wide enough for every amount. -/
theorem growth_fits {l w : Int} {b : Nat} (hl : 1 ≤ l ∧ l ≤ 64) (hw : 1 ≤ w ∧ w ≤ 6)
    (hb : b < 2 ^ w.toNat) :
    l.toNat + b ≤ (wrap (l + Nat.pow 2 (min w maxShiftBits).toNat - 1)).toNat := by
  have hmin : min w maxShiftBits = w := by
    unfold maxShiftBits
    omega
  have hpow : 2 ^ w.toNat ≤ 2 ^ 6 := Nat.pow_le_pow_right (by omega) (by omega)
  rw [hmin, Nat.pow_eq, wrap_eq_self (by omega) (by omega)]
  omega

/-- **A left shift is wide enough** for what its amount is worth. -/
theorem amount_fits {σ : Valuation} {l : Int} {r : Value} (hl : 1 ≤ l ∧ l ≤ 64)
    (hr : isSized r = true) (hb : (denote σ r).toNat < 2 ^ r.width.toNat)
    (hamount : r.isNatConst = true ∨ r.width ≤ 6)
    (hfits : 1 ≤ shlWidth l r r.width ∧ shlWidth l r r.width ≤ 64) :
    l.toNat + (denote σ r).toNat ≤ (shlWidth l r r.width).toNat := by
  have hwidth := width_of_isSized hr
  cases r with
  | const tag c =>
    by_cases hc : 0 ≤ c.value
    · simp only [shlWidth, hc, if_true] at hfits ⊢
      have hhigh := c.value.toInt_lt
      have hword := Literal.word_le hwidth hc
      rw [eq_of_wrap_fits (by omega) (by omega) hfits, denote]
      omega
    · have hsmall : (const tag c).width ≤ 6 :=
        hamount.resolve_left (by simp [isNatConst, hc])
      simp only [shlWidth, hc, if_false]
      exact growth_fits hl ⟨hwidth.1, hsmall⟩ hb
  | hole => cases hr
  | signal | binary | slice =>
    exact growth_fits hl ⟨hwidth.1, hamount.resolve_left (by simp [isNatConst])⟩ hb

/-! ### Operators -/

section Operators

variable {op : Op} {l r : Int} {right : Value} {a b : Nat}

theorem Op.sub_unbounded_lt (bits : Nat) : unbounded bits .sub a b < 2 ^ bits := by
  have hpos : (0 : Int) < (2 ^ bits : Nat) := Int.natCast_pos.mpr (Nat.two_pow_pos _)
  simp only [unbounded]
  omega

/-- **No operator outgrows its width.** -/
theorem Op.unbounded_lt (hop : op ∈ table) (hl : 1 ≤ l) (hr : 1 ≤ r)
    (hsum : l + r < 9223372036854775808) (ha : a < 2 ^ l.toNat) (hb : b < 2 ^ r.toNat)
    (hshift : op = .shl → l.toNat + b ≤ (opWidth op l right r).toNat) :
    op.unbounded (max l r + 1).toNat a b < 2 ^ (opWidth op l right r).toNat := by
  have hmax : (max l r + 1).toNat = max l.toNat r.toNat + 1 := by omega
  have ha' : a < 2 ^ max l.toNat r.toNat :=
    Nat.lt_of_lt_of_le ha (Nat.pow_le_pow_right (by omega) (Nat.le_max_left _ _))
  have hb' : b < 2 ^ max l.toNat r.toNat :=
    Nat.lt_of_lt_of_le hb (Nat.pow_le_pow_right (by omega) (Nat.le_max_right _ _))
  have hbit : ∀ p : Prop, [Decidable p] → (if p then 1 else 0) < 2 ^ (1 : Int).toNat := by
    intro p _
    split <;> decide
  cases op with
  | add =>
    rw [opWidth, wrap_eq_self (by omega) (by omega), hmax, Nat.pow_succ]
    simp only [unbounded]
    omega
  | sub =>
    rw [opWidth, wrap_eq_self (by omega) (by omega)]
    exact sub_unbounded_lt _
  | mul =>
    rw [opWidth, wrap_eq_self (by omega) (by omega),
      show (l + r).toNat = l.toNat + r.toNat by omega, Nat.pow_add]
    exact Nat.mul_lt_mul'' ha hb
  | shl =>
    have hstep : a * 2 ^ b < 2 ^ (l.toNat + b) := by
      rw [Nat.pow_add]
      exact Nat.mul_lt_mul_of_pos_right ha (Nat.two_pow_pos b)
    exact Nat.lt_of_lt_of_le hstep (Nat.pow_le_pow_right (by omega) (hshift rfl))
  | shr => exact Nat.lt_of_le_of_lt (Nat.div_le_self _ _) ha
  | or =>
    rw [opWidth, show (max l r).toNat = max l.toNat r.toNat by omega]
    exact Nat.or_lt_two_pow ha' hb'
  | xor =>
    rw [opWidth, show (max l r).toNat = max l.toNat r.toNat by omega]
    exact Nat.xor_lt_two_pow ha' hb'
  | and =>
    rw [opWidth, show (max l r).toNat = max l.toNat r.toNat by omega]
    exact Nat.and_lt_two_pow _ hb'
  | eq | ne | lt | le | gt | ge => exact hbit _
  | unknown code => simp [table] at hop

theorem combine_eq_unbounded (hl : 1 ≤ l ∧ l ≤ 64) (hr : 1 ≤ r ∧ r ≤ 64)
    (hlt : op.unbounded (max l r + 1).toNat a b < 2 ^ (opWidth op l right r).toNat) :
    combine (opWidth op l right r).toNat op a b = op.unbounded (max l r + 1).toNat a b := by
  cases op with
  | add | mul | shl => exact Nat.mod_eq_of_lt hlt
  | sub =>
    rw [opWidth, wrap_eq_self (by omega) (by omega)]
    generalize hm : 2 ^ (max l r + 1).toNat = m at hlt
    have hpos : 0 < m := hm ▸ Nat.two_pow_pos _
    have hle : b % m ≤ m := (Nat.mod_lt b hpos).le
    have hcast : (((a + (m - b % m)) % m : Nat) : Int) = ((a : Int) - b) % m := by
      rw [Int.natCast_emod, Nat.cast_add, Nat.cast_sub hle, Int.natCast_emod,
        show (a : Int) + (m - b % m) = a - b % m + m by omega, Int.add_emod_right]
      exact (Int.emod_sub_cancel_left _).mpr (Int.emod_emod_of_dvd _ (Int.dvd_refl _))
    simp only [combine, Op.unbounded, hm]
    rw [← hcast, Int.toNat_natCast]
  | _ => rfl

end Operators

/-! ### Whole values -/

namespace Value

/-- The word of a value is its unbounded value, and fits the width. -/
theorem toNat_denote {σ : Valuation} {v : Value} (h : v.isLossless = true)
    (hσ : ∀ s ∈ v.reads, (σ.get s).toNat < 2 ^ s.bits.toNat) :
    (denote σ v).toNat = v.unbounded (fun s => (σ.get s).toNat) ∧
      (denote σ v).toNat < 2 ^ v.width.toNat := by
  induction v with
  | hole => cases h
  | signal s => exact ⟨rfl, hσ s (List.mem_singleton_self s)⟩
  | const tag l =>
    have hbits := fits_iff.mp h
    refine ⟨Literal.toNat_word hbits, ?_⟩
    rw [denote, Literal.word, toNat_truncate_of_pos hbits.1]
    exact Nat.mod_lt _ (Nat.two_pow_pos _)
  | binary tag op l r ihl ihr =>
    obtain ⟨hop, hfits, hamount, hl, hr⟩ := isLossless_binary.mp h
    simp only [reads, List.mem_append] at hσ
    obtain ⟨hleft, hleftLt⟩ := ihl hl fun s hs => hσ s (.inl hs)
    obtain ⟨hright, hrightLt⟩ := ihr hr fun s hs => hσ s (.inr hs)
    have hlw := width_of_isSized (isSized_of_isLossless hl)
    have hrw := width_of_isSized (isSized_of_isLossless hr)
    have hknown := known_of_mem_table hop
    have hshift : op = .shl → l.width.toNat + (denote σ r).toNat ≤
        (opWidth op l.width r r.width).toNat := by
      rintro rfl
      exact amount_fits hlw (isSized_of_isLossless hr) hrightLt (hamount rfl) hfits
    have hlt := unbounded_lt hop hlw.1 hrw.1 (by omega) hleftLt hrightLt hshift
    have hword : (denote σ (binary tag op l r)).toNat =
        combine (opWidth op l.width r r.width).toNat op
          (denote σ l).toNat (denote σ r).toNat := by
      have hwide : ∀ {k : Int} {n : Nat}, n < 2 ^ k.toNat → k ≤ opWidth op l.width r r.width →
          n < 2 ^ (opWidth op l.width r r.width).toNat := fun hn hk =>
        Nat.lt_of_lt_of_le hn (Nat.pow_le_pow_right (by omega) (by omega))
      refine (combine_eq hknown hfits (fun hc => ?_) fun hc hs => ?_).symm
      · exact hwide hleftLt (operands_le hknown hc hlw hrw hfits).1
      · exact hwide hrightLt ((operands_le hknown hc hlw hrw hfits).2 hs)
    rw [hword, combine_eq_unbounded hlw hrw hlt]
    refine ⟨?_, hlt⟩
    rw [hleft, hright, unbounded]
  | slice tag x lo hi ih =>
    obtain ⟨hlo, hlt, hhi, hx⟩ := isLossless_slice.mp h
    obtain ⟨hbase, -⟩ := ih hx hσ
    have hwidth := width_of_isSized (isSized_of_isLossless hx)
    rw [denote, toNat_slice _ hlo hlt (by omega), hbase, width,
      wrap_eq_self (by omega) (by omega)]
    exact ⟨rfl, Nat.mod_lt _ (Nat.two_pow_pos _)⟩

/-- **The width rules lose nothing.** Where the signals fit their widths, a value that loses nothing
has a word; it is the value that unbounded arithmetic gives, and it fits the width. Each subtraction
in it gives the difference of what its operands give, modulo two to the power of one bit more than
the wider of them has. -/
theorem eval_eq_unbounded {σ : Valuation} {v : Value} (h : v.isLossless = true)
    (hσ : ∀ s ∈ v.reads, (σ.get s).toNat < 2 ^ s.bits.toNat) :
    (∃ w, eval σ v = .ok w ∧ w.toNat = v.unbounded (fun s => (σ.get s).toNat) ∧
      w.toNat < 2 ^ v.width.toNat) ∧
    ∀ tag l r, binary tag .sub l r ∈ v.walk → ∃ a b d, eval σ l = .ok a ∧ eval σ r = .ok b ∧
      eval σ (binary tag .sub l r) = .ok d ∧
        (d.toNat : Int) =
          ((a.toNat : Int) - b.toNat) % (2 ^ (max l.width r.width + 1).toNat : Nat) := by
  refine ⟨⟨_, eval_of_isLossless h σ, toNat_denote h hσ⟩, fun tag l r hsub => ?_⟩
  have hlossless := isLossless_of_mem_walk h hsub
  have hσ' : ∀ s ∈ (binary tag .sub l r).reads, (σ.get s).toNat < 2 ^ s.bits.toNat :=
    fun s hs => hσ s (reads_subset_of_mem_walk hsub hs)
  obtain ⟨-, -, -, hl, hr⟩ := isLossless_binary.mp hlossless
  refine ⟨_, _, _, eval_of_isLossless hl σ, eval_of_isLossless hr σ,
    eval_of_isLossless hlossless σ, ?_⟩
  rw [(toNat_denote hlossless hσ').1, unbounded, Op.unbounded,
    (toNat_denote hl fun s hs => hσ' s (by simp [reads, hs])).1,
    (toNat_denote hr fun s hs => hσ' s (by simp [reads, hs])).1, Int.toNat_of_nonneg]
  exact Int.emod_nonneg _ (Int.natCast_ne_zero.mpr (Nat.two_pow_pos _).ne')

def level : Signal := ⟨1, "level", 8, 0⟩

/-- `(level[2:6] << 3) - level * (level + 15)`, where `15` is `-1` in four bits. -/
def balance : Value :=
  binary 7 .sub (binary 6 .shl (slice 5 (signal level) 2 6) (const 4 ⟨3, 2⟩))
    (binary 3 .mul (signal level) (binary 2 .add (signal level) (const 1 ⟨-1, 4⟩)))

/-- At `level = 200` the difference is negative, and it wraps around in 18 bits. -/
theorem balance_exact : ∃ w, eval ⟨[(level, 200)]⟩ balance = .ok w ∧ w.toNat = 2 ^ 18 - 42984 := by
  obtain ⟨⟨w, heval, hw, -⟩, -⟩ := eval_eq_unbounded (σ := ⟨[(level, 200)]⟩) (v := balance)
    (by decide) (by decide)
  exact ⟨w, heval, hw.trans (by decide)⟩

end Value

end Sequencer.Circuit
