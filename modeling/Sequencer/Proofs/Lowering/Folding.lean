import Sequencer.Proofs.Circuit.Exactness

/-!
# Folding agrees with hardware

An expression of constants is folded on signed 64-bit integers or becomes operators on unsigned
words, depending on where it stands. Where its value in arithmetic without a bound, `exactValue?`,
stays below `2 ^ 63` in every operand, the two agree. A width could only be too small where it wraps
around, and for that a tree needs more than `2 ^ 57` nodes.
-/

namespace Sequencer.Lowering

open Circuit Program Simulation Op Value Int64

open Verilog (isShift combine_eq wrap_eq_self)

/-! ### Arithmetic without a bound -/

/-- An integer that is not negative, as a number. -/
def natural? (v : Int64) : Option Nat := if 0 ≤ v then some v.toInt.toNat else none

/-- What an operator makes of two numbers that nothing bounds. None for a difference, which may be
negative, and for the operators that no hardware has. -/
def exactOp? : BinaryOp → Nat → Nat → Option Nat
  | .add, a, b => some (a + b)
  | .mul, a, b => some (a * b)
  | .or, a, b => some (a ||| b)
  | .xor, a, b => some (a ^^^ b)
  | .and, a, b => some (a &&& b)
  | .shl, a, b => some (a * 2 ^ b)
  | .shr, a, b => some (a / 2 ^ b)
  | .sub, _, _ | .div, _, _ | .mod, _, _ => none

/-- What an expression of literals, of names bound to integers that are not negative and of
operators on them is worth without a bound. -/
def exactValue? (env : Env) : Expr → Option Nat
  | .int _ value _ => natural? value
  | .bool _ value => some value.toNat
  | .name _ ident =>
    match env.lookup ident with
    | some (.int v) => natural? v
    | _ => none
  | .binary _ op left right => do
    let a ← exactValue? env left
    let b ← exactValue? env right
    exactOp? op a b
  | _ => none

/-- An expression and the operands inside it. -/
def operands : Expr → List Expr
  | .binary pos op left right => .binary pos op left right :: (operands left ++ operands right)
  | e => [e]

theorem self_mem_operands (e : Expr) : e ∈ operands e := by
  cases e <;> simp [operands]

theorem natural?_eq_some {v : Int64} {n : Nat} (h : natural? v = some n) : v.toInt = n := by
  rw [natural?] at h
  split at h
  · rename_i hv
    have hlow : 0 ≤ v.toInt := by simpa [le_iff_toInt_le] using hv
    have := Option.some.inj h
    omega
  · cases h

theorem exactOp?_eq_some {op : BinaryOp} {a b n : Nat} (h : exactOp? op a b = some n) :
    ∃ hop, hardwareOp? op = some hop ∧ hop ∈ table ∧ hop.isComparison = false ∧ hop ≠ .sub ∧
      ∀ bits, hop.unbounded bits a b = n := by
  cases op with
  | sub | div | mod => cases h
  | _ =>
    obtain rfl := Option.some.inj h
    exact ⟨_, rfl, by decide, rfl, by decide, fun _ => rfl⟩

/-! ### Signed integers as words -/

section Words

variable {k l r : Int64}

theorem toInt_of_word_lt (h : k.toUInt64.toNat < 2 ^ 63) : k.toInt = k.toUInt64.toNat := by
  have hlt : 2 * k.toBitVec.toNat < 2 ^ 64 := by
    have : k.toBitVec.toNat < 2 ^ 63 := h
    omega
  exact BitVec.toInt_eq_toNat_of_lt hlt

theorem nonneg_of_toInt {n : Nat} (h : k.toInt = n) : 0 ≤ k := by
  rw [le_iff_toInt_le, h]
  exact Int.natCast_nonneg n

theorem word_of_toInt {n : Nat} (h : k.toInt = n) : k.toUInt64.toNat = n := by
  rw [toNat_toUInt64_of_le (nonneg_of_toInt h), ← toNat_toInt, h, Int.toNat_natCast]

theorem natural?_eq_word {n : Nat} (h : natural? k = some n) :
    natural? k = some k.toUInt64.toNat ∧ k.toInt = k.toUInt64.toNat := by
  have hk := natural?_eq_some h
  rw [word_of_toInt hk]
  exact ⟨h, hk⟩

theorem smod_amount (h : 0 ≤ r) : r.toBitVec.smod 64 = (r.toUInt64 % 64).toBitVec := by
  rw [BitVec.smod_eq, BitVec.zero_sle_iff_msb_eq_false.mp h]
  rfl

theorem toUInt64_shiftLeft (hr : 0 ≤ r) : (l <<< r).toUInt64 = l.toUInt64 <<< r.toUInt64 := by
  apply UInt64.toBitVec_inj.mp
  rw [toBitVec_toUInt64, Int64.toBitVec_shiftLeft, smod_amount hr]
  rfl

theorem toUInt64_shiftRight (hl : 0 ≤ l) (hr : 0 ≤ r) :
    (l >>> r).toUInt64 = l.toUInt64 >>> r.toUInt64 := by
  apply UInt64.toBitVec_inj.mp
  rw [toBitVec_toUInt64, Int64.toBitVec_shiftRight, smod_amount hr, BitVec.sshiftRight',
    BitVec.sshiftRight_eq_of_msb_false (BitVec.zero_sle_iff_msb_eq_false.mp hl)]
  rfl

/-- A shift is folded if its amount is one that words have. -/
theorem amount_of_fold {e : Fault} {m : Int64}
    (h : (if r < 0 || 63 < r then some (Except.error e) else some (.ok m)) = some (.ok k)) :
    0 ≤ r ∧ r.toUInt64.toNat ≤ 63 ∧ m = k := by
  split at h
  · cases h
  · rename_i hr
    rw [Bool.or_eq_true, decide_eq_true_eq, decide_eq_true_eq, not_or, Int64.not_lt,
      Int64.not_lt] at hr
    have hlow : 0 ≤ r.toInt := by simpa [le_iff_toInt_le] using hr.1
    have hhigh : r.toInt ≤ 63 := by simpa [le_iff_toInt_le] using hr.2
    have hword := word_of_toInt (k := r) (n := r.toInt.toNat) (by omega)
    cases h
    exact ⟨hr.1, by omega, rfl⟩

/-- **Folding an operator is applying it to words**, where a shift to the right meets no sign. The
amount of a shift is one that words have. -/
theorem word_of_foldBinary? {pos : Position} {op : BinaryOp} {hop : Op}
    (hhop : hardwareOp? op = some hop) (hl : 0 ≤ l) (h : foldBinary? pos op l r = some (.ok k)) :
    k.toUInt64 = applyOp hop l.toUInt64 r.toUInt64 ∧
      (isShift hop = true → r.toUInt64.toNat ≤ 63) := by
  have hamount : r.toUInt64.toNat ≤ 63 → r.toUInt64 < 64 := fun hr =>
    UInt64.lt_iff_toNat_lt.mpr (Nat.lt_succ_of_le hr)
  cases op with
  | div | mod => cases hhop
  | add | sub | mul | or | xor | and =>
    cases hhop
    cases h
    exact ⟨rfl, by simp [isShift]⟩
  | shl =>
    cases hhop
    obtain ⟨hlow, hhigh, rfl⟩ := amount_of_fold h
    refine ⟨?_, fun _ => hhigh⟩
    rw [applyOp, shiftLeft, if_pos (hamount hhigh), if_pos rfl, toUInt64_shiftLeft hlow]
  | shr =>
    cases hhop
    obtain ⟨hlow, hhigh, rfl⟩ := amount_of_fold h
    refine ⟨?_, fun _ => hhigh⟩
    rw [applyOp, shiftRight, if_pos (hamount hhigh), if_neg (by decide),
      toUInt64_shiftRight hl hlow]

end Words

theorem toNat_applyOp {hop : Op} (hknown : hop ∈ table) (hcompare : hop.isComparison = false)
    (hsub : hop ≠ .sub) {x y : UInt64} (bits : Nat)
    (h : hop.unbounded bits x.toNat y.toNat < 2 ^ 64) :
    (applyOp hop x y).toNat = hop.unbounded bits x.toNat y.toNat := by
  have hword : 1 ≤ (64 : Int) ∧ (64 : Int) ≤ 64 := by decide
  have hcombine := combine_eq (known_of_mem_table hknown) hword (fun _ => x.toNat_lt)
    (fun _ _ => y.toNat_lt)
  have hkeep : truncate (applyOp hop x y) 64 = applyOp hop x y := by simp [truncate]
  rw [← hkeep, ← hcombine]
  cases hop with
  | add | mul | shl => exact Nat.mod_eq_of_lt h
  | sub => exact absurd rfl hsub
  | shr | or | xor | and => rfl
  | eq | ne | lt | le | gt | ge => cases hcompare
  | unknown code => simp [table] at hknown

/-! ### Values that stand for a number -/

/-- A value that stands for the number `a`, whatever the signals are, and whose width holds `a`. No
node of a tree adds more than 63 bits to the width. -/
structure Represents (v : Value) (a size : Nat) : Prop where
  fault : fault? v = none
  measurable : v.measurable = true
  word : ∀ σ, (denote σ v).toNat = a
  fits : a < 2 ^ v.width.toNat
  width : 1 ≤ v.width ∧ v.width ≤ 63 * size
  /-- The width rule for left shifts looks at the value of a constant. -/
  amount : ∀ tag l, v = .const tag l → l.value.toInt = a

theorem represents_const {tag a : Nat} {l : Literal} (hvalue : l.value.toInt = a)
    (hbits : 1 ≤ l.bits ∧ l.bits ≤ 63) (ha : a < 2 ^ l.bits.toNat) :
    Represents (.const tag l) a 1 where
  fault := rfl
  measurable := rfl
  word := by
    intro σ
    rw [denote, Literal.toNat_word ⟨hbits.1, by omega⟩, hvalue, ← Int.natCast_emod,
      Int.toNat_natCast, Nat.mod_eq_of_lt ha]
  fits := ha
  width := by
    rw [width]
    omega
  amount := by
    rintro _ _ ⟨⟩
    exact hvalue

theorem represents_fit {tag a : Nat} {k : Int64} (hk : k.toInt = a) :
    Represents (.const tag (.fit k)) a 1 := by
  have ha : a < 2 ^ 63 := by
    have := k.toInt_lt
    omega
  have heq : k = ofNat a := by
    rw [← toInt_inj, hk, toInt_ofNat_of_lt ha]
  have hbits : 1 ≤ bitsFor k ∧ bitsFor k ≤ 63 := by
    refine ⟨?_, heq ▸ bitsFor_le ha (by decide) ha⟩
    rw [heq, bitsFor_ofNat ha]
    split <;> omega
  refine represents_const hk hbits ?_
  rw [Literal.fit, heq]
  exact lt_two_pow_bitsFor (Nat.le_refl a) ha

theorem represents_truth (tag : Nat) (b : Bool) :
    Represents (.const tag (.sized (if b then 1 else 0) 1)) b.toNat 1 := by
  cases b <;> exact represents_const rfl (by decide) (by decide)

theorem Represents.shlWidth_bounds {r : Value} {b n : Nat} (hr : Represents r b n) (hb : b ≤ 63)
    {l : Int} (hl : 1 ≤ l ∧ l + 63 < 9223372036854775808) :
    l + b ≤ shlWidth l r r.width ∧ shlWidth l r r.width ≤ l + 63 := by
  have hgrowth : l + b ≤ wrap (l + Nat.pow 2 (min r.width maxShiftBits).toNat - 1) ∧
      wrap (l + Nat.pow 2 (min r.width maxShiftBits).toNat - 1) ≤ l + 63 := by
    have hbound : 2 ^ (min r.width maxShiftBits).toNat ≤ 2 ^ 6 := by
      refine Nat.pow_le_pow_right (by decide) ?_
      rw [maxShiftBits]
      omega
    have hamount : b < 2 ^ (min r.width maxShiftBits).toNat := by
      rcases Int.le_total r.width maxShiftBits with hle | hle
      · rw [Int.min_eq_left hle]
        exact hr.fits
      · rw [Int.min_eq_right hle, maxShiftBits]
        exact Nat.lt_succ_of_le hb
    rw [Nat.pow_eq, wrap_eq_self (by omega) (by omega)]
    omega
  cases r with
  | const tag c =>
    have hc := hr.amount tag c rfl
    have hlow := nonneg_of_toInt hc
    rw [shlWidth, if_pos hlow, hc, wrap_eq_self (by omega) (by omega)]
    omega
  | hole | signal | binary | slice => exact hgrowth

/-- **An operator node stands for what the operator makes of its operands**, where that is a
word. -/
theorem Represents.binary {l r : Value} {a b m n : Nat} (hl : Represents l a m)
    (hr : Represents r b n) (tag : Nat) {hop : Op} (hknown : hop ∈ table)
    (hcompare : hop.isComparison = false) (hsub : hop ≠ .sub)
    (hshift : isShift hop = true → b ≤ 63) (hsize : m + n + 1 ≤ 2 ^ 57) {c : Nat}
    (hc : ∀ bits, hop.unbounded bits a b = c) (hlt : c < 2 ^ 63) :
    Represents (.binary tag hop l r) c (m + n + 1) := by
  have hlw := hl.width
  have hrw := hr.width
  have hwidth : 1 ≤ opWidth hop l.width r r.width ∧
      opWidth hop l.width r r.width ≤ 63 * (m + n + 1 : Nat) := by
    cases hop with
    | add | mul =>
      rw [opWidth, wrap_eq_self (by omega) (by omega)]
      omega
    | shl =>
      have := hr.shlWidth_bounds (hshift rfl) ⟨hlw.1, by omega⟩
      rw [opWidth]
      omega
    | shr | or | xor | and =>
      rw [opWidth]
      omega
    | sub => exact absurd rfl hsub
    | eq | ne | lt | le | gt | ge => cases hcompare
    | unknown code => simp [table] at hknown
  have hfits : c < 2 ^ (opWidth hop l.width r r.width).toNat := by
    rw [← hc (max l.width r.width + 1).toNat]
    refine unbounded_lt hknown hlw.1 hrw.1 (by omega) hl.fits hr.fits ?_
    rintro rfl
    have := hr.shlWidth_bounds (hshift rfl) ⟨hlw.1, by omega⟩
    rw [opWidth]
    omega
  have hfault : fault? (.binary tag hop l r) = none := by
    refine (fault?_binary (by rintro _ rfl; simp [table] at hknown)).mpr
      ⟨⟨hl.fault, hr.fault⟩, ?_⟩
    have hr : 0 ≤ r.width := by omega
    cases hop <;> simp [shiftFits, hr]
  refine ⟨hfault, measurable_of_fault? hfault, fun σ => ?_, hfits, hwidth, ?_⟩
  · have happly : (applyOp hop (denote σ l) (denote σ r)).toNat = c := by
      rw [toNat_applyOp hknown hcompare hsub 0, hl.word, hr.word, hc]
      rw [hl.word, hr.word, hc]
      omega
    rw [denote, truncate_eq_self, happly]
    rw [happly]
    exact hfits
  · rintro _ _ ⟨⟩

/-! ### Both evaluations -/

section Agreement

variable {env : Env}

/-- An expression that folds is lowered to a value that stands for what it folds to. The induction
is on the expression; at an operator the words of the operands are the operands that were
folded. -/
theorem represents_lowerExpr (e : Expr) {k : Int64}
    (hexact : ∀ s ∈ operands e, ∃ n, exactValue? env s = some n ∧ n < 2 ^ 63)
    (hfold : constInt env e = .ok k) (hsize : (operands e).length ≤ 2 ^ 57) (w : Workshop) :
    exactValue? env e = some k.toUInt64.toNat ∧ ∃ v w', Gives (lowerExpr env e) w v w' ∧
      Represents v k.toUInt64.toNat (operands e).length := by
  match e with
  | .int pos value raw =>
    obtain ⟨c, hc, -⟩ := hexact _ (self_mem_operands _)
    cases hfold
    obtain ⟨hvalue, hk⟩ := natural?_eq_word hc
    refine ⟨hvalue, .const w.supply _, w.tick, ?_, represents_fit hk⟩
    exact gives_newConst.mpr ⟨rfl, rfl⟩
  | .bool pos value =>
    cases hfold
    have hword : (if value then (1 : Int64) else 0).toUInt64.toNat = value.toNat := by
      cases value <;> rfl
    rw [hword]
    refine ⟨rfl, .const w.supply _, w.tick, ?_, represents_truth _ value⟩
    exact gives_newConst.mpr ⟨rfl, rfl⟩
  | .name pos ident =>
    obtain ⟨c, hc, -⟩ := hexact _ (self_mem_operands _)
    rw [exactValue?] at hc
    split at hc
    · rename_i v hv
      simp only [constInt, hv, Except.ok.injEq] at hfold
      subst hfold
      obtain ⟨hvalue, hk⟩ := natural?_eq_word hc
      refine ⟨by simpa only [exactValue?, hv] using hvalue, .const w.supply _, w.tick, ?_,
        represents_fit hk⟩
      rw [lowerExpr]
      simp only [lowerName, hv]
      exact gives_newConst.mpr ⟨rfl, rfl⟩
    · cases hc
  | .binary pos op left right =>
    have hlength : (operands (.binary pos op left right)).length =
        (operands left).length + (operands right).length + 1 := by simp [operands]
    rw [hlength] at hsize ⊢
    simp only [operands, List.forall_mem_cons, List.forall_mem_append] at hexact
    obtain ⟨⟨c, hc, hlt⟩, hexactl, hexactr⟩ := hexact
    obtain ⟨x, hx, hfold⟩ := bind_eq_ok.mp hfold
    obtain ⟨y, hy, hfold⟩ := bind_eq_ok.mp hfold
    obtain ⟨hleft, l, w₁, hgl, hl⟩ := represents_lowerExpr left hexactl hx (by omega) w
    obtain ⟨hright, r, w₂, hgr, hr⟩ := represents_lowerExpr right hexactr hy (by omega) w₁
    obtain ⟨hop, hhop, hknown, hcompare, hsub, hvalue⟩ : ∃ hop, hardwareOp? op = some hop ∧
        hop ∈ table ∧ hop.isComparison = false ∧ hop ≠ .sub ∧
          ∀ bits, hop.unbounded bits x.toUInt64.toNat y.toUInt64.toNat = c := by
      simp only [exactValue?, hleft, hright, Option.bind_eq_bind, Option.bind_some] at hc
      exact exactOp?_eq_some hc
    have hlow : 0 ≤ x := by
      obtain ⟨n, hn, hlt⟩ := hexactl left (self_mem_operands left)
      cases hleft.symm.trans hn
      exact nonneg_of_toInt (toInt_of_word_lt hlt)
    have hresult : foldBinary? pos op x y = some (.ok k) := by
      split at hfold
      · rename_i hsome
        rw [hsome, hfold]
      · cases hfold
    obtain ⟨hword, hshift⟩ := word_of_foldBinary? hhop hlow hresult
    have hk : k.toUInt64.toNat = c := by
      rw [hword, toNat_applyOp hknown hcompare hsub 0, hvalue]
      rw [hvalue]
      omega
    rw [hk]
    refine ⟨hc, .binary w₂.supply hop l r, w₂.tick, ?_,
      hl.binary hr w₂.supply hknown hcompare hsub hshift hsize hvalue hlt⟩
    rw [lowerExpr]
    simp only [hhop]
    exact gives_bind.mpr ⟨l, w₁, hgl, gives_bind.mpr ⟨r, w₂, hgr, gives_newBinary.mpr ⟨rfl, rfl⟩⟩⟩
  | .compare .. | .boolOp .. | .unary .. | .call .. | .attr .. | .list .. | .yield .. =>
    obtain ⟨c, hc, -⟩ := hexact _ (self_mem_operands _)
    cases hc

/-- **Folding and hardware agree.** Let every operand of an expression, the whole included, be worth
less than `2 ^ 63` in arithmetic without a bound, and let the expression fold. Then lowering it
succeeds, and the value it is lowered to evaluates to the integer that it folds to, which is what it
is worth. -/
theorem eval_lowered_eq_folded {e : Expr} {k : Int64}
    (hexact : ∀ s ∈ operands e, ∃ n, exactValue? env s = some n ∧ n < 2 ^ 63)
    (hfold : constInt env e = .ok k) (hsize : (operands e).length ≤ 2 ^ 57) (w : Workshop) :
    ∃ v w', Gives (lowerExpr env e) w v w' ∧
      ∀ σ, ∃ x, eval σ v = .ok x ∧ (x.toNat : Int) = k.toInt ∧
        exactValue? env e = some x.toNat := by
  obtain ⟨hvalue, v, w', hgives, hv⟩ := represents_lowerExpr e hexact hfold hsize w
  obtain ⟨n, hn, hlt⟩ := hexact e (self_mem_operands e)
  cases hvalue.symm.trans hn
  refine ⟨v, w', hgives, fun σ => ⟨denote σ v, ?_, ?_, ?_⟩⟩
  · rw [eval, hv.fault]
  · rw [hv.word, toInt_of_word_lt hlt]
  · rw [hv.word, hvalue]

def limitScope : Env := ⟨[("limit", .int 5)], []⟩

/-- `limit << 3 + 4 * 8 | True`. The amount has eight bits and counts as six, so the shift is 66
bits wide. -/
def shiftedLimit : Expr :=
  let amount : Expr := .binary ⟨1, 12⟩ .add (.int ⟨1, 10⟩ 3 "3")
    (.binary ⟨1, 16⟩ .mul (.int ⟨1, 14⟩ 4 "4") (.int ⟨1, 18⟩ 8 "8"))
  .binary ⟨1, 20⟩ .or (.binary ⟨1, 7⟩ .shl (.name ⟨1, 1⟩ "limit") amount) (.bool ⟨1, 22⟩ true)

/-- All 66 bits are the folded number. -/
theorem shiftedLimit_agrees : constInt limitScope shiftedLimit = .ok 171798691841 ∧
    ∃ v w, Gives (lowerExpr limitScope shiftedLimit) (.new firstTag) v w ∧ v.width = 66 ∧
      ∀ σ, ∃ x, eval σ v = .ok x ∧ (x.toNat : Int) = 171798691841 := by
  have hfold : constInt limitScope shiftedLimit = .ok 171798691841 := by rfl
  have hexact : ∀ s ∈ operands shiftedLimit, ∃ n ∈ exactValue? limitScope s, n < 2 ^ 63 := by
    decide
  obtain ⟨v, w, hgives, heval⟩ := eval_lowered_eq_folded hexact hfold (by decide) (.new firstTag)
  obtain ⟨u, w', hgives', hwidth⟩ : ∃ u w', Gives (lowerExpr limitScope shiftedLimit)
      (.new firstTag) u w' ∧ u.width = 66 := by decide
  obtain ⟨rfl, rfl⟩ := hgives.unique hgives'
  refine ⟨hfold, v, w, hgives, hwidth, fun σ => ?_⟩
  obtain ⟨x, hx, hword, -⟩ := heval σ
  exact ⟨x, hx, hword⟩

end Agreement

end Sequencer.Lowering
