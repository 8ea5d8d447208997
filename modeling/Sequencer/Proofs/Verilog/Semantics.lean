import Mathlib.Logic.Function.Basic
import Sequencer.Proofs.Verilog.Writing

/-!
# What modules mean

A module by the rules of the language. An expression is evaluated in the width of its context,
except that the operands of a comparison only agree with each other and that the amount of a shift
stands by itself. Between clock edges the wires equal their expressions and running the
combinational block changes nothing; at an edge all assignments read the values before it.
-/

namespace Sequencer.Verilog

open Circuit Simulation Value

/-- What the names of a module stand for. -/
abbrev Store := String → Nat

/-! ### Widths -/

/-- The number of bits in a declaration. One without a range is a single bit. -/
def declaredBits (width : Int) : Nat := (max width 1).toNat

def Decl.width? (x : String) : Decl → Option Int
  | .constant _ _ => none
  | .reg width ident _ => if ident = x then some width else none
  | .wire width ident _ => if ident = x then some width else none

/-- The declared number of bits of a name. -/
def Module.bits (m : Module) (x : String) : Nat :=
  declaredBits ((((m.ports.find? (·.ident = x)).map PortDecl.width).or
    (m.decls.findSome? (Decl.width? x))).getD 1)

/-! ### Expressions -/

/-- The number that a literal stands for: its value in its width. -/
def Number.toNat (n : Number) : Nat := n.value.toNat % 2 ^ n.width.toNat

/-- A shift, whose amount has no part in the width of the result. -/
def isShift (op : Op) : Bool := op = .shl || op = .shr

/-- What an operator makes of two numbers in a width. -/
def combine (width : Nat) : Op → Nat → Nat → Nat
  | .add, a, b => (a + b) % 2 ^ width
  | .sub, a, b => (a + (2 ^ width - b % 2 ^ width)) % 2 ^ width
  | .mul, a, b => a * b % 2 ^ width
  | .shl, a, b => a * 2 ^ b % 2 ^ width
  | .shr, a, b => a / 2 ^ b
  | .or, a, b => a ||| b
  | .xor, a, b => a ^^^ b
  | .and, a, b => a &&& b
  | .eq, a, b => if a = b then 1 else 0
  | .ne, a, b => if a ≠ b then 1 else 0
  | .lt, a, b => if a < b then 1 else 0
  | .le, a, b => if a ≤ b then 1 else 0
  | .gt, a, b => if b < a then 1 else 0
  | .ge, a, b => if b ≤ a then 1 else 0
  | .unknown _, _, _ => 0

section Expressions

variable (bits : String → Nat)

/-- The number of bits that an expression has by itself. -/
def Expr.size : Expr → Nat
  | .name x => bits x
  | .number n => n.width.toNat
  | .binary op l r =>
    if op.isComparison then 1 else if isShift op then l.size else max l.size r.size
  | .bit _ _ => 1
  | .part _ high low => (high - low + 1).toNat

variable (ρ : Store)

/-- The value of an expression in a context of `width` bits. The operands of a comparison are
extended to the wider of the two, and a shift amount is taken in its own size. -/
def Expr.value (width : Nat) : Expr → Nat
  | .name x => ρ x
  | .number n => n.toNat
  | .binary op l r =>
    let common := max (l.size bits) (r.size bits)
    combine width op (l.value (if op.isComparison then common else width))
      (r.value (if op.isComparison then common else if isShift op then r.size bits else width))
  | .bit x index => ρ x / 2 ^ index.toNat % 2
  | .part x high low => ρ x / 2 ^ low.toNat % 2 ^ (high - low + 1).toNat

/-- What an assignment of an expression to a name gives it: the expression is evaluated in the wider
of the two widths and cut to that of the name. -/
def Expr.assigned (target : String) (e : Expr) : Nat :=
  e.value bits ρ (max (bits target) (e.size bits)) % 2 ^ bits target

end Expressions

/-! ### Statements -/

/-- The width in which a selection compares: the widest of the test and the items. -/
def selectWidth (bits : String → Nat) (test : Expr) (arms : List (Number × List Stmt)) : Nat :=
  (arms.map fun arm => arm.1.width.toNat).foldl max (test.size bits)

section Statements

variable (bits : String → Nat) (look : Store → Store)

mutual

/-- Run a statement. Where the current values are `ρ`, names are read from `look ρ`. -/
def Stmt.run (ρ : Store) : Stmt → Store
  | .assign target e => Function.update ρ target (e.assigned bits (look ρ) target)
  | .branch test yes no =>
    if test.value bits (look ρ) (test.size bits) ≠ 0 then run ρ yes else runOption ρ no
  | .select test arms other =>
    (runArms ρ (test.value bits (look ρ) (selectWidth bits test arms)) arms).getD
      (runOption ρ other)

def run (ρ : Store) : List Stmt → Store
  | [] => ρ
  | s :: ss => run (s.run ρ) ss

def runOption (ρ : Store) : Option (List Stmt) → Store
  | none => ρ
  | some ss => run ρ ss

def runArms (ρ : Store) (v : Nat) : List (Number × List Stmt) → Option Store
  | [] => none
  | (n, body) :: arms => if v = n.toNat then some (run ρ body) else runArms ρ v arms

end

end Statements

namespace Block

variable (bits : String → Nat)

def assignNumbers (b : Block) (ρ : Store) : Store :=
  b.numbers.foldl (fun ρ p => Function.update ρ p.1 (p.2.toNat % 2 ^ bits p.1)) ρ

/-- Run a block that is evaluated all the time: each statement sees the assignments before it. -/
def runComb (b : Block) (ρ : Store) : Store := run bits id (b.assignNumbers bits ρ) b.body

/-- Run a block at the clock edge: every statement sees the values before the edge. -/
def runSync (b : Block) (ρ : Store) : Store := run bits (fun _ => ρ) ρ b.body

end Block

/-! ### Runs of a module -/

/-- What a declaration demands of the values. -/
def Decl.Holds (bits : String → Nat) (ρ : Store) : Decl → Prop
  | .constant ident n => ρ ident = n.toNat % 2 ^ bits ident
  | .reg _ _ _ => True
  | .wire _ ident e => ρ ident = e.assigned bits ρ ident

namespace Module

variable (m : Module)

/-- The wires and the combinational block agree with the values. -/
structure Settled (ρ : Store) : Prop where
  decls : ∀ d ∈ m.decls, d.Holds m.bits ρ
  comb : ∀ b ∈ m.comb, b.runComb m.bits ρ = ρ

def inputs : List String := (m.ports.filter (·.direction = .input)).map PortDecl.ident

/-- The names that change at clock edges, with what they are on reset. -/
def resets : List (String × Number) := (m.sync.map Block.numbers).getD []

/-- The values at the next clock edge. -/
def edge (ρ : Store) : Store :=
  match m.sync with
  | none => ρ
  | some b => b.runSync m.bits ρ

end Module

/-- **The runs of a module.** The values that it can have at rest after a history of events since
its reset; the last event comes first. Inputs are zero until they are driven. -/
inductive Module.Plays (m : Module) : List (Event String Nat) → Store → Prop
  | reset {ρ : Store} (settled : m.Settled ρ)
      (resets : ∀ p ∈ m.resets, ρ p.1 = p.2.toNat % 2 ^ m.bits p.1)
      (inputs : ∀ x ∈ m.inputs, ρ x = 0) : m.Plays [] ρ
  | put {es : List (Event String Nat)} {ρ ρ' : Store} {x : String} {v : Nat} (before : m.Plays es ρ)
      (input : x ∈ m.inputs) (settled : m.Settled ρ') (put : ρ' x = v % 2 ^ m.bits x)
      (inputs : ∀ y ∈ m.inputs, y ≠ x → ρ' y = ρ y)
      (regs : ∀ p ∈ m.resets, ρ' p.1 = ρ p.1) : m.Plays (.put x v :: es) ρ'
  | tick {es : List (Event String Nat)} {ρ ρ' : Store} (before : m.Plays es ρ)
      (settled : m.Settled ρ') (inputs : ∀ y ∈ m.inputs, ρ' y = ρ y)
      (regs : ∀ p ∈ m.resets, ρ' p.1 = m.edge ρ p.1) : m.Plays (.tick :: es) ρ'

/-! ### Words and numbers -/

theorem toNat_truncate_of_pos {v : UInt64} {width : Int} (h : 1 ≤ width) :
    (truncate v width).toNat = v.toNat % 2 ^ width.toNat := by
  by_cases hlt : width < 64
  · exact toNat_truncate (by omega) hlt
  · have hword : v.toNat < 2 ^ width.toNat :=
      Nat.lt_of_lt_of_le v.toNat_lt (Nat.pow_le_pow_right (by omega) (by omega))
    rw [Nat.mod_eq_of_lt hword, truncate, if_neg (by omega)]

theorem toNat_truncate_lt {v : UInt64} {width : Int} (h : 1 ≤ width) :
    (truncate v width).toNat < 2 ^ width.toNat := by
  rw [toNat_truncate_of_pos h]
  exact Nat.mod_lt _ (Nat.two_pow_pos _)

theorem toNat_truth (b : Bool) : (truth b).toNat = if b then 1 else 0 := by
  cases b <;> rfl

theorem toNat_shiftLeft (x y : UInt64) {width : Nat} (h : width ≤ 64) :
    (shiftLeft x y).toNat % 2 ^ width = x.toNat * 2 ^ y.toNat % 2 ^ width := by
  have hdvd : ∀ k, width ≤ k → (2 : Nat) ^ width ∣ 2 ^ k := fun k hk => Nat.pow_dvd_pow 2 hk
  unfold shiftLeft
  split
  · rename_i hy
    have hy' : y.toNat < 64 := hy
    rw [UInt64.toNat_shiftLeft, Nat.mod_eq_of_lt hy', Nat.shiftLeft_eq,
      Nat.mod_mod_of_dvd _ (hdvd 64 h)]
  · rename_i hy
    have hy' : 64 ≤ y.toNat := Nat.not_lt.mp hy
    rw [Nat.mod_eq_zero_of_dvd (Nat.dvd_mul_left_of_dvd (hdvd y.toNat (by omega)) _)]
    simp

theorem toNat_shiftRight (x y : UInt64) : (shiftRight x y).toNat = x.toNat / 2 ^ y.toNat := by
  unfold shiftRight
  split
  · rename_i hy
    have hy' : y.toNat < 64 := hy
    rw [UInt64.toNat_shiftRight, Nat.mod_eq_of_lt hy', Nat.shiftRight_eq_div_pow]
  · rename_i hy
    have hy' : 64 ≤ y.toNat := Nat.not_lt.mp hy
    have hlt : x.toNat < 2 ^ y.toNat :=
      Nat.lt_of_lt_of_le x.toNat_lt (Nat.pow_le_pow_right (by omega) hy')
    rw [Nat.div_eq_of_lt hlt]
    rfl

/-- **Operators agree**: what an operator makes of two words, cut to a width, is what it makes of
the numbers in that width. -/
theorem combine_eq {op : Op} (hop : ∀ code, op ≠ .unknown code) {x y : UInt64} {width : Int}
    (hwidth : 1 ≤ width ∧ width ≤ 64) (hx : op.isComparison = false → x.toNat < 2 ^ width.toNat)
    (hy : op.isComparison = false → isShift op = false → y.toNat < 2 ^ width.toNat) :
    combine width.toNat op x.toNat y.toNat = (truncate (applyOp op x y) width).toNat := by
  have hle : width.toNat ≤ 64 := by omega
  have hdvd : (2 : Nat) ^ width.toNat ∣ 2 ^ 64 := Nat.pow_dvd_pow 2 hle
  have hone : 1 < 2 ^ width.toNat := Nat.one_lt_two_pow (by omega)
  rw [toNat_truncate_of_pos hwidth.1]
  cases op with
  | add => simp only [combine, applyOp, UInt64.toNat_add, Nat.mod_mod_of_dvd _ hdvd]
  | sub =>
    have hlt := hy rfl rfl
    obtain ⟨k, hk⟩ := hdvd
    have hsplit : 2 ^ 64 - y.toNat + x.toNat =
        2 ^ width.toNat * (k - 1) + (x.toNat + (2 ^ width.toNat - y.toNat)) := by
      have hpos : 0 < k := Nat.pos_of_ne_zero fun h0 => by simp [h0] at hk
      rw [hk, Nat.mul_sub_one]
      have := Nat.le_mul_of_pos_right (2 ^ width.toNat) hpos
      omega
    simp only [combine, applyOp, UInt64.toNat_sub, Nat.mod_mod_of_dvd _ ⟨k, hk⟩, hsplit,
      Nat.mul_add_mod, Nat.mod_eq_of_lt hlt]
  | mul => simp only [combine, applyOp, UInt64.toNat_mul, Nat.mod_mod_of_dvd _ hdvd]
  | shl => simp only [combine, applyOp, toNat_shiftLeft _ _ hle]
  | shr =>
    simp only [combine, applyOp, toNat_shiftRight]
    rw [Nat.mod_eq_of_lt (Nat.lt_of_le_of_lt (Nat.div_le_self _ _) (hx rfl))]
  | or =>
    simp only [combine, applyOp, UInt64.toNat_or]
    rw [Nat.mod_eq_of_lt (Nat.or_lt_two_pow (hx rfl) (hy rfl rfl))]
  | xor =>
    simp only [combine, applyOp, UInt64.toNat_xor]
    rw [Nat.mod_eq_of_lt (Nat.xor_lt_two_pow (hx rfl) (hy rfl rfl))]
  | and =>
    simp only [combine, applyOp, UInt64.toNat_and]
    rw [Nat.mod_eq_of_lt (Nat.and_lt_two_pow _ (hy rfl rfl))]
  | eq | ne | lt | le | gt | ge =>
    simp only [combine, applyOp, toNat_truth, decide_eq_true_eq, UInt64.lt_iff_toNat_lt,
      UInt64.le_iff_toNat_le, ← UInt64.toNat_inj, ne_eq]
    split <;> simp [Nat.mod_eq_of_lt hone]
  | unknown code => exact absurd rfl (hop code)

/-! ### Widths of operands -/

theorem wrap_eq_self {k : Int} (h₀ : 0 ≤ k) (h : k < 9223372036854775808) : wrap k = k := by
  rw [wrap, Int.bmod_def]
  split <;> omega

/-- A sum of widths that comes out as a width has not wrapped around. -/
theorem eq_of_wrap_fits {k : Int} (h₀ : 0 ≤ k) (h : k < 18446744073709551616)
    (hfits : 1 ≤ wrap k ∧ wrap k ≤ 64) : wrap k = k := by
  rw [wrap, Int.bmod_def] at hfits ⊢
  split at hfits <;> omega

/-- The result of an operator is at least as wide as its operands, apart from the amount of a
shift. -/
theorem operands_le {op : Op} (hop : ∀ code, op ≠ .unknown code)
    (hcompare : op.isComparison = false) {right : Value} {l r : Int} (hl : 1 ≤ l ∧ l ≤ 64)
    (hr : 1 ≤ r ∧ r ≤ 64) (hfits : 1 ≤ opWidth op l right r ∧ opWidth op l right r ≤ 64) :
    l ≤ opWidth op l right r ∧ (isShift op = false → r ≤ opWidth op l right r) := by
  cases op with
  | add | sub | mul =>
    simp only [opWidth] at hfits ⊢
    rw [wrap_eq_self (by omega) (by omega)]
    exact ⟨by omega, fun _ => by omega⟩
  | shl =>
    refine ⟨?_, by simp [isShift]⟩
    have hpow : ((2 ^ (min r maxShiftBits).toNat : Nat) : Int) ≤ 64 := by
      have hbound : (min r maxShiftBits).toNat ≤ 6 := by
        unfold maxShiftBits
        omega
      have := Nat.pow_le_pow_right (n := 2) (by omega) hbound
      omega
    have hpos : 0 < 2 ^ (min r maxShiftBits).toNat := Nat.two_pow_pos _
    have hgrowth : l ≤ wrap (l + Nat.pow 2 (min r maxShiftBits).toNat - 1) := by
      rw [Nat.pow_eq, wrap_eq_self (by omega) (by omega)]
      omega
    simp only [opWidth, shlWidth] at hfits ⊢
    split
    · rename_i tag c
      split
      · rename_i hc
        simp only [hc, if_true] at hfits
        have hlow : 0 ≤ c.value.toInt := by simpa [Int64.le_iff_toInt_le] using hc
        have hhigh := c.value.toInt_lt
        rw [eq_of_wrap_fits (by omega) (by omega) hfits]
        omega
      · exact hgrowth
    · exact hgrowth
  | shr => exact ⟨Int.le_refl _, by simp [isShift]⟩
  | or | xor | and =>
    simp only [opWidth]
    exact ⟨by omega, fun _ => by omega⟩
  | eq | ne | lt | le | gt | ge => cases hcompare
  | unknown code => exact absurd rfl (hop code)

/-! ### Ranges of bits -/

section Slices

variable {lo hi width : Int}

theorem toNat_slice (x : UInt64) (hlo : 0 ≤ lo) (hlt : lo < hi) (hhi : hi ≤ 64) :
    (truncate (dropBits x lo) (wrap (hi - lo))).toNat =
      x.toNat / 2 ^ lo.toNat % 2 ^ (hi - lo).toNat := by
  have hdrop : (dropBits x lo).toNat = x.toNat / 2 ^ lo.toNat := by
    have hamount : lo.toNat < 64 := by omega
    rw [dropBits, if_pos ⟨hlo, by omega⟩, UInt64.toNat_shiftRight, Nat.shiftRight_eq_div_pow,
      UInt64.toNat_ofNat', Nat.mod_eq_of_lt (show lo.toNat < 2 ^ 64 by omega),
      Nat.mod_eq_of_lt hamount]
  rw [wrap_eq_self (by omega) (by omega), toNat_truncate_of_pos (by omega), hdrop]

theorem select_spec {bits : String → Nat} {ρ : Store} {x : String} (hlo : 0 ≤ lo) (hlt : lo < hi)
    (hhi : hi ≤ width) (hwidth : width ≤ 64) (hbits : bits x = width.toNat)
    (hx : ρ x < 2 ^ width.toNat) :
    (select x width lo hi).size bits = (hi - lo).toNat ∧
      ∀ context, (select x width lo hi).value bits ρ context =
        ρ x / 2 ^ lo.toNat % 2 ^ (hi - lo).toNat := by
  unfold select
  split
  · obtain rfl : lo = 0 := by omega
    obtain rfl : hi = 1 := by omega
    rename_i hone
    subst hone
    exact ⟨hbits, fun _ => by simpa [Expr.value] using (Nat.mod_eq_of_lt hx).symm⟩
  · rw [wrap_eq_self (by omega) (by omega), wrap_eq_self (by omega) (by omega)]
    split
    · rename_i hone
      rw [hone]
      exact ⟨rfl, fun _ => rfl⟩
    · rw [Expr.size, show hi - 1 - lo + 1 = hi - lo by omega]
      refine ⟨rfl, fun _ => ?_⟩
      rw [Expr.value, show hi - 1 - lo + 1 = hi - lo by omega]

end Slices

end Sequencer.Verilog
