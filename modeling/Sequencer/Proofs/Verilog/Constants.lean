import Sequencer.Proofs.Circuit.Exactness
import Sequencer.Proofs.Verilog.Reading

/-!
# Constants in registers

A constant is as wide as its value needs. What arrives in a register is the 64-bit word of the
constant, cut to the width of the register. This is its two's complement value, except for a
negative constant in a register of more than 64 bits: its word ends there, and zeros follow.
-/

namespace Sequencer.Circuit

open Simulation Verilog Value Names

/-- The word of a number, cut to some bits, is its two's complement value in these bits, but for a
negative number in more than 64 bits. -/
theorem toUInt64_mod_eq_iff (v : Int64) (w : Nat) :
    v.toUInt64.toNat % 2 ^ w = (v.toInt % (2 ^ w : Nat)).toNat ↔ 0 ≤ v ∨ w ≤ 64 := by
  have hpos : (0 : Int) < (2 ^ w : Nat) := Int.natCast_pos.mpr (Nat.two_pow_pos w)
  have hsign : 0 ≤ v ↔ 0 ≤ v.toInt := by simp [Int64.le_iff_toInt_le]
  have hlow := v.le_toInt
  have hhigh := v.toInt_lt
  rw [hsign, ← Int.natCast_inj, Int.toNat_of_nonneg (Int.emod_nonneg _ hpos.ne'), Int.natCast_emod,
    natCast_toUInt64]
  by_cases hw : w ≤ 64
  · have hdvd : ((2 ^ w : Nat) : Int) ∣ (2 ^ 64 : Nat) :=
      Int.natCast_dvd_natCast.mpr (Nat.pow_dvd_pow 2 hw)
    exact iff_of_true (Int.emod_emod_of_dvd _ hdvd) (.inr hw)
  · by_cases hv : 0 ≤ v.toInt
    · refine iff_of_true ?_ (.inl hv)
      rw [@Int.emod_eq_of_lt v.toInt (2 ^ 64 : Nat) hv (by omega)]
    · -- The word is short of the value by the difference of the two powers.
      have hpow : ((2 ^ 64 : Nat) : Int) < (2 ^ w : Nat) :=
        Int.ofNat_lt.mpr (Nat.pow_lt_pow_right (by decide) (by omega))
      have hword : v.toInt % (2 ^ 64 : Nat) = v.toInt + (2 ^ 64 : Nat) := by omega
      have hvalue : v.toInt % (2 ^ w : Nat) = v.toInt + (2 ^ w : Nat) := by
        rw [← Int.add_emod_right, Int.emod_eq_of_lt (by omega) (by omega)]
      rw [hword, hvalue, Int.emod_eq_of_lt (by omega) (by omega)]
      omega

theorem exists_ofNat {v : Int64} (h : ¬ v < 0) :
    ∃ n : Nat, n < 2 ^ 63 ∧ v = .ofNat n ∧ v.toUInt64.toNat = n := by
  have hpos : 0 ≤ v.toInt := by simpa [Int64.lt_iff_toInt_lt] using h
  have hhigh := v.toInt_lt
  refine ⟨v.toInt.toNat, by omega, ?_, ?_⟩
  · rw [← Int64.toInt_inj, Int64.toInt_ofNat_of_lt (by omega), Int.toNat_of_nonneg hpos]
  · rw [← Int.natCast_inj, natCast_toUInt64, Int.toNat_of_nonneg hpos]
    exact Int.emod_eq_of_lt hpos (by omega)

/-- **What arrives of a constant** that is as wide as its value needs and, if it is negative, at
least as wide as its target. -/
theorem extend_newConst (v : Int64) {width : Int} (hwidth : 1 ≤ width) (supply : Nat) : ∃ tag l,
    ((newConst (.fit v) >>= fun c => c.extend width) supply).1 = .const tag l ∧
      l.value = v ∧ 1 ≤ l.bits ∧
        l.word.toNat % 2 ^ width.toNat = v.toUInt64.toNat % 2 ^ width.toNat := by
  have hone := one_le_bitsFor v
  have hextend : (newConst (.fit v) >>= fun c => c.extend width) supply =
      extend (.const supply ⟨v, bitsFor v⟩) width (supply + 1) := rfl
  have hcut : ∀ l : Literal, l.value = v → width ≤ l.bits →
      l.word.toNat % 2 ^ width.toNat = v.toUInt64.toNat % 2 ^ width.toNat := by
    rintro l rfl hl
    rw [Literal.word, toNat_truncate_of_pos (by omega),
      Nat.mod_mod_of_dvd _ (Nat.pow_dvd_pow 2 (by omega))]
  by_cases hshort : v < 0 ∧ bitsFor v < width
  · rw [hextend, extend, if_pos (by simpa using hshort)]
    exact ⟨_, _, rfl, rfl, Int.le_max_right _ _, hcut _ rfl (Int.le_max_left _ _)⟩
  · rw [hextend, extend, if_neg (by simpa using hshort)]
    refine ⟨_, _, rfl, rfl, hone, ?_⟩
    obtain hpos | hlong := not_and_or.mp hshort
    · -- The number has no more bits than the literal.
      obtain ⟨n, hn, rfl, hword⟩ := exists_ofNat hpos
      have hfit := lt_two_pow_bitsFor (Nat.le_refl n) hn
      rw [Literal.word, toNat_truncate_of_pos hone, hword, Nat.mod_eq_of_lt hfit]
    · exact hcut _ rfl (Int.not_lt.mp hlong)

end Sequencer.Circuit

namespace Sequencer.Verilog

open Circuit Simulation

/-- **Constants in registers.** Storing a constant in a register of `s.bits` bits leaves the word of
the constant, cut to these bits: in a simulator, and in every module with this assignment. Up to 64
bits this is its two's complement value. Beyond, it is so only if the constant is not negative. -/
theorem constant_stored (v : Int64) {s : Signal} (hs : 1 ≤ s.bits) (supply : Nat) :
    let c := ((Value.newConst (.fit v) >>= fun c => c.extend s.bits) supply).1
    (∀ σ, ∃ u, execStmt σ (.assign s c) = .ok [(s, u)] ∧
        u.toNat = v.toUInt64.toNat % 2 ^ s.bits.toNat) ∧
      (∀ {name digest ports f m}, ofFragment name digest ports f = .ok m →
        .assign s c ∈ walk f.comb ++ walk f.sync →
          ∃ st, stmtOf (Names.ofFragment ports f) (.assign s c) = .ok [st] ∧
            ∀ look ρ, st.run m.bits look ρ ((Names.ofFragment ports f).signalName s) =
              v.toUInt64.toNat % 2 ^ s.bits.toNat) ∧
      (v.toUInt64.toNat % 2 ^ s.bits.toNat = (v.toInt % (2 ^ s.bits.toNat : Nat)).toNat ↔
        0 ≤ v ∨ s.bits ≤ 64) := by
  obtain ⟨tag, l, hc, rfl, hone, hword⟩ := extend_newConst v hs supply
  rw [hc]
  refine ⟨fun σ => ⟨truncate l.word s.bits, rfl, ?_⟩, ?_, ?_⟩
  · rw [toNat_truncate_of_pos hs, hword]
  · intro name digest ports f m hm hmem
    obtain ⟨-, -, -, -, hm⟩ := ofFragment_eq_ok.mp hm
    have hbits := (written_of_moduleOf hm).measures (distinct_ofFragment ports f)
    have hmentions : s ∈ mentioned f.comb ++ mentioned f.sync := by
      rw [mentioned, mentioned, ← List.flatMap_append]
      exact List.mem_flatMap.mpr ⟨_, hmem, List.mem_cons_self⟩
    have hsignal : s ∈ (Names.ofFragment ports f).signals :=
      mem_signals.mpr (.inr (List.mem_append.mp hmentions))
    refine ⟨_, rfl, fun look ρ => ?_⟩
    rw [Stmt.run, Function.update_self, Expr.assigned, Expr.value, hbits.signal hsignal hs,
      toNat_arm hone, hword]
  · rw [toUInt64_mod_eq_iff, Int.toNat_le]
    rfl

def storeMinusFive : Circuit.Stmt :=
  .assign ⟨1, "r", 8, 0⟩ ((Value.newConst (.fit (-5)) >>= fun c => c.extend 8) 2).1

/-- An eight-bit register takes `251` for `-5`. -/
theorem minusFive_stored : ∃ m st, ofFragment "fill" "" [] ⟨[], [storeMinusFive]⟩ = .ok m ∧
    stmtOf (Names.ofFragment [] ⟨[], [storeMinusFive]⟩) storeMinusFive = .ok [st] ∧
      (∀ look ρ, st.run m.bits look ρ "r" = 251) ∧ (-5 : Int64).toInt % (2 ^ 8 : Nat) = 251 := by
  obtain ⟨m, hm, -⟩ :
      ∃ m, ofFragment "fill" "" [] ⟨[], [storeMinusFive]⟩ = .ok m ∧ m.decls ≠ [] := by
    decide +kernel
  obtain ⟨-, hmodule, -⟩ := @constant_stored (-5) ⟨1, "r", 8, 0⟩ (by decide) 2
  obtain ⟨st, hst, hrun⟩ := hmodule hm List.mem_cons_self
  exact ⟨m, st, hm, hst, fun look ρ => hrun look ρ, by decide⟩

def fillText : List Char := "def fill():\n    r = Register(65)\n    r.store = k\n".toList

/-- **The sign of a constant ends at 64 bits**: once the register is selected it takes a number that
is not minus one. -/
theorem minusOne_cut : ∃ d m,
    (compile fillText ⟨[("k", -1)], [], []⟩ (.new firstTag)).1 = .ok d ∧
      ofFragment d.name "" d.ports d.fragment = .ok m ∧
        m.edge (fun x => if x = "regsel_r" then 1 else 0) "r" = 2 ^ 64 - 1 ∧
          (-1 : Int64).toInt % (2 ^ 65 : Nat) = 2 ^ 65 - 1 := by
  simp only [exists_and_left]
  decide +kernel

end Sequencer.Verilog
