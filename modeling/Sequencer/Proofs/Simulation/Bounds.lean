import Sequencer.Proofs.Simulation.Ranks

/-!
# Values stay in range

Whatever is done to a simulator, also by calls that fail, every signal holds a word that fits its
width. A call that succeeds leaves the combinational logic at a fixed point.
-/

namespace Sequencer

open Circuit Simulation

/-! ### Words below a power of two -/

theorem Circuit.toNat_truncate_lt (v : UInt64) {width : Int} (h : 0 ≤ width) :
    (truncate v width).toNat < 2 ^ width.toNat := by
  by_cases hw : width < 64
  · rw [toNat_truncate h hw]
    exact Nat.mod_lt _ (Nat.two_pow_pos _)
  · exact Nat.lt_of_lt_of_le (truncate v width).toNat_lt
      (Nat.pow_le_pow_right (by decide) (by omega))

/-- Every part is there, has a known operator and a width of at least one, and every slice lies
inside its operand. -/
def Circuit.Value.WellFormed : Value → Prop
  | .hole => False
  | .signal s => 1 ≤ s.bits
  | .const _ l => 1 ≤ l.bits
  | .binary tag op l r =>
    l.WellFormed ∧ r.WellFormed ∧ (∀ n, op ≠ .unknown n) ∧ 1 ≤ (Value.binary tag op l r).width
  | .slice tag x lo hi =>
    x.WellFormed ∧ 0 ≤ lo ∧ lo < hi ∧ hi ≤ x.width ∧ 1 ≤ (Value.slice tag x lo hi).width

namespace Circuit.Value.WellFormed

variable {v : Value}

theorem one_le_width (h : v.WellFormed) : 1 ≤ v.width := by
  cases v with
  | hole => exact h.elim
  | signal _ | const _ _ => exact h
  | binary _ _ _ _ => exact h.2.2.2
  | slice _ _ _ _ => exact h.2.2.2.2

theorem fault?_eq_none (h : v.WellFormed) : fault? v = none := by
  induction v with
  | hole => exact h.elim
  | signal _ | const _ _ => rfl
  | slice _ _ _ _ ih => exact ih h.1
  | binary tag op l r ihl ihr =>
    have hr : 0 ≤ r.width := by have := h.2.1.one_le_width; omega
    refine (fault?_binary h.2.2.1).mpr ⟨⟨ihl h.1, ihr h.2.1⟩, ?_⟩
    cases op <;> simp [shiftFits, hr]

end Circuit.Value.WellFormed

namespace Simulation

/-! ### The invariant -/

/-- Every signal holds a word that its width does not cut. -/
def Valuation.Fits (σ : Valuation) : Prop := ∀ x : Signal, truncate (σ.get x) x.bits = σ.get x

namespace Valuation.Fits

variable {σ : Valuation}

theorem toNat_get_lt (h : σ.Fits) {x : Signal} (hx : 0 ≤ x.bits) :
    (σ.get x).toNat < 2 ^ x.bits.toNat :=
  h x ▸ toNat_truncate_lt _ hx

theorem override (h : σ.Fits) {ws : List Write} (hws : ∀ w ∈ ws, truncate w.2 w.1.bits = w.2) :
    (σ.override ws).Fits := by
  induction ws generalizing σ with
  | nil => exact h
  | cons w ws ih =>
    refine ih (fun x => ?_) fun u hu => hws u (List.mem_cons_of_mem _ hu)
    rw [get_set]
    split
    · rename_i hx
      exact hx ▸ hws w List.mem_cons_self
    · exact h x

theorem resets (h : σ.Fits) (xs : List Signal) : (σ.override (Simulator.resets xs)).Fits := by
  refine h.override fun w hw => ?_
  obtain ⟨x, -, rfl⟩ := List.mem_map.mp hw
  exact truncate_truncate _ _

/-- A value is cut to its width at its last operator, so only a signal needs the invariant. -/
theorem toNat_denote_lt (h : σ.Fits) {v : Value} (hv : v.WellFormed) :
    (denote σ v).toNat < 2 ^ v.width.toNat := by
  have hwidth : 0 ≤ v.width := by have := hv.one_le_width; omega
  cases v with
  | hole => exact hv.elim
  | signal x => exact h.toNat_get_lt hwidth
  | const _ _ | binary _ _ _ _ | slice _ _ _ _ => exact toNat_truncate_lt _ hwidth

end Valuation.Fits

namespace Simulator

variable {f : Fragment} {s s' : Simulator}

theorem fits_settleWithin (n : Nat) (h : s.values.Fits) : (settleWithin n s).2.values.Fits := by
  induction n generalizing s with
  | zero => exact h
  | succ n ih =>
    rw [settleWithin_succ]
    split
    · exact h
    · rename_i ws hws
      split
      · obtain ⟨us, hus, hws⟩ := bind_eq_ok.mp hws
        cases hws
        apply ih
        rw [Valuation.override_append]
        exact (h.resets _).override fun w hw => (exec_caused _ hus w hw).2
      · exact h

theorem fits_reset (h : s.values.Fits) : (reset s).2.values.Fits :=
  fits_settleWithin _ (h.resets _)

theorem fits_set (h : s.values.Fits) (x : Signal) (v : UInt64) : (set x v s).2.values.Fits := by
  rw [set]
  split
  · exact h
  · have hput : (s.values.override [(x, truncate v x.bits)]).Fits := h.override (by simp)
    exact fits_settleWithin _ hput

theorem fits_step (h : s.values.Fits) : (step s).2.values.Fits := by
  rw [step]
  split
  · exact h
  · rename_i ws hws
    have hedge := fits_settleWithin (s := { s with
      values := s.values.override ws, cycle := s.cycle + 1 }) maxPasses
      (h.override fun w hw => (exec_caused _ hws w hw).2)
    split
    all_goals
      rename_i hsettle
      rwa [← settle, hsettle] at hedge

/-- **Signals stay in range**, whatever calls are made and whether they succeed. -/
theorem Used.fits (h : Used f s) : s.values.Fits := by
  induction h with
  | new start =>
    have hreset := fits_reset (s := blank f) fun _ => truncate_zero _
    rwa [(new_eq_ok start).2] at hreset
  | set before x v ih => exact fits_set ih x v
  | step before ih => exact fits_step ih
  | reset before ih => exact fits_reset ih

/-! ### Calls that succeed -/

/-- Another pass over the combinational logic leaves every signal as it is, and settling again
succeeds and does nothing. -/
structure Settled (f : Fragment) (s : Simulator) : Prop where
  fixed : ∃ ws, exec s.values f.comb = .ok ws ∧
    ∀ x, (s.values.override (resets (targets f.comb) ++ ws)).get x = s.get x
  again : settle s = (.ok (), s)

theorem AtRest.settled (h : s.AtRest) (hs : Shows f s s.values) : Settled f s := by
  refine ⟨?_, settle_of_atRest h⟩
  obtain ⟨ws, hws, hchange⟩ := h
  obtain ⟨us, hus, rfl⟩ := combWrites_eq_ok hs hws
  exact ⟨us, hus, Valuation.changes_eq_false_iff.mp hchange⟩

theorem settled_reset (h : Shows f s s.values) (hr : reset s = (.ok (), s')) : Settled f s' := by
  obtain ⟨hlater, hrest⟩ := reset_spec h hr
  exact (hrest rfl).settled (h.later hlater)

/-- What holds of a simulator and of each call that can be made next. -/
structure Orderly (f : Fragment) (s : Simulator) : Prop where
  stored : ∀ x : Signal, 0 ≤ x.bits → x.bits < 64 → (s.get x).toNat < 2 ^ x.bits.toNat
  evaluated : ∀ v : Value, v.WellFormed →
    ∃ w, eval s.values v = .ok w ∧ w.toNat < 2 ^ v.width.toNat
  set_sync : ∀ x v, ∀ y ∈ targets f.sync, (set x v s).2.get y = s.get y
  set_input : ∀ x v, ∀ y ∉ targets f.comb, y ≠ x → (set x v s).2.get y = s.get y
  edge_input : ∀ y ∉ targets f.comb, y ∉ targets f.sync →
    (step s).2.get y = s.get y ∧ (reset s).2.get y = s.get y
  set_settled : ∀ x v s', set x v s = (.ok (), s') → Settled f s'
  step_settled : ∀ changed s', step s = (.ok changed, s') → Settled f s'
  reset_settled : ∀ s', reset s = (.ok (), s') → Settled f s'

/-- A register keeps its value when an input is driven: a call that names it is refused. -/
theorem get_set_of_sync (h : Shows f s s.values) (hd : ∀ x ∈ targets f.sync, x ∉ targets f.comb)
    (x : Signal) (v : UInt64) {y : Signal} (hy : y ∈ targets f.sync) :
    (set x v s).2.get y = s.get y := by
  by_cases hxy : y = x
  · rw [set, if_pos (.inr (h.syncDriven ▸ hxy ▸ hy))]
  · exact (set_spec h rfl).values y (by simp [hxy, hd y hy])

/-- **In range and settled**: after any calls every value fits its width, a call changes only what
it may, and one that succeeds leaves the logic at rest. -/
theorem used_in_range_and_settled (f : Fragment) :
    (∀ s, new f = .ok s → Settled f s) ∧ ∀ s, Used f s → Orderly f s := by
  refine ⟨fun s hs => settled_reset (blank_shows f) (new_eq_ok hs).2, fun s hs => ?_⟩
  have hshows := hs.shows
  exact
    { stored := fun x hx _ => hs.fits.toNat_get_lt hx
      evaluated := fun v hv =>
        ⟨denote s.values v, by rw [eval, hv.fault?_eq_none], hs.fits.toNat_denote_lt hv⟩
      set_sync := fun x v y hy => get_set_of_sync hshows hs.domains x v hy
      set_input := fun x v y hy hx => (set_spec hshows rfl).values y (by simp [hx, hy])
      edge_input := fun y hc hy => ⟨(step_spec hshows rfl).values y (by simp [hc, hy]),
        (reset_spec hshows rfl).1.values y (by simp [hc, hy])⟩
      set_settled := fun x v s' hr =>
        (set_eq_ok hshows hr).2.2.2.settled (hshows.later (set_spec hshows hr))
      step_settled := fun changed s' hr => by
        obtain ⟨_, -, -, hrest, -⟩ := step_eq_ok hshows hr
        exact hrest.settled (hshows.later (step_spec hshows hr))
      reset_settled := fun s' hr => settled_reset hshows hr }

/-- A fresh simulator, and one after a clock edge. -/
theorem tally_in_range_and_settled :
    ∃ s, new tally = .ok s ∧ Settled tally s ∧ Orderly tally (step s).2 :=
  ⟨_, rfl, (used_in_range_and_settled tally).1 _ rfl,
    (used_in_range_and_settled tally).2 _ (.step (.new rfl))⟩

end Simulator

end Simulation

end Sequencer
