import Sequencer.Proofs.Simulation.Settling

/-!
# What is done to a simulator

Driving an input, taking a clock edge and going back to reset end with settling the logic, and each
can fail half-way. This module says once what an action leaves behind: the signals it may have
changed, the cycle, and that the logic is **at rest** after a success.
-/

namespace Sequencer.Simulation

open Circuit Simulator Simulation.Valuation

namespace Simulator

/-- A pass over the combinational logic changes nothing. -/
def AtRest (s : Simulator) : Prop := ∃ ws, s.combWrites = .ok ws ∧ s.values.changes ws = false

/-- The simulators of a fragment that can be had: what is made from it, and what a call leaves
behind, whether it succeeds or fails. -/
inductive Used (f : Fragment) : Simulator → Prop
  | new {s : Simulator} (start : new f = .ok s) : Used f s
  | set {s : Simulator} (before : Used f s) (x : Signal) (v : UInt64) : Used f (set x v s).2
  | step {s : Simulator} (before : Used f s) : Used f (step s).2
  | reset {s : Simulator} (before : Used f s) : Used f (reset s).2

theorem after_eq_ok {α : Type} {x : Action α} {s s' : Simulator} :
    after x s = .ok s' ↔ ∃ a, x s = (.ok a, s') := by
  rw [after]
  constructor
  · intro h
    split at h
    · cases h
      exact ⟨_, ‹_›⟩
    · cases h
  · rintro ⟨a, hx⟩
    rw [hx]

/-- A later moment of the simulator `s`, in which only the signals in `xs` may be different. -/
structure Later (xs : List Signal) (s s' : Simulator) : Prop where
  fragment : s'.fragment = s.fragment
  combDriven : s'.combDriven = s.combDriven
  syncDriven : s'.syncDriven = s.syncDriven
  values : ∀ x, x ∉ xs → s'.get x = s.get x

section Moments

variable {xs ys : List Signal} {f : Fragment} {s s' s'' : Simulator}

theorem Later.trans (h : Later xs s s') (h' : Later ys s' s'') : Later (xs ++ ys) s s'' where
  fragment := h'.fragment.trans h.fragment
  combDriven := h'.combDriven.trans h.combDriven
  syncDriven := h'.syncDriven.trans h.syncDriven
  values := by
    intro x hx
    rw [List.mem_append, not_or] at hx
    exact (h'.values x hx.2).trans (h.values x hx.1)

theorem Later.mono (h : Later xs s s') (hsub : xs ⊆ ys) : Later ys s s' :=
  { h with values := fun x hx => h.values x fun hxs => hx (hsub hxs) }

theorem Shows.later (h : Shows f s s.values) (hl : Later xs s s') : Shows f s' s'.values :=
  ⟨hl.fragment.trans h.fragment, hl.combDriven.trans h.combDriven,
    hl.syncDriven.trans h.syncDriven, fun _ => rfl⟩

variable {ws : List Write}

theorem later_override (h : ∀ w ∈ ws, w.1 ∈ xs) (n : Nat) :
    Later xs s { s with values := s.values.override ws, cycle := n } :=
  ⟨rfl, rfl, rfl, fun _ hx => get_override_of_notMem fun w hw hwx => hx (hwx ▸ h w hw)⟩

theorem later_of_unchanged (h : s.values.changes ws = false) (n : Nat) :
    Later [] s { s with values := s.values.override ws, cycle := n } :=
  ⟨rfl, rfl, rfl, fun x _ => changes_eq_false_iff.mp h x⟩

end Moments

/-! ### Settling -/

section Settling

variable {f : Fragment} {s s' : Simulator}

theorem combWrites_eq_ok (h : Shows f s s.values) (hws : s.combWrites = .ok ws) :
    ∃ us, exec s.values f.comb = .ok us ∧ ws = resets (targets f.comb) ++ us := by
  rw [combWrites_eq h] at hws
  cases hexec : exec s.values f.comb with
  | error e =>
    rw [hexec] at hws
    cases hws
  | ok us =>
    rw [hexec] at hws
    cases hws
    exact ⟨us, rfl, rfl⟩

theorem later_pass (h : Shows f s s.values) (hws : s.combWrites = .ok ws) :
    Later (targets f.comb) s { s with values := s.values.override ws } := by
  obtain ⟨us, hus, rfl⟩ := combWrites_eq_ok h hws
  exact later_override (mem_targets_of_combWrites hus) s.cycle

theorem settleWithin_succ (n : Nat) (s : Simulator) : settleWithin (n + 1) s =
    match s.combWrites with
    | .error e => (.error e, s)
    | .ok ws =>
      if s.values.changes ws then settleWithin n { s with values := s.values.override ws }
      else (.ok (), s) := rfl

theorem cycle_settleWithin (n : Nat) (s : Simulator) : (settleWithin n s).2.cycle = s.cycle := by
  induction n generalizing s with
  | zero => rfl
  | succ n ih =>
    rw [settleWithin_succ]
    split
    · rfl
    · split
      · rw [ih]
      · rfl

theorem cycle_settle (s : Simulator) : (settle s).2.cycle = s.cycle := cycle_settleWithin _ s

variable {r : Except Fault Unit}

theorem settleWithin_spec {n : Nat} (h : Shows f s s.values) (hr : settleWithin n s = (r, s')) :
    Later (targets f.comb) s s' ∧ (r = .ok () → s'.AtRest) := by
  induction n generalizing s with
  | zero =>
    cases hr
    exact ⟨⟨rfl, rfl, rfl, fun _ _ => rfl⟩, fun h => nomatch h⟩
  | succ n ih =>
    rw [settleWithin_succ] at hr
    split at hr
    · cases hr
      exact ⟨⟨rfl, rfl, rfl, fun _ _ => rfl⟩, fun h => nomatch h⟩
    · rename_i ws hws
      split at hr
      · have hpass := later_pass h hws
        obtain ⟨hlater, hrest⟩ := ih (h.later hpass) hr
        exact ⟨(hpass.trans hlater).mono (by simp), hrest⟩
      · rename_i hchange
        cases hr
        exact ⟨⟨rfl, rfl, rfl, fun _ _ => rfl⟩, fun _ => ⟨ws, hws, Bool.eq_false_iff.mpr hchange⟩⟩

theorem settle_spec (h : Shows f s s.values) (hr : settle s = (r, s')) :
    Later (targets f.comb) s s' ∧ (r = .ok () → s'.AtRest) := settleWithin_spec h hr

theorem settle_of_atRest (h : s.AtRest) : settle s = (.ok (), s) := by
  obtain ⟨ws, hws, hchange⟩ := h
  show settleWithin (15 + 1) s = _
  rw [settleWithin_succ, hws]
  simp [hchange]

/-- Whether a simulator is at rest depends on the values of its signals only. -/
theorem AtRest.congr (h : s.AtRest) (hl : Later [] s s') : s'.AtRest := by
  obtain ⟨ws, hws, hchange⟩ := h
  have hsame : s'.values.Same s.values := fun x => hl.values x List.not_mem_nil
  refine ⟨ws, ?_, (hsame.changes_eq ws).trans hchange⟩
  rw [combWrites, hl.fragment, hl.combDriven, hsame.exec_eq]
  exact hws

end Settling

/-! ### The actions -/

section Actions

variable {f : Fragment} {s s' : Simulator} {x : Signal} {v : UInt64}

theorem cycle_set (x : Signal) (v : UInt64) (s : Simulator) : (set x v s).2.cycle = s.cycle := by
  rw [set]
  split
  · rfl
  · exact cycle_settle _

theorem set_spec (h : Shows f s s.values) (hr : set x v s = (r, s')) :
    Later (x :: targets f.comb) s s' := by
  rw [set] at hr
  split at hr
  · cases hr
    exact ⟨rfl, rfl, rfl, fun _ _ => rfl⟩
  · have hput : Later [x] s { s with values := s.values.override [(x, truncate v x.bits)] } :=
      later_override (by simp) s.cycle
    exact hput.trans (settle_spec (h.later hput) hr).1

/-- What setting an input does. -/
theorem set_eq_ok (h : Shows f s s.values) (hs : set x v s = (.ok (), s')) :
    x ∉ targets f.comb ∧ x ∉ targets f.sync ∧ s'.get x = truncate v x.bits ∧ s'.AtRest := by
  rw [set] at hs
  split at hs
  · cases hs
  · rename_i hfree
    rw [h.combDriven, h.syncDriven, not_or] at hfree
    have hput : Later [x] s { s with values := s.values.override [(x, truncate v x.bits)] } :=
      later_override (by simp) s.cycle
    obtain ⟨hlater, hrest⟩ := settle_spec (h.later hput) hs
    refine ⟨hfree.1, hfree.2, ?_, hrest rfl⟩
    rw [hlater.values x hfree.1]
    simp [get]

/-- Setting an input to the value it has changes nothing. -/
theorem set_of_get_eq (h : Shows f s s.values) (hrest : s.AtRest) (hc : x ∉ targets f.comb)
    (hs : x ∉ targets f.sync) (hx : s.get x = truncate v x.bits) :
    ∃ s', set x v s = (.ok (), s') ∧ Later [] s s' := by
  have hput : Later [] s { s with values := s.values.override [(x, truncate v x.bits)] } :=
    later_of_unchanged (by simpa [changes, get] using hx.symm) s.cycle
  refine ⟨_, ?_, hput⟩
  rw [set, if_neg (by simp [h.combDriven, h.syncDriven, hc, hs])]
  exact settle_of_atRest (hrest.congr hput)

theorem later_edge (hws : exec s.values f.sync = .ok ws) :
    Later (targets f.sync) s { s with values := s.values.override ws, cycle := s.cycle + 1 } :=
  later_override (fun w hw => mem_targets.mpr (exec_caused _ hws w hw).1) _

theorem cycle_step {changed : Bool} (hs : step s = (.ok changed, s')) : s'.cycle = s.cycle + 1 := by
  rw [step] at hs
  split at hs
  · cases hs
  · split at hs
    · rename_i hsettle
      cases hs
      have hcycle := congrArg (fun p => p.2.cycle) hsettle
      exact hcycle.symm.trans (cycle_settle _)
    · cases hs

section

variable (h : Shows f s s.values)

include h

theorem step_spec {r : Except Fault Bool} (hr : step s = (r, s')) :
    Later (targets f.sync ++ targets f.comb) s s' := by
  rw [step] at hr
  split at hr
  · cases hr
    exact ⟨rfl, rfl, rfl, fun _ _ => rfl⟩
  · rename_i ws hws
    rw [h.fragment] at hws
    have hedge := later_edge hws
    split at hr
    all_goals
      rename_i hsettle
      cases hr
      exact hedge.trans (settle_spec (h.later hedge) hsettle).1

/-- What a clock edge does. -/
theorem step_eq_ok {changed : Bool} (hs : step s = (.ok changed, s')) :
    ∃ ws, exec s.values f.sync = .ok ws ∧ changed = s.values.changes ws ∧ s'.AtRest ∧
      Later (targets f.comb) { s with values := s.values.override ws } s' := by
  rw [step] at hs
  split at hs
  · cases hs
  · rename_i ws hws
    rw [h.fragment] at hws
    split at hs
    · rename_i hsettle
      cases hs
      obtain ⟨hlater, hrest⟩ := settle_spec (h.later (later_edge hws)) hsettle
      exact ⟨ws, hws, rfl, hrest rfl, hlater.fragment, hlater.combDriven, hlater.syncDriven,
        hlater.values⟩
    · cases hs

/-- A clock edge that has nothing to change changes nothing. -/
theorem step_of_unchanged (hrest : s.AtRest) (hws : exec s.values f.sync = .ok ws)
    (hchange : s.values.changes ws = false) : ∃ s', step s = (.ok false, s') ∧ Later [] s s' := by
  have hedge := later_of_unchanged hchange (s.cycle + 1)
  refine ⟨_, ?_, hedge⟩
  have hsync : exec s.values s.fragment.sync = .ok ws := h.fragment ▸ hws
  rw [step, hsync]
  simp only [settle_of_atRest (hrest.congr hedge), hchange]

theorem reset_spec (hr : reset s = (r, s')) :
    Later (targets f.sync ++ targets f.comb) s s' ∧ (r = .ok () → s'.AtRest) := by
  have hedge : Later (targets f.sync) s
      { s with values := s.values.override (resets s.syncDriven), cycle := 0 } :=
    later_override (by simp [resets, h.syncDriven]) 0
  obtain ⟨hlater, hrest⟩ := settle_spec (h.later hedge) hr
  exact ⟨hedge.trans hlater, hrest⟩

end

def blank (f : Fragment) : Simulator := ⟨f, targets f.comb, targets f.sync, .empty, 0⟩

theorem blank_shows (f : Fragment) : Shows f (blank f) (blank f).values :=
  ⟨rfl, rfl, rfl, fun _ => rfl⟩

theorem new_eq_ok (hs : new f = .ok s) :
    (∀ x ∈ targets f.sync, x ∉ targets f.comb) ∧ reset (blank f) = (.ok (), s) := by
  rw [new] at hs
  split at hs
  · cases hs
  · dsimp only at hs
    split at hs
    · cases hs
    · rename_i hdomains
      split at hs
      · rename_i hreset
        cases hs
        exact ⟨by simpa using hdomains, hreset⟩
      · cases hs

/-- A simulator that has been used is still one of its fragment. -/
theorem Used.shows (h : Used f s) : Shows f s s.values := by
  induction h with
  | new start => exact (blank_shows f).later (reset_spec (blank_shows f) (new_eq_ok start).2).1
  | set before x v ih => exact ih.later (set_spec ih rfl)
  | step before ih => exact ih.later (step_spec ih rfl)
  | reset before ih => exact ih.later (reset_spec ih rfl).1

theorem Used.domains (h : Used f s) : ∀ x ∈ targets f.sync, x ∉ targets f.comb := by
  induction h with
  | new start => exact (new_eq_ok start).1
  | set _ _ _ ih | step _ ih | reset _ ih => exact ih

theorem play_spec {es : List (Event Signal UInt64)} (h : play f es = .ok s) :
    Used f s ∧ s.AtRest := by
  induction es generalizing s with
  | nil => exact ⟨.new h, (reset_spec (blank_shows f) (new_eq_ok h).2).2 rfl⟩
  | cons e es ih =>
    cases e with
    | put x v =>
      obtain ⟨s₁, hs₁, hset⟩ := bind_eq_ok.mp h
      obtain ⟨_, hset⟩ := after_eq_ok.mp hset
      have hused := (ih hs₁).1
      obtain ⟨-, -, -, hrest⟩ := set_eq_ok hused.shows hset
      have hafter := hused.set x v
      rw [hset] at hafter
      exact ⟨hafter, hrest⟩
    | tick =>
      obtain ⟨s₁, hs₁, hstep⟩ := bind_eq_ok.mp h
      obtain ⟨_, hstep⟩ := after_eq_ok.mp hstep
      have hused := (ih hs₁).1
      obtain ⟨_, -, -, hrest, -⟩ := step_eq_ok hused.shows hstep
      have hafter := hused.step
      rw [hstep] at hafter
      exact ⟨hafter, hrest⟩

end Actions

/-! ### Actions that succeed -/

/-- The combinational logic of a fragment comes to rest, whatever the values are. -/
def Settles (f : Fragment) : Prop := ∀ s, Shows f s s.values → ∃ s', settle s = (.ok (), s')

namespace Settles

variable {f : Fragment} {s : Simulator}

section

variable (h : Settles f) (hs : Shows f s s.values)

include h hs

theorem set {x : Signal} (hc : x ∉ targets f.comb) (hx : x ∉ targets f.sync) (v : UInt64) :
    ∃ s', Simulator.set x v s = (.ok (), s') := by
  rw [Simulator.set, if_neg (by simp [hs.combDriven, hs.syncDriven, hc, hx])]
  exact h _ ⟨hs.fragment, hs.combDriven, hs.syncDriven, fun _ => rfl⟩

theorem step (hsync : ∃ ws, exec s.values f.sync = .ok ws) :
    ∃ changed s', Simulator.step s = (.ok changed, s') := by
  obtain ⟨ws, hws⟩ := hsync
  rw [← hs.fragment] at hws
  obtain ⟨s', hs'⟩ := h { s with values := s.values.override ws, cycle := s.cycle + 1 }
    ⟨hs.fragment, hs.combDriven, hs.syncDriven, fun _ => rfl⟩
  simp only [Simulator.step, hws, hs']
  exact ⟨_, s', rfl⟩

theorem reset : ∃ s', reset s = (.ok (), s') :=
  h _ ⟨hs.fragment, hs.combDriven, hs.syncDriven, fun _ => rfl⟩

end

theorem new (h : Settles f) (hmarker : f.firstMarker? = none)
    (hdomains : ∀ x ∈ targets f.sync, x ∉ targets f.comb) : ∃ s, Simulator.new f = .ok s := by
  have hfind : (targets f.sync).find? (· ∈ targets f.comb) = none := by simpa using hdomains
  obtain ⟨s, hs⟩ := h.reset (blank_shows f)
  rw [blank] at hs
  simp only [Simulator.new, hmarker, hfind, hs]
  exact ⟨s, rfl⟩

end Settles

end Simulator

end Sequencer.Simulation
