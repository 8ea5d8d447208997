import Sequencer.Proofs.Simulation.Clocking

/-!
# Where a run stops

A run stops early at an **idle** cycle, in which no register changes and no transfer completes. If
the logic was at rest to begin with, the design is then at a fixed point, also with combinational
feedback. A bench without resources does not settle the logic, so this cannot be left out.
-/

namespace Sequencer.Simulation

open List
open Circuit Bench Simulator Rig

namespace Rig

section Idle

variable {f : Fragment} {r r' r₁ r₂ : Rig} {n m : Nat} {ts us : List Transfer}

theorem moved_eq_nil_iff :
    r.moved = [] ↔ ∀ c ∈ r.bench.channels, strobed r.sim.values c = false := by
  simp only [moved, transfers, transfersOf, append_eq_nil_iff, map_eq_nil_iff,
    filter_eq_nil_iff, Bool.not_eq_true, channels, forall_mem_append]

/-- **An idle cycle repeats itself.** -/
theorem Ready.idle_tick (h : r.Ready f) (hrest : r.sim.AtRest) (hidle : r.Idle) :
    ∃ r', r.tick = .ok r' ∧ r'.Idle ∧ Later [] r.sim r'.sim := by
  obtain ⟨hmoved, s, hstep⟩ := hidle
  obtain ⟨ws, hws, hchange, -, -⟩ := step_eq_ok h.shows hstep
  -- The edge writes what is there already.
  have hedge : Later [] r.sim s := by
    obtain ⟨s', hs', hlater⟩ := step_of_unchanged h.shows hrest hws hchange.symm
    rw [hstep] at hs'
    cases hs'
    exact hlater
  -- The queues stay as they are, and with them what the bench drives.
  have hfeeds : r.bench.feeds.map (Feed.pop r.sim.values) = r.bench.feeds := by
    refine (map_congr_left fun feed hfeed => ?_).trans (map_id _)
    have hquiet := moved_eq_nil_iff.mp hmoved feed.channel
      (mem_append_right _ (mem_map_of_mem hfeed))
    simp [Feed.pop, hquiet]
  obtain ⟨s', hdrive, hlater⟩ := setAll_of_accepts (h.shows.later hedge)
    (hrest.congr hedge) fun w hw => ⟨(h.driven w hw).comb, (h.driven w hw).sync,
      (hedge.values _ not_mem_nil).trans (h.driven w hw).value⟩
  have hsame : Later [] r.sim s' := hedge.trans hlater
  have hvalues : s'.values.Same r.sim.values := fun x => hsame.values x not_mem_nil
  refine ⟨⟨r.bench, s'⟩, ?_, ⟨?_, ?_⟩, hsame⟩
  · exact tick_eq_ok.mpr ⟨r.bench.feeds, false, s, h.advance_eq.trans (by rw [hfeeds]), hstep, rfl,
      hdrive⟩
  · refine moved_eq_nil_iff.mpr fun c hc => ?_
    rw [strobed, hvalues, hvalues]
    exact moved_eq_nil_iff.mp hmoved c hc
  · obtain ⟨s'', hs'', -⟩ := step_of_unchanged (h.shows.later hsame) (hrest.congr hsame)
      ((hvalues.exec_eq _).trans hws) ((hvalues.changes_eq ws).trans hchange.symm)
    exact ⟨s'', hs''⟩

theorem Ready.idle_clock (h : r.Ready f) (hrest : r.sim.AtRest) (hidle : r.Idle) (n : Nat) :
    ∃ r', r.clock n = .ok r' ∧ r'.moved = [] ∧ Later [] r.sim r'.sim := by
  induction n generalizing r with
  | zero => exact ⟨r, rfl, hidle.1, rfl, rfl, rfl, fun _ _ => rfl⟩
  | succ n ih =>
    obtain ⟨r₁, htick, hidle₁, hlater⟩ := h.idle_tick hrest hidle
    obtain ⟨r', hclock, hmoved, hlater'⟩ := ih (h.tick htick).1 (hrest.congr hlater) hidle₁
    exact ⟨r', bind_eq_ok.mpr ⟨r₁, htick, hclock⟩, hmoved, hlater.trans hlater'⟩

/-- Of two runs from the same start the longer one begins like the shorter one, and ends like it
when that one stopped early. -/
theorem runFor_isPrefix (hle : n ≤ m) (h₁ : runFor n r = (⟨ts, none⟩, r₁))
    (h₂ : runFor m r = (⟨us, none⟩, r₂)) :
    ts <+: us ∧ (r₁.sim.cycle < r.sim.cycle + n → us = ts ∧ r₂ = r₁) := by
  induction n generalizing m r ts us with
  | zero =>
    cases h₁
    refine ⟨?_, fun hlt => absurd hlt (Nat.lt_irrefl _)⟩
    exact nil_prefix
  | succ n ih =>
    obtain ⟨m, rfl⟩ : ∃ k, m = k + 1 := ⟨m - 1, by omega⟩
    obtain ⟨q, hq, hfirst⟩ := runFor_succ_ok h₁
    obtain ⟨q', hq', hfirst'⟩ := runFor_succ_ok h₂
    obtain rfl : q = q' := Except.ok.inj (hq.symm.trans hq')
    obtain ⟨hidle, rfl, rfl⟩ | ⟨hbusy, vs, rfl, hrest⟩ := hfirst
    · obtain ⟨-, rfl, rfl⟩ | ⟨hbusy, -⟩ := hfirst'
      · exact ⟨prefix_refl _, fun _ => ⟨rfl, rfl⟩⟩
      · exact absurd hidle hbusy
    · obtain ⟨hidle, -⟩ | ⟨-, vs', rfl, hrest'⟩ := hfirst'
      · exact absurd hidle hbusy
      · obtain ⟨hpre, hearly⟩ := ih (by omega) hrest hrest'
        refine ⟨(prefix_append_right_inj _).mpr hpre, fun hlt => ?_⟩
        obtain ⟨rfl, rfl⟩ := hearly (by rw [cycle_tick hq]; omega)
        exact ⟨rfl, rfl⟩

end Idle

end Rig

/-- **Stopping on an idle cycle is exact.** -/
theorem idle_run_exact (f : Fragment) (s : Simulator) (hs : s.Used f) (rs : List Resource)
    (hdistinct : ((rs.flatMap Resource.ports).map Port.signal).Nodup)
    (inputs : List (String × List UInt64)) (r₀ : Rig) (hr : new s rs inputs = .ok r₀) :
    (rs ≠ [] ∨ s.AtRest → ∀ past r limit ts r', r₀.Ran past r → r.run limit = (⟨ts, none⟩, r') →
      (r'.sim.cycle : Int) < limit → ∀ n, ∃ r'', r'.clock n = .ok r'' ∧ r''.moved = [] ∧
        r''.sim.values.Same r'.sim.values) ∧
    ∀ (r : Rig) l₁ l₂ ts₁ ts₂ r₁ r₂, l₁ ≤ l₂ → r.run l₁ = (⟨ts₁, none⟩, r₁) →
      r.run l₂ = (⟨ts₂, none⟩, r₂) →
        ts₁ <+: ts₂ ∧
          ((r₁.sim.cycle : Int) < l₁ → ts₂ = ts₁ ∧ r₂.sim.values.Same r₁.sim.values) := by
  obtain ⟨hready₀, -, hrest₀⟩ := ready_new hs.shows hdistinct hr
  refine ⟨fun hrest past r limit ts r' hran hrun hlt n => ?_,
    fun r l₁ l₂ ts₁ ts₂ r₁ r₂ hle h₁ h₂ => ?_⟩
  · obtain ⟨k₀, hk₀⟩ := hran.clocked
    obtain ⟨hready, hstill⟩ := hready₀.clocked hk₀
    obtain ⟨k, -, hclocked, hearly⟩ := clocked_of_runFor hrun
    have hcycle := hclocked.cycle_eq
    obtain ⟨j, q, rfl, hq, hidle, htick⟩ := hearly (by omega)
    obtain ⟨hreadyq, hstillq⟩ := hready.clocked hq
    have hrestq := hstillq (hstill (hrest₀ hrest))
    obtain ⟨q', hq', hidle', hlater⟩ := hreadyq.idle_tick hrestq hidle
    obtain rfl : q' = r' := Except.ok.inj (hq'.symm.trans htick)
    obtain ⟨r'', hclock, hmoved, hsame⟩ :=
      (hreadyq.tick htick).1.idle_clock (hrestq.congr hlater) hidle' n
    exact ⟨r'', hclock, hmoved, fun x => hsame.values x List.not_mem_nil⟩
  · obtain ⟨hpre, hearly⟩ := runFor_isPrefix (by omega) h₁ h₂
    refine ⟨hpre, fun hlt => ?_⟩
    obtain ⟨rfl, rfl⟩ := hearly (by omega)
    exact ⟨rfl, fun _ => rfl⟩

/-- Once both bytes have come, nothing happens any more. -/
theorem capture_idles : ∃ s r r', Used capture s ∧
    new s [.source captureSource] [("rx", [5, 263])] = .ok r ∧
      r.run 10 = (⟨[⟨0, "rx", .input, 5⟩, ⟨1, "rx", .input, 7⟩], none⟩, r') ∧ r'.sim.cycle = 3 ∧
        ∀ n, ∃ r'', r'.clock n = .ok r'' ∧ r''.moved = [] ∧ r''.sim.values.Same r'.sim.values := by
  obtain ⟨s, r, r', hs, hr, hrun, hcycle⟩ := capture_run
  obtain ⟨hfixed, -⟩ := idle_run_exact capture s (.new hs) [.source captureSource] (by decide)
    [("rx", [5, 263])] r hr
  exact ⟨s, r, _, .new hs, hr, hrun, hcycle,
    hfixed (.inl (by simp)) [] r 10 _ _ (.none r) hrun (by omega)⟩

def fillGoal : Signal := ⟨1, "goal", 8, 0⟩

def fillLevel : Signal := ⟨2, "level", 8, 0⟩

def fillFull : Signal := ⟨3, "full", 1, 0⟩

/-- A level that rises by one in every pass over the logic, to a goal that is too far for one
settling. -/
def fill : Fragment where
  comb := [.branch (.binary 0 .lt (.signal fillLevel) (.signal fillGoal))
    [.assign fillLevel (.binary 0 .add (.signal fillLevel) (.ofLiteral (.fit 1)))]
    (some [.assign fillLevel (.signal fillGoal)])]
  sync := [.assign fillGoal (.ofLiteral (.fit 20)),
    .assign fillFull (.binary 0 .eq (.signal fillLevel) (.ofLiteral (.fit 20)))]

/-- **A run can stop on an idle cycle with the logic still moving**: the first edge does not settle,
and the one after it finds nothing to change while the level arrives. -/
theorem fill_changes_after_idle : ∃ s r r' r'', Used fill s ∧ new s [] [] = .ok r ∧
    r.run 10 = (⟨[], none⟩, r') ∧ r'.sim.cycle = 2 ∧ r'.clock 1 = .ok r'' ∧
      r'.sim.get fillFull = 0 ∧ r''.sim.get fillFull = 1 := by
  obtain ⟨s, hs, r, hr, hfault, hts, hcycle, hbefore, r'', hclock, hafter⟩ :
      ∃ s, new fill = .ok s ∧ ∃ r, new (step s).2 [] [] = .ok r ∧ (r.run 10).1.fault = none ∧
        (r.run 10).1.transfers = [] ∧ (r.run 10).2.sim.cycle = 2 ∧
          (r.run 10).2.sim.get fillFull = 0 ∧
            ∃ r'', (r.run 10).2.clock 1 = .ok r'' ∧ r''.sim.get fillFull = 1 := by
    decide +kernel
  exact ⟨_, r, _, r'', .step (.new hs), hr, run_eq hfault hts, hcycle, hclock, hbefore, hafter⟩

end Sequencer.Simulation
