import Sequencer.Proofs.Simulation.Clocking
import Sequencer.Proofs.Verilog.Writing

/-!
# Simulations that cannot fail

Logic that does not read what it drives comes to rest, and where no part is missing and no left
shift has an amount of negative width, everything has a meaning. Then a run under a bench fails only
when it takes something from a source that has nothing.
-/

namespace Sequencer.Simulation

open List
open Circuit Verilog Simulator Bench

/-! ### Execution -/

/-- A statement that can be executed. -/
def Meaningful (s : Circuit.Stmt) : Prop := Present s ∧ ∀ v ∈ ownValues s, v.Measured

theorem Meaningful.ownFault?_eq {s : Circuit.Stmt} (h : Meaningful s) : ownFault? s = none := by
  have hvalue : ∀ v ∈ ownValues s, v.Regular → fault? v = none := fun v hv ⟨_, hbuilt⟩ =>
    (Value.fault?_eq_none_iff hbuilt (h.1.2 v hv)).mpr (h.2 v hv)
  cases s with
  | hole | marker => exact h.1.1.elim
  | assign t v => exact hvalue v (mem_singleton_self v) h.1.1.2
  | branch test yes no => exact hvalue test (mem_singleton_self test) h.1.1
  | select test arms other =>
    obtain ⟨x, rfl, -⟩ := h.1.1
    rfl

/-- A block in which everything has a meaning can be executed. -/
theorem exec_total (σ : Valuation) (ss : List Circuit.Stmt) (h : ∀ t ∈ walk ss, Meaningful t) :
    ∃ ws, exec σ ss = .ok ws := exec_ok σ fun t ht => (h t ht).ownFault?_eq

/-! ### Actions -/

/-- Logic that never fails: it comes to rest, and its statements can always be executed. -/
structure Lively (f : Fragment) : Prop where
  feedForward : FeedForward f
  comb : ∀ σ, ∃ ws, exec σ f.comb = .ok ws
  sync : ∀ σ, ∃ ws, exec σ f.sync = .ok ws

theorem lively_of_finished {ports : List Port} {f : Fragment}
    (h : Finished ports f) (hf : FeedForward f) (hmeasured : Measured f) : Lively f := by
  have hmeaning : ∀ t ∈ walk f.comb ++ walk f.sync, Meaningful t := fun t ht =>
    ⟨h.present t ht, hmeasured t ht⟩
  obtain ⟨hcomb, hsync⟩ := forall_mem_append.mp hmeaning
  exact ⟨hf, fun σ => exec_total σ f.comb hcomb, fun σ => exec_total σ f.sync hsync⟩

namespace Lively

variable {f : Fragment} {s : Simulator}

theorem settles (h : Lively f) : Settles f := by
  intro s hs
  obtain ⟨ws, hws⟩ := h.comb s.values
  have hsettled : settled f s.values =
      .ok (s.values.override (resets (targets f.comb) ++ ws)) := by
    rw [settled, hws]
    rfl
  obtain ⟨s', hs', -⟩ := (Shows.settle h.feedForward hs).ok_of_right hsettled
  obtain ⟨_, hok⟩ := after_eq_ok.mp hs'
  exact ⟨s', hok⟩

section

variable (h : Lively f) (hs : s.Shows f s.values)

include h hs

theorem set {x : Signal} (hx : ¬ Driven f x) (v : UInt64) : ∃ s', set x v s = (.ok (), s') :=
  h.settles.set hs (fun hc => hx (.inl hc)) (fun hc => hx (.inr hc)) v

theorem step : ∃ changed s', step s = (.ok changed, s') := h.settles.step hs (h.sync s.values)

end

theorem setAll (h : Lively f) (hs : s.Shows f s.values) {ws : List Write}
    (hws : ∀ w ∈ ws, ¬ Driven f w.1) : ∃ s', setAll ws s = (.ok (), s') := by
  induction ws generalizing s with
  | nil => exact ⟨s, rfl⟩
  | cons w ws ih =>
    rw [forall_mem_cons] at hws
    obtain ⟨s₁, hfirst⟩ := h.set hs hws.1 w.2
    obtain ⟨s', hrest⟩ := ih (hs.later (set_spec hs hfirst)) hws.2
    exact ⟨s', Lowering.gives_bind.mpr ⟨(), s₁, hfirst, hrest⟩⟩

end Lively

/-! ### Benches -/

variable {rs : List Resource}

theorem ofResources_total (hchannels : ∀ d, .device d ∉ rs) (inputs : List (String × List UInt64)) :
    ∃ b, ofResources inputs rs = .ok b := by
  induction rs with
  | nil => exact ⟨_, rfl⟩
  | cons r rs ih =>
    obtain ⟨b, hb⟩ := ih fun d hd => hchannels d (mem_cons_of_mem _ hd)
    cases r with
    | sink c | source c =>
      rw [ofResources, hb]
      exact ⟨_, rfl⟩
    | device d => exact absurd mem_cons_self (hchannels d)

variable {inputs : List (String × List UInt64)}

theorem bench_total (hchannels : ∀ d, .device d ∉ rs)
    (hinputs : ∀ i ∈ inputs, ∃ q ∈ rs, q.name = i.1) : ∃ b, Bench.new rs inputs = .ok b := by
  obtain ⟨b, hb⟩ := ofResources_total hchannels inputs
  have hfind : (inputs.find? fun i => !rs.any (·.name = i.1)) = none := by
    simpa using hinputs
  rw [Bench.new, hb]
  simp only [bind, Except.bind, hfind]
  exact ⟨b, rfl⟩

namespace Rig

/-- A rig whose bench drives inputs only, and each for one purpose. -/
structure Fit (f : Fragment) (r : Rig) : Prop where
  shows : r.sim.Shows f r.sim.values
  distinct : r.bench.inputs.Nodup
  free : ∀ x ∈ r.bench.inputs, ¬ Driven f x

/-- Nothing is taken from a source that has nothing. -/
def Quiet (r : Rig) : Prop :=
  ∀ feed ∈ r.bench.feeds, feed.queue = [] → strobed r.sim.values feed.channel = false

/-- The strobes of sources that have nothing are low. -/
def Silent (r : Rig) : Prop :=
  ∀ feed ∈ r.bench.feeds, feed.queue = [] → r.sim.get feed.channel.stb = 0

theorem Silent.quiet {r : Rig} (h : r.Silent) : r.Quiet :=
  fun feed hfeed hq => strobed_of_low (h feed hfeed hq)

theorem Ready.silent {f : Fragment} {r : Rig} (h : r.Ready f) : r.Silent :=
  fun _ hfeed hq => h.strobe_low hfeed hq

section Runs

variable {f : Fragment} {r r' : Rig}

theorem Fit.tick (h : r.Fit f) (ht : r.tick = .ok r') : r'.Fit f ∧ r'.Silent := by
  obtain ⟨hready, -, hbench⟩ := ready_tick h.shows h.distinct ht
  have hinputs : r'.bench.inputs = r.bench.inputs := by rw [hbench, inputs_pop]
  exact ⟨⟨hready.shows, hready.distinct, hinputs ▸ h.free⟩, hready.silent⟩

theorem Fit.exists_tick (h : r.Fit f) (hf : Lively f) (hq : r.Quiet) : ∃ changed s s',
    Simulator.step r.sim = (.ok changed, s) ∧
      (Bench.mk r.bench.sinks (r.bench.feeds.map (Feed.pop r.sim.values))).drive s = (.ok (), s') ∧
        r.tick = .ok ⟨⟨r.bench.sinks, r.bench.feeds.map (Feed.pop r.sim.values)⟩, s'⟩ := by
  obtain ⟨changed, s, hstep⟩ := hf.step h.shows
  obtain ⟨s', hdrive⟩ := hf.setAll (h.shows.later (step_spec h.shows hstep))
    fun w hw => h.free w.1 (inputs_pop r.bench r.sim.values ▸
      (writes_sublist _).subset (mem_map_of_mem hw))
  exact ⟨changed, s, s', hstep, by rw [drive_eq]; exact hdrive,
    tick_eq_ok.mpr ⟨_, changed, s, advance_eq hq, hstep, rfl, hdrive⟩⟩

/-- A run fails only if it begins with taking something from a source that has nothing. -/
theorem fault_runFor (hf : Lively f) (n : Nat) (h : r.Fit f) (hq : r.Quiet) :
    (runFor n r).1.fault = none := by
  induction n generalizing r with
  | zero => rfl
  | succ n ih =>
    obtain ⟨changed, s, s', hstep, hdrive, htick⟩ := h.exists_tick hf hq
    obtain ⟨hfit, hsilent⟩ := h.tick htick
    rw [runFor]
    simp only [advance_eq hq, hstep, hdrive]
    split
    · rfl
    · exact ih hfit hsilent.quiet

/-- **When a run fails**: never, unless something is taken at once from a source that has nothing.
-/
theorem fault_run_iff (hf : Lively f) (h : r.Fit f) (limit : Int) :
    (r.run limit).1.fault = none ↔ limit ≤ r.sim.cycle ∨ r.Quiet := by
  rw [run]
  cases hn : (limit - r.sim.cycle).toNat with
  | zero => exact iff_of_true rfl (.inl (by omega))
  | succ n =>
    refine ⟨fun hfault => .inr (advance_eq_none_iff.mp ?_), ?_⟩
    · rw [runFor] at hfault
      obtain ⟨⟨fault, feeds⟩, hadvance⟩ :
        ∃ p, advance r.sim.values r.bench.feeds = p := ⟨_, rfl⟩
      rw [hadvance] at hfault ⊢
      cases fault with
      | none => rfl
      | some e => cases hfault
    · rintro (hle | hq)
      · omega
      · exact fault_runFor hf _ h hq

theorem Fit.clocked (h : r.Fit f) {n : Nat} {ts : List Transfer} (hc : Clocked n r ts r') :
    r'.Fit f ∧ (r.Silent → r'.Silent) := by
  induction hc with
  | stop r => exact ⟨h, id⟩
  | tick first rest ih =>
    obtain ⟨hfit, hsilent⟩ := h.tick first
    exact ⟨(ih hfit).1, fun _ => (ih hfit).2 hsilent⟩

theorem Fit.run (h : r.Fit f) {limit : Int} (hfault : (r.run limit).1.fault = none) :
    (r.run limit).2.Fit f ∧ (r.Silent → (r.run limit).2.Silent) := by
  obtain ⟨k, -, hclocked, -⟩ := clocked_of_runFor (run_eq hfault rfl)
  exact h.clocked hclocked

theorem exists_new (hf : Lively f) {s : Simulator} (hs : s.Shows f s.values)
    (hchannels : ∀ d, .device d ∉ rs) (hfree : ∀ x ∈ portSignals rs .input, ¬ Driven f x)
    (hinputs : ∀ i ∈ inputs, ∃ q ∈ rs, q.name = i.1) : ∃ r, Rig.new s rs inputs = .ok r := by
  obtain ⟨b, hb⟩ := bench_total hchannels hinputs
  obtain ⟨s', hs'⟩ := hf.setAll hs fun w hw => hfree w.1 ((inputs_perm hb).subset
    (b.writes_sublist.subset (mem_map_of_mem hw)))
  refine ⟨⟨b, s'⟩, bind_eq_ok.mpr ⟨b, hb, bind_eq_ok.mpr ⟨s', ?_, rfl⟩⟩⟩
  rw [drive_eq]
  exact after_eq_ok.mpr ⟨(), hs'⟩

theorem fit_new {s : Simulator} (hs : s.Shows f s.values)
    (hdistinct : ((rs.flatMap Resource.ports).map Port.signal).Nodup)
    (hfree : ∀ x ∈ portSignals rs .input, ¬ Driven f x) (hr : Rig.new s rs inputs = .ok r) :
    r.Fit f ∧ r.Silent := by
  obtain ⟨hready, hb, -⟩ := ready_new hs hdistinct hr
  exact ⟨⟨hready.shows, hready.distinct, fun x hx => hfree x ((inputs_perm hb).subset hx)⟩,
    hready.silent⟩

end Runs

end Rig

end Sequencer.Simulation
