import Sequencer.Proofs.Design.Wiring
import Sequencer.Simulation.Bench

/-!
# A simulator under a bench

A run of a rig is a number of clock edges up to the first idle one, after each of which the bench
drives the inputs again. Driving is a list of writes, and writing the same values once more changes
nothing.
-/

namespace Sequencer.Simulation

open List Simulator
open Circuit Feed Simulator Bench

/-! ### Driving several inputs -/

namespace Simulator

def setAll : List Write → Action Unit
  | [] => pure ()
  | w :: ws => do
    set w.1 w.2
    setAll ws

/-- An input that is not driven by the design and has the value that was written to it. -/
structure Accepts (f : Fragment) (s : Simulator) (w : Write) : Prop where
  comb : w.1 ∉ targets f.comb
  sync : w.1 ∉ targets f.sync
  value : s.get w.1 = truncate w.2 w.1.bits

section SetAll

variable {f : Fragment} {s s' : Simulator} {ws : List Write}

theorem setAll_append (ws us : List Write) :
    setAll (ws ++ us) = setAll ws >>= fun _ => setAll us := by
  induction ws with
  | nil => rfl
  | cons w ws ih =>
    rw [cons_append, setAll, setAll, ih]
    simp only [bind_assoc]

theorem cycle_setAll (hs : setAll ws s = (.ok (), s')) : s'.cycle = s.cycle := by
  induction ws generalizing s with
  | nil =>
    cases hs
    rfl
  | cons w ws ih =>
    obtain ⟨_, s₁, hfirst, hrest⟩ := Lowering.gives_bind.mp hs
    rw [ih hrest, ← cycle_set w.1 w.2 s, show set w.1 w.2 s = _ from hfirst]

theorem setAll_eq_ok (h : Shows f s s.values) (hnodup : (ws.map Prod.fst).Nodup)
    (hs : setAll ws s = (.ok (), s')) :
    Later (ws.map Prod.fst ++ targets f.comb) s s' ∧
      (∀ w ∈ ws, s'.Accepts f w) ∧ (ws ≠ [] ∨ s.AtRest → s'.AtRest) := by
  induction ws generalizing s with
  | nil =>
    cases hs
    exact ⟨⟨rfl, rfl, rfl, fun _ _ => rfl⟩, by simp, by simp⟩
  | cons w ws ih =>
    rw [map_cons, nodup_cons] at hnodup
    obtain ⟨_, s₁, hfirst, hrest⟩ := Lowering.gives_bind.mp hs
    have hlater := set_spec h hfirst
    obtain ⟨hcomb, hsync, hvalue, hstill⟩ := set_eq_ok h hfirst
    obtain ⟨hlater', haccepts, hstill'⟩ := ih (h.later hlater) hnodup.2 hrest
    refine ⟨(hlater.trans hlater').mono ?_, ?_, fun _ => hstill' (.inr hstill)⟩
    · intro x
      simp only [map_cons, mem_append, mem_cons]
      tauto
    · rw [forall_mem_cons]
      refine ⟨⟨hcomb, hsync, ?_⟩, haccepts⟩
      rw [hlater'.values _ (by simp [hnodup.1, hcomb]), hvalue]

theorem setAll_of_accepts (h : Shows f s s.values) (hrest : s.AtRest)
    (hws : ∀ w ∈ ws, s.Accepts f w) : ∃ s', setAll ws s = (.ok (), s') ∧ Later [] s s' := by
  induction ws generalizing s with
  | nil => exact ⟨s, rfl, rfl, rfl, rfl, fun _ _ => rfl⟩
  | cons w ws ih =>
    rw [forall_mem_cons] at hws
    obtain ⟨⟨hcomb, hsync, hvalue⟩, hws⟩ := hws
    obtain ⟨s₁, hfirst, hlater⟩ := set_of_get_eq h hrest hcomb hsync hvalue
    obtain ⟨s', hall, hlater'⟩ := ih (h.later hlater) (hrest.congr hlater)
      fun v hv => ⟨(hws v hv).comb, (hws v hv).sync,
        (hlater.values _ not_mem_nil).trans (hws v hv).value⟩
    exact ⟨s', Lowering.gives_bind.mpr ⟨(), s₁, hfirst, hall⟩, hlater.trans hlater'⟩

end SetAll

end Simulator

/-! ### What a bench writes -/

/-- What a source has on its wires. -/
def Feed.writes (f : Feed) : List Write :=
  match f.queue with
  | [] => [(f.channel.stb, 0)]
  | v :: _ => [(f.channel.data, v), (f.channel.stb, 1)]

namespace Bench

/-- What a bench has on the inputs of a design. -/
def writes (b : Bench) : List Write :=
  b.sinks.map (fun c => (c.ack, 1)) ++ b.feeds.flatMap Feed.writes

def channels (b : Bench) : List Channel := b.sinks ++ b.feeds.map channel

def inputs (b : Bench) : List Signal :=
  b.sinks.map Channel.ack ++ (b.feeds.map channel).flatMap fun c => [c.data, c.stb]

theorem drive_eq (b : Bench) : b.drive = setAll b.writes := by
  have hsinks : ∀ cs : List Channel, (cs.forM fun c => set c.ack 1) =
      setAll (cs.map fun c => (c.ack, 1)) := by
    intro cs
    induction cs with
    | nil => rfl
    | cons c cs ih =>
      show (set c.ack 1 >>= fun _ => cs.forM _) = _
      rw [ih]
      rfl
  have hfeeds : ∀ fs : List Feed,
      fs.forM driveFeed = setAll (fs.flatMap Feed.writes) := by
    intro fs
    induction fs with
    | nil => rfl
    | cons f fs ih =>
      show (driveFeed f >>= fun _ => fs.forM driveFeed) = _
      rw [ih, flatMap_cons, setAll_append]
      congr 1
      obtain ⟨channel, queue⟩ := f
      cases queue <;> simp [driveFeed, Feed.writes, setAll]
  rw [drive, hsinks, hfeeds, writes, setAll_append]

theorem writes_sublist (b : Bench) : (b.writes.map Prod.fst).Sublist b.inputs := by
  rw [writes, inputs, map_append, map_map]
  refine Sublist.append (Sublist.refl _) ?_
  induction b.feeds with
  | nil => exact .slnil
  | cons f fs ih =>
    rw [flatMap_cons, map_append, map_cons, flatMap_cons]
    refine Sublist.append ?_ ih
    unfold Feed.writes
    split
    · exact .cons _ (Sublist.refl _)
    · exact Sublist.refl _

end Bench

/-! ### The bench of some resources -/

def feedOf (inputs : List (String × List UInt64)) (c : Channel) : Feed :=
  ⟨c, (inputs.lookup c.name).getD []⟩

def sink? : Resource → Option Channel
  | .sink c => some c
  | _ => none

def source? : Resource → Option Channel
  | .source c => some c
  | _ => none

section Resources

variable {inputs : List (String × List UInt64)} {rs : List Resource} {b : Bench}

theorem ofResources_eq_ok (h : ofResources inputs rs = .ok b) :
    b = ⟨rs.filterMap sink?, (rs.filterMap source?).map (feedOf inputs)⟩ ∧ ∀ d, .device d ∉ rs := by
  induction rs generalizing b with
  | nil =>
    cases h
    exact ⟨rfl, by simp⟩
  | cons r rs ih =>
    cases r with
    | sink c | source c =>
      obtain ⟨b', hb', h⟩ := bind_eq_ok.mp h
      cases h
      obtain ⟨rfl, hdevice⟩ := ih hb'
      exact ⟨rfl, by simpa using hdevice⟩
    | device d => cases h

variable (h : new rs inputs = .ok b)

include h

theorem new_eq_ok :
    b = ⟨rs.filterMap sink?, (rs.filterMap source?).map (feedOf inputs)⟩ ∧ ∀ d, .device d ∉ rs := by
  obtain ⟨b', hb', h⟩ := bind_eq_ok.mp h
  split at h
  · cases h
  · cases h
    exact ofResources_eq_ok hb'

theorem channels_perm : (b.channels.map Channel.name).Perm (rs.map Resource.name) := by
  obtain ⟨rfl, hdevice⟩ := new_eq_ok h
  rw [channels, map_map, show channel ∘ feedOf inputs = id from rfl, map_id]
  clear h
  induction rs with
  | nil => exact .refl _
  | cons r rs ih =>
    have ih := ih fun d hd => hdevice d (mem_cons_of_mem _ hd)
    cases r with
    | sink c => exact ih.cons c.name
    | source c =>
      rw [map_append] at ih ⊢
      exact perm_middle.trans (ih.cons c.name)
    | device d => exact absurd mem_cons_self (hdevice d)

theorem inputs_perm : b.inputs.Perm (portSignals rs .input) := by
  obtain ⟨rfl, hdevice⟩ := new_eq_ok h
  clear h
  induction rs with
  | nil => exact .refl _
  | cons r rs ih =>
    have ih := ih fun d hd => hdevice d (mem_cons_of_mem _ hd)
    cases r with
    | sink c => exact ih.cons c.ack
    | source c =>
      exact perm_middle.trans ((perm_middle.trans (ih.cons c.stb)).cons c.data)
    | device d => exact absurd mem_cons_self (hdevice d)

theorem writes_ne_nil (hne : rs ≠ []) : b.writes ≠ [] := by
  obtain ⟨rfl, hdevice⟩ := new_eq_ok h
  obtain ⟨r, rs, rfl⟩ := exists_cons_of_ne_nil hne
  cases r with
  | sink c => simp [Bench.writes, sink?]
  | source c =>
    have hfeed : (feedOf inputs c).writes ≠ [] := by
      unfold Feed.writes
      split <;> simp
    simp [Bench.writes, source?, hfeed]
  | device d => exact absurd mem_cons_self (hdevice d)

end Resources

/-! ### One clock edge -/

namespace Rig

/-- Put a bench around a simulator, and let it drive the inputs. -/
def new (s : Simulator) (rs : List Resource) (inputs : List (String × List UInt64)) :
    Except Fault Rig := do
  let b ← Bench.new rs inputs
  let s ← after b.drive s
  return ⟨b, s⟩

def moved (r : Rig) : List Transfer := r.bench.transfers r.sim.cycle r.sim.values

/-- One clock edge, after which the bench drives the inputs again. -/
def tick (r : Rig) : Except Fault Rig :=
  match Bench.advance r.sim.values r.bench.feeds with
  | (some e, _) => .error e
  | (none, feeds) => do
    let s ← after step r.sim
    let s ← after (Bench.mk r.bench.sinks feeds).drive s
    return ⟨⟨r.bench.sinks, feeds⟩, s⟩

def clock : Nat → Rig → Except Fault Rig
  | 0, r => .ok r
  | n + 1, r => do clock n (← tick r)

/-- A cycle in which no register changes and no transfer completes. -/
def Idle (r : Rig) : Prop := r.moved = [] ∧ ∃ s, step r.sim = (.ok false, s)

/-- A number of clock edges with the bench driving, and the transfers they complete. -/
inductive Clocked : Nat → Rig → List Transfer → Rig → Prop
  | stop (r : Rig) : Clocked 0 r [] r
  | tick {n : Nat} {r r₁ r' : Rig} {ts : List Transfer} (first : r.tick = .ok r₁)
      (rest : Clocked n r₁ ts r') : Clocked (n + 1) r (r.moved ++ ts) r'

/-- Runs in sequence, none of which fails, and the transfers they report. -/
inductive Ran : Rig → List Transfer → Rig → Prop
  | none (r : Rig) : Ran r [] r
  | run {r r₁ r₂ : Rig} {ts us : List Transfer} {limit : Int} (before : Ran r ts r₁)
      (last : r₁.run limit = (⟨us, .none⟩, r₂)) : Ran r (ts ++ us) r₂

section Ticking

variable {n m : Nat} {r r' r₁ : Rig} {ts us : List Transfer}

theorem tick_eq_ok : r.tick = .ok r' ↔ ∃ feeds changed s,
    advance r.sim.values r.bench.feeds = (none, feeds) ∧
      step r.sim = (.ok changed, s) ∧ r'.bench = ⟨r.bench.sinks, feeds⟩ ∧
        setAll r'.bench.writes s = (.ok (), r'.sim) := by
  rw [tick]
  constructor
  · intro h
    split at h
    · cases h
    · rename_i feeds hfeeds
      obtain ⟨s, hs, h⟩ := bind_eq_ok.mp h
      obtain ⟨s', hs', h⟩ := bind_eq_ok.mp h
      cases h
      obtain ⟨changed, hstep⟩ := after_eq_ok.mp hs
      obtain ⟨_, hdrive⟩ := after_eq_ok.mp hs'
      rw [drive_eq] at hdrive
      exact ⟨feeds, changed, s, hfeeds, hstep, rfl, hdrive⟩
  · rintro ⟨feeds, changed, s, hfeeds, hstep, hbench, hdrive⟩
    rw [hfeeds]
    refine bind_eq_ok.mpr ⟨s, after_eq_ok.mpr ⟨_, hstep⟩, ?_⟩
    rw [hbench] at hdrive
    refine bind_eq_ok.mpr ⟨r'.sim, after_eq_ok.mpr ⟨(), ?_⟩, ?_⟩
    · rw [drive_eq]
      exact hdrive
    · rw [← hbench]
      rfl

theorem cycle_tick (h : r.tick = .ok r') : r'.sim.cycle = r.sim.cycle + 1 := by
  obtain ⟨_, _, _, -, hstep, -, hdrive⟩ := tick_eq_ok.mp h
  rw [cycle_setAll hdrive, cycle_step hstep]

theorem Clocked.cycle_eq (h : Clocked n r ts r') : r'.sim.cycle = r.sim.cycle + n := by
  induction h with
  | stop r => rfl
  | tick first rest ih =>
    rw [ih, cycle_tick first]
    omega

theorem Clocked.clock_eq (h : Clocked n r ts r') : r.clock n = .ok r' := by
  induction h with
  | stop r => rfl
  | tick first rest ih => exact bind_eq_ok.mpr ⟨_, first, ih⟩

theorem clocked_of_clock (h : r.clock n = .ok r') : ∃ ts, Clocked n r ts r' := by
  induction n generalizing r with
  | zero =>
    cases h
    exact ⟨[], .stop _⟩
  | succ n ih =>
    obtain ⟨r₁, first, h⟩ := bind_eq_ok.mp h
    obtain ⟨ts, rest⟩ := ih h
    exact ⟨_, .tick first rest⟩

theorem Clocked.trans (h : Clocked n r ts r₁) (h' : Clocked m r₁ us r') :
    Clocked (n + m) r (ts ++ us) r' := by
  induction h with
  | stop r => simpa using h'
  | @tick n _ _ _ _ first rest ih =>
    rw [Nat.add_right_comm, append_assoc]
    exact .tick first (ih h')

/-- The first edge of a run that does not fail. -/
theorem runFor_succ_ok (h : runFor (n + 1) r = (⟨ts, none⟩, r')) :
    ∃ r₁, r.tick = .ok r₁ ∧ ((r.Idle ∧ ts = [] ∧ r' = r₁) ∨
      (¬ r.Idle ∧ ∃ us, ts = r.moved ++ us ∧ runFor n r₁ = (⟨us, none⟩, r'))) := by
  rw [runFor] at h
  split at h
  · cases h
  · rename_i feeds hfeeds
    dsimp only at h
    split at h
    · cases h
    · rename_i changed s hstep
      split at h
      · cases h
      · rename_i s' hdrive
        rw [drive_eq] at hdrive
        have htick : r.tick = .ok ⟨⟨r.bench.sinks, feeds⟩, s'⟩ :=
          tick_eq_ok.mpr ⟨feeds, changed, s, hfeeds, hstep, rfl, hdrive⟩
        refine ⟨_, htick, ?_⟩
        split at h
        · rename_i hidle
          cases h
          rw [Bool.and_eq_true, Bool.not_eq_true', List.isEmpty_iff] at hidle
          exact .inl ⟨⟨hidle.2, s, hidle.1 ▸ hstep⟩, hidle.2, rfl⟩
        · rename_i hbusy
          obtain ⟨⟨⟨us, fault⟩, r₂⟩, hrest⟩ :
            ∃ p, runFor n ⟨⟨r.bench.sinks, feeds⟩, s'⟩ = p := ⟨_, rfl⟩
          rw [hrest] at h
          cases h
          refine .inr ⟨?_, us, rfl, hrest⟩
          rintro ⟨hmoved, s₁, hstep₁⟩
          rw [hstep] at hstep₁
          cases hstep₁
          exact hbusy (by simp [show r.bench.transfers r.sim.cycle r.sim.values = [] from hmoved])

/-- A run that does not fail is a number of clock edges; when there are fewer than it could have
taken, the last one was idle. -/
theorem clocked_of_runFor (h : runFor n r = (⟨ts, none⟩, r')) :
    ∃ k ≤ n, Clocked k r ts r' ∧
      (k < n → ∃ j r₁, k = j + 1 ∧ Clocked j r ts r₁ ∧ r₁.Idle ∧ r₁.tick = .ok r') := by
  induction n generalizing r ts with
  | zero =>
    cases h
    exact ⟨0, Nat.le_refl 0, .stop _, fun h => nomatch h⟩
  | succ n ih =>
    obtain ⟨r₁, htick, ⟨hidle, rfl, rfl⟩ | ⟨-, us, rfl, hrest⟩⟩ := runFor_succ_ok h
    · refine ⟨1, by omega, ?_, fun _ => ⟨0, r, rfl, .stop r, hidle, htick⟩⟩
      have hone := Clocked.tick htick (.stop r')
      rwa [hidle.1] at hone
    · obtain ⟨k, hk, hclocked, hearly⟩ := ih hrest
      refine ⟨k + 1, by omega, .tick htick hclocked, fun hlt => ?_⟩
      obtain ⟨j, r₂, rfl, hr₂, hidle, hlast⟩ := hearly (by omega)
      exact ⟨j + 1, r₂, rfl, .tick htick hr₂, hidle, hlast⟩

/-- Runs in sequence are a number of clock edges. -/
theorem Ran.clocked (h : Ran r ts r') : ∃ n, Clocked n r ts r' := by
  induction h with
  | none => exact ⟨0, .stop _⟩
  | run before last ih =>
    obtain ⟨n, hn⟩ := ih
    obtain ⟨k, -, hk, -⟩ := clocked_of_runFor last
    exact ⟨n + k, hn.trans hk⟩

end Ticking

end Rig

/-! ### What a source delivers -/

/-- A source after a cycle: the value it had on its wires is gone if the design took it. -/
def Feed.pop (σ : Valuation) (f : Feed) : Feed :=
  if strobed σ f.channel then { f with queue := f.queue.tail } else f

@[simp]
theorem Feed.pop_channel (σ : Valuation) (f : Feed) : (f.pop σ).channel = f.channel := by
  unfold pop
  split <;> rfl

theorem Bench.inputs_pop (b : Bench) (σ : Valuation) :
    inputs ⟨b.sinks, b.feeds.map (pop σ)⟩ = b.inputs := by
  simp [inputs, map_map, Function.comp_def]

theorem strobed_of_low {σ : Valuation} {c : Channel} (h : σ.get c.stb = 0) :
    strobed σ c = false := by
  simp [strobed, h]

theorem Bench.advance_eq {σ : Valuation} {fs : List Feed}
    (h : ∀ f ∈ fs, f.queue = [] → strobed σ f.channel = false) :
    advance σ fs = (none, fs.map (pop σ)) := by
  induction fs with
  | nil => rfl
  | cons f fs ih =>
    rw [forall_mem_cons] at h
    rw [advance, ih h.2, map_cons, pop]
    cases hq : f.queue with
    | nil => simp [h.1 hq]
    | cons v queue =>
      split <;> simp

theorem Bench.advance_eq_none_iff {σ : Valuation} {fs : List Feed} :
    (advance σ fs).1 = none ↔ ∀ f ∈ fs, f.queue = [] → strobed σ f.channel = false := by
  refine ⟨fun h => ?_, fun h => by rw [advance_eq h]⟩
  induction fs with
  | nil => simp
  | cons f fs ih =>
    rw [advance] at h
    rw [forall_mem_cons]
    split at h
    · split at h
      · cases h
      · rename_i hq
        exact ⟨fun hnil => by simp [hnil] at hq, ih h⟩
    · rename_i hstrobed
      exact ⟨fun _ => by simpa using hstrobed, ih h⟩

namespace Rig

/-- What holds whenever the bench has driven the inputs. -/
structure Ready (f : Fragment) (r : Rig) : Prop where
  shows : r.sim.Shows f r.sim.values
  /-- No input is written for two purposes. -/
  distinct : r.bench.inputs.Nodup
  /-- Every input has the value that the bench wrote. -/
  driven : ∀ w ∈ r.bench.writes, r.sim.Accepts f w

section Ready

variable {f : Fragment} {r r' : Rig}

theorem Ready.strobe_low (h : r.Ready f) {feed : Feed} (hf : feed ∈ r.bench.feeds)
    (hq : feed.queue = []) : r.sim.get feed.channel.stb = 0 := by
  have hstb : (feed.channel.stb, 0) ∈ r.bench.writes := by
    refine mem_append_right _ (mem_flatMap.mpr ⟨feed, hf, ?_⟩)
    simp [Feed.writes, hq]
  exact (h.driven _ hstb).value.trans (truncate_zero _)

theorem Ready.quiet (h : r.Ready f) {feed : Feed} (hf : feed ∈ r.bench.feeds)
    (hq : feed.queue = []) : strobed r.sim.values feed.channel = false :=
  strobed_of_low (h.strobe_low hf hq)

theorem Ready.presented (h : r.Ready f) {feed : Feed} (hf : feed ∈ r.bench.feeds) {v : UInt64}
    {queue : List UInt64} (hq : feed.queue = v :: queue) :
    r.sim.get feed.channel.data = truncate v feed.channel.data.bits := by
  refine (h.driven (feed.channel.data, v) ?_).value
  refine mem_append_right _ (mem_flatMap.mpr ⟨feed, hf, ?_⟩)
  simp [Feed.writes, hq]

theorem Ready.advance_eq (h : r.Ready f) :
    advance r.sim.values r.bench.feeds = (none, r.bench.feeds.map (pop r.sim.values)) :=
  Bench.advance_eq fun _ hf hq => h.quiet hf hq

theorem ready_tick (hshows : r.sim.Shows f r.sim.values) (hdistinct : r.bench.inputs.Nodup)
    (ht : r.tick = .ok r') :
    r'.Ready f ∧ r'.sim.AtRest ∧
      r'.bench = ⟨r.bench.sinks, r.bench.feeds.map (pop r.sim.values)⟩ := by
  obtain ⟨feeds, changed, s, hfeeds, hstep, hbench, hdrive⟩ := tick_eq_ok.mp ht
  rw [advance_eq (advance_eq_none_iff.mp (congrArg Prod.fst hfeeds))] at hfeeds
  cases hfeeds
  obtain ⟨-, -, -, hrest, -⟩ := step_eq_ok hshows hstep
  have hshows' := hshows.later (step_spec hshows hstep)
  have hdistinct' : r'.bench.inputs.Nodup := by rwa [hbench, inputs_pop]
  obtain ⟨hlater, haccepts, hstill⟩ :=
    setAll_eq_ok hshows' (hdistinct'.sublist r'.bench.writes_sublist) hdrive
  exact ⟨⟨hshows'.later hlater, hdistinct', haccepts⟩, hstill (.inr hrest), hbench⟩

theorem Ready.tick (h : r.Ready f) (ht : r.tick = .ok r') :
    r'.Ready f ∧ r'.sim.AtRest ∧
      r'.bench = ⟨r.bench.sinks, r.bench.feeds.map (pop r.sim.values)⟩ :=
  ready_tick h.shows h.distinct ht

theorem ready_new {s : Simulator} (hs : s.Shows f s.values) {rs : List Resource}
    (hdistinct : ((rs.flatMap Resource.ports).map Port.signal).Nodup)
    {inputs : List (String × List UInt64)} (hr : Rig.new s rs inputs = .ok r) :
    r.Ready f ∧ Bench.new rs inputs = .ok r.bench ∧ (rs ≠ [] ∨ s.AtRest → r.sim.AtRest) := by
  obtain ⟨b, hb, hr⟩ := bind_eq_ok.mp hr
  obtain ⟨s', hs', hr⟩ := bind_eq_ok.mp hr
  cases hr
  obtain ⟨_, hdrive⟩ := after_eq_ok.mp hs'
  rw [drive_eq] at hdrive
  have hinputs : b.inputs.Nodup :=
    (inputs_perm hb).nodup_iff.mpr (hdistinct.sublist (filter_sublist.map _))
  obtain ⟨hlater, haccepts, hstill⟩ :=
    setAll_eq_ok hs (hinputs.sublist b.writes_sublist) hdrive
  exact ⟨⟨hs.later hlater, hinputs, haccepts⟩, hb,
    fun hrest => hstill (hrest.imp_left (writes_ne_nil hb))⟩

theorem Ready.clocked (h : r.Ready f) {n : Nat} {ts : List Transfer} (hc : Clocked n r ts r') :
    r'.Ready f ∧ (r.sim.AtRest → r'.sim.AtRest) := by
  induction hc with
  | stop r => exact ⟨h, id⟩
  | tick first rest ih =>
    obtain ⟨hready, hrest, -⟩ := h.tick first
    obtain ⟨hready', hrest'⟩ := ih hready
    exact ⟨hready', fun _ => hrest' hrest⟩

end Ready

end Rig

/-! ### A design to look at -/

theorem Rig.run_eq {r : Rig} {limit : Int} {ts : List Transfer}
    (hfault : (r.run limit).1.fault = none) (hts : (r.run limit).1.transfers = ts) :
    r.run limit = (⟨ts, none⟩, (r.run limit).2) := by
  rw [← hfault, ← hts]

def captureSource : Channel where
  name := "rx"
  data := ⟨1, "rx_data", 8, 0⟩
  stb := ⟨2, "rx_stb", 1, 0⟩
  ack := ⟨3, "rx_ack", 1, 0⟩

def capture : Fragment where
  comb := [.assign captureSource.ack (.ofLiteral (.sized 1 1))]
  sync := [.branch (.signal captureSource.stb)
    [.assign ⟨4, "last", 8, 0⟩ (.signal captureSource.data)] none]

theorem capture_run : ∃ s r r', new capture = .ok s ∧
    Rig.new s [.source captureSource] [("rx", [5, 263])] = .ok r ∧
      r.run 10 = (⟨[⟨0, "rx", .input, 5⟩, ⟨1, "rx", .input, 7⟩], none⟩, r') ∧
        r'.sim.cycle = 3 := by
  obtain ⟨s, hs, r, hr, hfault, hcycle, hts⟩ : ∃ s, new capture = .ok s ∧
      ∃ r, Rig.new s [.source captureSource] [("rx", [5, 263])] = .ok r ∧
        (r.run 10).1.fault = none ∧ (r.run 10).2.sim.cycle = 3 ∧
          (r.run 10).1.transfers = [⟨0, "rx", .input, 5⟩, ⟨1, "rx", .input, 7⟩] := by
    decide +kernel
  exact ⟨s, r, _, hs, hr, Rig.run_eq hfault hts, hcycle⟩

end Sequencer.Simulation
