import Mathlib.Data.List.Pairwise
import Sequencer.Proofs.Simulation.Clocking

/-!
# What a bench delivers

Whenever the inputs have been driven, the strobe of a source is high exactly while its queue has
something, and its data is the head of the queue (`Rig.Ready`). So a strobed cycle moves the head of
the queue into the record, and any other cycle moves nothing.
-/

namespace Sequencer.Simulation

open List
open Circuit Bench Simulator Resource Rig

/-! ### Faults of the logic -/

section Faults

variable {name : String} {σ : Valuation}

theorem fault?_ne_emptyQueue (v : Value) : fault? v ≠ some (.emptyQueue name) := by
  induction v with
  | hole | signal _ | const _ _ => simp [fault?]
  | slice _ _ _ _ ih => simpa [fault?] using ih
  | binary tag op l r ihl ihr =>
    have hop : opFault? op (.binary tag op l r) ≠ some (.emptyQueue name) := by
      unfold opFault?
      split
      · simp
      · split <;> simp
    simp only [fault?, ne_eq, Option.or_eq_some_iff, not_or, not_and]
    exact ⟨ihl, fun _ => ⟨ihr, fun _ => hop⟩⟩

theorem exec_ne_emptyQueue (ss : List Stmt) : exec σ ss ≠ .error (.emptyQueue name) := by
  intro h
  obtain ⟨t, -, ht⟩ := exec_error ss h
  cases t with
  | hole | marker => simp [ownFault?] at ht
  | assign _ v => exact fault?_ne_emptyQueue v ht
  | branch test | select test => exact fault?_ne_emptyQueue test ht

namespace Simulator

theorem settle_ne_emptyQueue (n : Nat) (s : Simulator) :
    (settleWithin n s).1 ≠ .error (.emptyQueue name) := by
  induction n generalizing s with
  | zero => simp [settleWithin]
  | succ n ih =>
    rw [settleWithin_succ]
    split
    · rename_i e he
      intro h
      cases h
      obtain h | ⟨_, -, h⟩ := bind_eq_error.mp he
      · exact exec_ne_emptyQueue _ h
      · cases h
    · split
      · exact ih _
      · simp

theorem step_ne_emptyQueue (s : Simulator) : (step s).1 ≠ .error (.emptyQueue name) := by
  rw [step]
  split
  · rename_i e he
    intro h
    cases h
    exact exec_ne_emptyQueue _ he
  · split
    · simp
    · rename_i hsettle
      intro h
      cases h
      exact settle_ne_emptyQueue _ _ (congrArg Prod.fst hsettle)

theorem set_ne_emptyQueue (x : Signal) (v : UInt64) (s : Simulator) :
    (set x v s).1 ≠ .error (.emptyQueue name) := by
  rw [set]
  split
  · simp
  · exact settle_ne_emptyQueue _ _

theorem setAll_ne_emptyQueue (ws : List Write) (s : Simulator) :
    (setAll ws s).1 ≠ .error (.emptyQueue name) := by
  induction ws generalizing s with
  | nil => exact nofun
  | cons w ws ih =>
    intro h
    obtain hset | ⟨_, s₁, -, hrest⟩ := Lowering.fails_bind.mp (Prod.ext h rfl)
    · exact set_ne_emptyQueue _ _ _ (congrArg Prod.fst hset)
    · exact ih s₁ (congrArg Prod.fst hrest)

end Simulator

end Faults

/-! ### The record of a cycle -/

/-- The channels of a bench with the direction of their transfers. -/
def Bench.ways (b : Bench) : List (Channel × Direction) :=
  b.sinks.map (·, .output) ++ b.feeds.map (·.channel, .input)

def Simulator.transfer (s : Simulator) (way : Channel × Direction) : Transfer :=
  ⟨s.cycle, way.1.name, way.2, s.get way.1.data⟩

namespace Rig

section Moved

variable {r : Rig}

theorem moved_eq : r.moved =
    (r.bench.ways.filter fun way => strobed r.sim.values way.1).map r.sim.transfer := by
  simp only [moved, transfers, transfersOf, ways, filter_append, filter_map, map_append, map_map]
  rfl

variable {way : Channel × Direction}

theorem filter_name_eq {ways : List (Channel × Direction)} (hnames : (ways.map (·.1.name)).Nodup)
    (hway : way ∈ ways) : (ways.filter fun w => w.1.name = way.1.name) = [way] := by
  induction ways with
  | nil => cases hway
  | cons w ways ih =>
    rw [map_cons, nodup_cons] at hnames
    obtain rfl | hway := mem_cons.mp hway
    · have hrest : ways.filter (fun w => w.1.name = way.1.name) = [] := by
        refine filter_eq_nil_iff.mpr fun w hw => ?_
        rw [decide_eq_true_eq]
        exact fun heq => hnames.1 (heq ▸ mem_map_of_mem hw)
      simp [hrest]
    · have hne : w.1.name ≠ way.1.name := fun heq =>
        hnames.1 (heq ▸ mem_map_of_mem hway)
      simp [hne, ih hnames.2 hway]

theorem filter_moved (hnames : (r.bench.ways.map (·.1.name)).Nodup) (hway : way ∈ r.bench.ways) :
    (r.moved.filter fun t => t.resource = way.1.name) =
      if strobed r.sim.values way.1 then [r.sim.transfer way] else [] := by
  rw [moved_eq, filter_map, filter_filter]
  have hswap : (r.bench.ways.filter fun w => (decide (w.1.name = way.1.name)) &&
      strobed r.sim.values w.1) = [way].filter fun w => strobed r.sim.values w.1 := by
    rw [← filter_name_eq hnames hway, filter_filter]
    exact filter_congr fun w _ => Bool.and_comm _ _
  show List.map _ (r.bench.ways.filter fun w => (decide (w.1.name = way.1.name)) &&
      strobed r.sim.values w.1) = _
  rw [hswap, filter_cons]
  split <;> simp

theorem cycle_of_mem_moved {t : Transfer} (ht : t ∈ r.moved) : t.cycle = r.sim.cycle := by
  rw [moved_eq, mem_map] at ht
  obtain ⟨_, -, rfl⟩ := ht
  rfl

theorem resource_of_mem_moved {t : Transfer} (ht : t ∈ r.moved) :
    ∃ way ∈ r.bench.ways, t.resource = way.1.name := by
  rw [moved_eq, mem_map] at ht
  obtain ⟨way, hway, rfl⟩ := ht
  exact ⟨way, mem_of_mem_filter hway, rfl⟩

end Moved

/-! ### The record of some clock edges -/

section Recording

variable {f : Fragment} {r r' : Rig} {n : Nat} {ts : List Transfer}

theorem Ready.ways_tick (h : r.Ready f) (ht : r.tick = .ok r') : r'.bench.ways = r.bench.ways := by
  obtain ⟨-, -, hbench⟩ := h.tick ht
  simp [hbench, ways, map_map, Function.comp_def]

theorem Clocked.range (h : Clocked n r ts r') :
    ∀ t ∈ ts, r.sim.cycle ≤ t.cycle ∧ t.cycle < r'.sim.cycle := by
  induction h with
  | stop r => simp
  | @tick _ r _ _ _ first rest ih =>
    have hcycle := cycle_tick first
    have hlast := rest.cycle_eq
    intro t ht
    obtain ht | ht := mem_append.mp ht
    · have := cycle_of_mem_moved ht
      omega
    · have := ih t ht
      omega

variable (h : r.Ready f)

include h

theorem Ready.named (hc : Clocked n r ts r') :
    ∀ t ∈ ts, ∃ way ∈ r.bench.ways, t.resource = way.1.name := by
  induction hc with
  | stop r => simp
  | @tick _ r _ _ _ first rest ih =>
    intro t ht
    obtain ht | ht := mem_append.mp ht
    · exact resource_of_mem_moved ht
    · obtain ⟨way, hway, hname⟩ := ih (h.tick first).1 t ht
      exact ⟨way, h.ways_tick first ▸ hway, hname⟩

section

variable (hnames : (r.bench.ways.map (·.1.name)).Nodup) (hc : Clocked n r ts r')

include hnames hc

theorem Ready.recorded (hway : way ∈ r.bench.ways) {i : Nat} (hi : i < n) {q : Rig}
    (hq : r.clock i = .ok q) :
    (ts.filter fun t => t.resource = way.1.name ∧ t.cycle = q.sim.cycle) =
      if strobed q.sim.values way.1 then [q.sim.transfer way] else [] := by
  induction hc generalizing i with
  | stop r => cases hi
  | @tick n r r₁ r' ts first rest ih =>
    have hcycle := cycle_tick first
    rw [filter_append]
    cases i with
    | zero =>
      obtain rfl : q = r := (Except.ok.inj hq).symm
      have hnow : (q.moved.filter fun t => t.resource = way.1.name ∧ t.cycle = q.sim.cycle) =
          q.moved.filter fun t => t.resource = way.1.name :=
        filter_congr fun t ht => by simp [cycle_of_mem_moved ht]
      have hlater :
          (ts.filter fun t => t.resource = way.1.name ∧ t.cycle = q.sim.cycle) = [] := by
        refine filter_eq_nil_iff.mpr fun t ht => ?_
        have := rest.range t ht
        simp only [decide_eq_true_eq, not_and]
        omega
      rw [hnow, hlater, append_nil, filter_moved hnames hway]
    | succ i =>
      obtain ⟨q₁, hq₁, hq⟩ := bind_eq_ok.mp hq
      obtain rfl : q₁ = r₁ := Except.ok.inj (hq₁.symm.trans first)
      have hways := h.ways_tick first
      obtain ⟨us, hus⟩ := clocked_of_clock hq
      have hbefore :
          (r.moved.filter fun t => t.resource = way.1.name ∧ t.cycle = q.sim.cycle) = [] := by
        refine filter_eq_nil_iff.mpr fun t ht => ?_
        have := cycle_of_mem_moved ht
        have := hus.cycle_eq
        simp only [decide_eq_true_eq, not_and]
        omega
      rw [hbefore, nil_append]
      exact ih (h.tick first).1 (hways ▸ hnames) (hways ▸ hway) (by omega) hq

theorem Ready.increasing (name : String) :
    (ts.filter fun t => t.resource = name).Pairwise fun t u => t.cycle < u.cycle := by
  induction hc with
  | stop r => exact .nil
  | @tick n r r₁ r' ts first rest ih =>
    have hways := h.ways_tick first
    have hcycle := cycle_tick first
    rw [filter_append, pairwise_append]
    refine ⟨?_, ih (h.tick first).1 (hways ▸ hnames), fun t ht u hu => ?_⟩
    · by_cases hname : ∃ way ∈ r.bench.ways, name = way.1.name
      · obtain ⟨way, hway, rfl⟩ := hname
        rw [filter_moved hnames hway]
        split <;> simp
      · have hnone : (r.moved.filter fun t => t.resource = name) = [] := by
          refine filter_eq_nil_iff.mpr fun t ht heq => hname ?_
          obtain ⟨way, hway, ht⟩ := resource_of_mem_moved ht
          exact ⟨way, hway, (of_decide_eq_true heq).symm.trans ht⟩
        rw [hnone]
        exact .nil
    · have ht := cycle_of_mem_moved (mem_of_mem_filter ht)
      have hu := rest.range u (mem_of_mem_filter hu)
      omega

/-- **The values of a source are delivered in order**: what was recorded is what the queue has
lost. -/
theorem Ready.delivered {c : Channel} {queue : List UInt64} (hfeed : ⟨c, queue⟩ ∈ r.bench.feeds) :
    ∃ k ≤ queue.length,
      ((ts.filter fun t => t.resource = c.name).map Transfer.value) =
        (queue.take k).map (truncate · c.data.bits) ∧
      ⟨c, queue.drop k⟩ ∈ r'.bench.feeds := by
  induction hc generalizing queue with
  | stop r => exact ⟨0, Nat.zero_le _, rfl, hfeed⟩
  | @tick n r r₁ r' ts first rest ih =>
    obtain ⟨hready, -, hbench⟩ := h.tick first
    have hnames' := h.ways_tick first ▸ hnames
    have hway : (c, .input) ∈ r.bench.ways :=
      mem_append_right _ (mem_map.mpr ⟨_, hfeed, rfl⟩)
    have hpopped : Feed.pop r.sim.values ⟨c, queue⟩ ∈ r₁.bench.feeds := by
      rw [hbench]
      exact mem_map_of_mem hfeed
    rw [filter_append, map_append, filter_moved hnames hway]
    by_cases hstrobed : strobed r.sim.values c = true
    · cases queue with
      | nil => exact absurd hstrobed (by simp [h.quiet hfeed rfl])
      | cons v queue =>
        have hvalue := h.presented hfeed rfl
        rw [Feed.pop, if_pos hstrobed] at hpopped
        obtain ⟨k, hk, hvalues, hleft⟩ := ih hready hnames' hpopped
        refine ⟨k + 1, Nat.succ_le_succ hk, ?_, hleft⟩
        rw [if_pos hstrobed, hvalues, take_succ_cons, map_cons]
        exact congrArg (· :: _) hvalue
    · rw [Feed.pop, if_neg hstrobed] at hpopped
      obtain ⟨k, hk, hvalues, hleft⟩ := ih hready hnames' hpopped
      refine ⟨k, hk, ?_, hleft⟩
      rw [if_neg hstrobed, map_nil, nil_append, hvalues]

end

/-- A run takes nothing from an empty queue, whatever else may go wrong. -/
theorem Ready.runFor_ne_emptyQueue (n : Nat) (name : String) :
    (runFor n r).1.fault ≠ some (.emptyQueue name) := by
  induction n generalizing r with
  | zero => simp [runFor]
  | succ n ih =>
    rw [runFor, h.advance_eq]
    dsimp only
    split
    · rename_i e s hstep
      intro hfault
      cases hfault
      exact step_ne_emptyQueue r.sim (congrArg Prod.fst hstep)
    · rename_i changed s hstep
      rw [drive_eq]
      split
      · rename_i e s' hdrive
        intro hfault
        cases hfault
        exact setAll_ne_emptyQueue _ s (congrArg Prod.fst hdrive)
      · rename_i s' hdrive
        split
        · simp
        · exact ih (h.tick (tick_eq_ok.mpr ⟨_, changed, s, h.advance_eq, hstep, rfl, hdrive⟩)).1

end Recording

end Rig

/-! ### Faithful records -/

/-- The channel of a resource and the direction of its transfers. -/
def way? : Resource → Option (Channel × Direction)
  | .sink c => some (c, .output)
  | .source c => some (c, .input)
  | .device _ => none

section Ways

variable {inputs : List (String × List UInt64)} {rs : List Resource} {b : Bench}

theorem mem_ways (h : new rs inputs = .ok b) {q : Resource} (hq : q ∈ rs)
    {way : Channel × Direction} (hway : way? q = some way) : way ∈ b.ways := by
  obtain ⟨rfl, -⟩ := new_eq_ok h
  cases q with
  | sink c =>
    cases hway
    exact mem_append_left _ (mem_map_of_mem (mem_filterMap.mpr ⟨_, hq, rfl⟩))
  | source c =>
    cases hway
    refine mem_append_right _ (mem_map.mpr ⟨feedOf inputs c, ?_, rfl⟩)
    exact mem_map_of_mem (mem_filterMap.mpr ⟨_, hq, rfl⟩)
  | device d => cases hway

theorem names_ways (h : new rs inputs = .ok b) : (b.ways.map (·.1.name)).Perm (rs.map name) := by
  refine (Perm.of_eq ?_).trans (channels_perm h)
  simp [ways, channels, map_map, Function.comp_def]

end Ways

/-- What the record `ts` of `n` clock edges ought to be, from the rig `r` with the values `inputs`
for the sources in `rs` to the rig `r'`. -/
structure Rig.Faithful (rs : List Resource) (inputs : List (String × List UInt64)) (r : Rig)
    (n : Nat) (ts : List Transfer) (r' : Rig) : Prop where
  clocked : r.clock n = .ok r'
  cycles : ∀ i m, r.clock i = .ok m → m.sim.cycle = r.sim.cycle + i
  /-- A resource has one transfer in a cycle in which its strobe and its acknowledge are high, with
  the data seen in that cycle, and none in any other cycle. -/
  recorded : ∀ q ∈ rs, ∀ c dir, way? q = some (c, dir) → ∀ i < n, ∀ m, r.clock i = .ok m →
    (ts.filter fun t => t.resource = q.name ∧ t.cycle = m.sim.cycle) =
      if m.sim.get c.stb = 1 ∧ m.sim.get c.ack = 1 then
        [⟨m.sim.cycle, c.name, dir, m.sim.get c.data⟩]
      else []
  increasing : ∀ q ∈ rs,
    (ts.filter fun t => t.resource = q.name).Pairwise fun t u => t.cycle < u.cycle
  /-- Nothing else is in the record. -/
  named : ∀ t ∈ ts, (∃ q ∈ rs, t.resource = q.name) ∧
    r.sim.cycle ≤ t.cycle ∧ t.cycle < r.sim.cycle + n
  /-- The values of a source are delivered in order, and the others are still in its queue. -/
  delivered : ∀ c, .source c ∈ rs → ∃ k ≤ (feedOf inputs c).queue.length,
    ((ts.filter fun t => t.resource = c.name).map Transfer.value) =
      ((feedOf inputs c).queue.take k).map (truncate · c.data.bits) ∧
    ⟨c, (feedOf inputs c).queue.drop k⟩ ∈ r'.bench.feeds
  /-- Nothing will be taken from an empty queue. -/
  safe : ∀ limit name, (r'.run limit).1.fault ≠ some (.emptyQueue name)

/-- **A bench neither loses, duplicates nor reorders the values of a source.** -/
theorem bench_faithful (f : Fragment) (s : Simulator) (hs : s.Used f) (rs : List Resource)
    (hdistinct : ((rs.flatMap Resource.ports).map Port.signal).Nodup)
    (hnames : (rs.map Resource.name).Nodup) (inputs : List (String × List UInt64)) (r : Rig)
    (hr : Rig.new s rs inputs = .ok r) (ts : List Transfer) (r' : Rig) (hran : r.Ran ts r') :
    ∃ n, r.Faithful rs inputs n ts r' := by
  obtain ⟨hready, hbench, -⟩ := Rig.ready_new hs.shows hdistinct hr
  obtain ⟨n, hc⟩ := hran.clocked
  have hways := (names_ways hbench).nodup_iff.mpr hnames
  have hname : ∀ {q c dir}, way? q = some (c, dir) → q.name = c.name := by
    intro q c dir hq
    cases q <;> cases hq <;> rfl
  refine ⟨n, hc.clock_eq, fun i m hm => ?_, fun q hq c dir hway i hi m hm => ?_, fun q _ => ?_,
    fun t ht => ⟨?_, ?_⟩, fun c hc' => ?_, fun limit name => ?_⟩
  · obtain ⟨us, hus⟩ := Rig.clocked_of_clock hm
    exact hus.cycle_eq
  · rw [hname hway, hready.recorded hways hc (mem_ways hbench hq hway) hi hm]
    have hstrobed : Bench.strobed m.sim.values c = true ↔
        m.sim.get c.stb = 1 ∧ m.sim.get c.ack = 1 := by
      simp [Bench.strobed, Simulator.get]
    simp only [hstrobed]
    rfl
  · exact hready.increasing hways hc q.name
  · obtain ⟨way, hway, hresource⟩ := hready.named hc t ht
    have hmem : t.resource ∈ rs.map Resource.name :=
      (names_ways hbench).mem_iff.mp (hresource ▸ List.mem_map_of_mem hway)
    obtain ⟨q, hq, hname⟩ := List.mem_map.mp hmem
    exact ⟨q, hq, hname.symm⟩
  · rw [← hc.cycle_eq]
    exact hc.range t ht
  · refine hready.delivered hways hc ?_
    obtain ⟨hb, -⟩ := new_eq_ok hbench
    rw [hb]
    exact List.mem_map_of_mem (List.mem_filterMap.mpr ⟨_, hc', rfl⟩)
  · exact (hready.clocked hc).1.runFor_ne_emptyQueue _ name

/-- The second byte is too wide for the channel. -/
theorem capture_faithful : ∃ s r r', Used capture s ∧
    new s [.source captureSource] [("rx", [5, 263])] = .ok r ∧
      r.Ran [⟨0, "rx", .input, 5⟩, ⟨1, "rx", .input, 7⟩] r' ∧
        ∃ n, r.Faithful [.source captureSource] [("rx", [5, 263])] n
          [⟨0, "rx", .input, 5⟩, ⟨1, "rx", .input, 7⟩] r' := by
  obtain ⟨s, r, r', hs, hr, hrun, -⟩ := capture_run
  have hran : r.Ran [⟨0, "rx", .input, 5⟩, ⟨1, "rx", .input, 7⟩] r' := .run (.none r) hrun
  exact ⟨s, r, _, .new hs, hr, hran, bench_faithful capture s (.new hs) [.source captureSource]
    (by decide) (by decide) _ r hr _ _ hran⟩

end Sequencer.Simulation
