import Mathlib.Data.List.Pairwise
import Sequencer.Proofs.Design.ClockEdge
import Sequencer.Proofs.Project.Resources

/-!
# The handshake

Nothing is known about the other side of a channel, which may change its wires at any time. A
compiled design keeps its part of the handshake all the same: it has settled in one of its states,
so the ports show what the node of that state does, and only that.
-/

namespace Sequencer

open List
open Circuit Lowering Simulation Simulator Valuation Duty Resource Node Wired Project Command

/-! ### Whose signal it is -/

namespace Wired

variable {rs : List Resource} {base : Nat}

theorem resource_eq (hw : Wired rs base) {r r' : Resource} (hr : r ∈ rs) (hr' : r' ∈ rs)
    {q q' : Port} (hq : q ∈ r.ports) (hq' : q' ∈ r'.ports) (h : q.signal = q'.signal) : r = r' := by
  by_contra hne
  have hnodup := hw.distinct
  rw [map_flatMap, nodup_flatMap] at hnodup
  have hsym : Std.Symm (Function.onFun List.Disjoint fun r : Resource =>
      r.ports.map fun q => q.signal.tag) := ⟨fun _ _ h _ ha hb => h hb ha⟩
  have hdisjoint := hnodup.2.forall hr hr' hne
  exact hdisjoint (mem_map_of_mem hq) (h ▸ mem_map_of_mem hq')

end Wired

/-! ### Reachable states -/

/-- What can be reached from reset by putting values on input ports and taking clock edges, in any
order. -/
inductive Design.Reaches (d : Design) : Simulator → Prop
  | new {s : Simulator} (start : new d.fragment = .ok s) : d.Reaches s
  | set {s s' : Simulator} {x : Signal} {v : UInt64} (before : d.Reaches s)
      (input : x ∈ portSignals d.resources .input)
      (set : after (set x v) s = .ok s') : d.Reaches s'
  | step {s s' : Simulator} (before : d.Reaches s)
      (step : after step s = .ok s') : d.Reaches s'

theorem Design.Reaches.of_play {d : Design} {es : List (Event Signal UInt64)} {s : Simulator}
    (hinputs : ∀ x v, .put x v ∈ es → x ∈ portSignals d.resources .input)
    (hplay : play d.fragment es = .ok s) : d.Reaches s := by
  induction es generalizing s with
  | nil => exact .new hplay
  | cons e es ih =>
    have hbefore : ∀ x v, .put x v ∈ es → x ∈ portSignals d.resources .input := fun x v hx =>
      hinputs x v (mem_cons_of_mem _ hx)
    cases e with
    | put x v =>
      obtain ⟨s₁, hs₁, hset⟩ := bind_eq_ok.mp hplay
      exact .set (ih hbefore hs₁) (hinputs x v mem_cons_self) hset
    | tick =>
      obtain ⟨s₁, hs₁, hstep⟩ := bind_eq_ok.mp hplay
      exact .step (ih hbefore hs₁) hstep

/-- A design at rest: it has no states, or one of them has settled. -/
def AtPeace (d : Design) (p : Plan) (τ : Valuation) : Prop :=
  (p = .finish ∧ d.Idle τ) ∨ ∃ i n e, Resting d p i n e τ

/-- A simulator at peace, with inputs in range. -/
structure Reached (d : Design) (rs : List Resource) (p : Plan) (s : Simulator) (τ : Valuation) :
    Prop where
  shows : s.Shows d.fragment τ
  peace : AtPeace d p τ
  range : ∀ x ∈ portSignals rs .input, truncate (τ.get x) x.bits = τ.get x

section Reach

variable {d : Design} {rs : List Resource} {base : Nat} {p : Plan} {w : Workshop}
  {σ τ : Valuation} {i : Nat} {n : Node} {e : Effect} {s s' : Simulator}

variable (h : d.Realizes rs base p w)

include h

section

variable (hw : Wired rs base) (hd : d.Indexable)

include hw hd

theorem atPeace_of_settled (hp : Poised d p i n σ) (hτ : settled d.fragment σ = .ok τ) :
    AtPeace d p τ ∧ d.Keeps σ τ := by
  cases he : n.effect σ with
  | error f =>
    rw [h.settled_error hw hd hp.state hp.node he] at hτ
    cases hτ
  | ok e =>
    obtain ⟨τ', hτ', hr, hk⟩ := h.settles hw hd hp he
    rw [hτ] at hτ'
    cases hτ'
    exact ⟨.inr ⟨i, n, e, hr⟩, hk⟩

theorem reached_new (hs : new d.fragment = .ok s) : ∃ τ, Reached d rs p s τ := by
  obtain ⟨τ, hτ, hshows⟩ :=
    (shows_new (h.feedForward hw) (h.noMarker hw) (h.domains hw)).ok_of_left hs
  have hzero := h.get_reset
  generalize empty.override (resets (targets d.fragment.sync)) = σ at hτ hzero
  have hpeace : AtPeace d p τ ∧ d.Keeps σ τ := by
    cases hfirst : (p.nodes none).head? with
    | none =>
      have hfinish : p = .finish := by
        cases p <;> simp_all [Plan.nodes]
      subst hfinish
      rw [h.settled_finish] at hτ
      cases hτ
      exact ⟨.inl ⟨rfl, fun x _ _ _ => hzero x⟩, fun _ _ => rfl⟩
    | some n =>
      have hplace : (p.nodes none)[0]? = some n := by rw [← head?_eq_getElem?, hfirst]
      exact atPeace_of_settled h hw hd ⟨hplace, hzero _, fun x _ _ _ => hzero x⟩ hτ
  refine ⟨τ, hshows, hpeace.1, fun x hx => ?_⟩
  rw [hpeace.2 x (h.input_undriven hw hx).1, hzero x]
  exact truncate_zero _

theorem Reached.set (hr : Reached d rs p s τ) {x : Signal} (hx : x ∈ portSignals rs .input)
    {v : UInt64} (hs : after (set x v) s = .ok s') :
    ∃ τ', Reached d rs p s' τ' ∧ d.Keeps (τ.set x (truncate v x.bits)) τ' := by
  obtain ⟨hcomb, hsync⟩ := h.input_undriven hw hx
  obtain ⟨τ', hτ', hshows⟩ := (hr.shows.set (h.feedForward hw) hcomb hsync v).ok_of_left hs
  have hpeace : AtPeace d p τ' ∧ d.Keeps (τ.set x (truncate v x.bits)) τ' := by
    obtain ⟨rfl, hidle⟩ | ⟨i, n, e, hrest⟩ := hr.peace
    · rw [h.settled_finish] at hτ'
      cases hτ'
      refine ⟨.inl ⟨rfl, fun y hc hs hi => ?_⟩, fun _ _ => rfl⟩
      have hne : y ≠ x := by
        rintro rfl
        exact hi (h.resources ▸ hx)
      rw [get_set, if_neg hne, hidle y hc hs hi]
    · obtain ⟨e', τ'', -, hτ'', hrest', hk⟩ := h.settles_set hw hd hrest hx (truncate v x.bits)
      rw [hτ'] at hτ''
      cases hτ''
      exact ⟨.inr ⟨i, n, e', hrest'⟩, hk⟩
  refine ⟨τ', ⟨hshows, hpeace.1, fun y hy => ?_⟩, hpeace.2⟩
  rw [hpeace.2 y (h.input_undriven hw hy).1, get_set]
  split
  · rename_i hyx
    rw [hyx, truncate_truncate]
  · exact hr.range y hy

end

theorem Resting.step (hd : d.Indexable) (hr : Resting d p i n e τ) {υ : Valuation}
    (hυ : edge d.fragment τ = .ok υ) :
    ∃ n', Poised d p (d.machine.follow i n.next e.jump) n' υ ∧ AfterEdge d i n e τ υ := by
  have hfault := h.faultless_of_edge hd hr.node hr.effect hr.atRest hυ
  obtain ⟨υ', n', hυ', hp, hafter⟩ := h.poised_of_edge hd hr hfault
  rw [hυ] at hυ'
  cases hυ'
  exact ⟨n', hp, hafter⟩

theorem Reached.step (hw : Wired rs base) (hd : d.Indexable) (hr : Reached d rs p s τ)
    (hs : after step s = .ok s') :
    ∃ υ τ', edge d.fragment τ = .ok υ ∧ Reached d rs p s' τ' ∧ d.Keeps υ τ' := by
  obtain ⟨τ', hτ', hshows⟩ := (hr.shows.step (h.feedForward hw)).ok_of_left hs
  obtain ⟨υ, hυ, hτ'⟩ := bind_eq_ok.mp hτ'
  have hpeace : AtPeace d p τ' ∧ d.Keeps υ τ' ∧
      ∀ x ∈ portSignals rs .input, υ.get x = τ.get x := by
    obtain ⟨rfl, hidle⟩ | ⟨i, n, e, hrest⟩ := hr.peace
    · rw [h.edge_finish hw hd hidle] at hυ
      cases hυ
      rw [h.settled_finish] at hτ'
      cases hτ'
      exact ⟨.inl ⟨rfl, hidle⟩, fun _ _ => rfl, fun _ _ => rfl⟩
    · obtain ⟨n', hp, hafter⟩ := hrest.step h hd hυ
      obtain ⟨hpeace, hk⟩ := atPeace_of_settled h hw hd hp hτ'
      exact ⟨hpeace, hk, fun x hx => hafter.keeps x (h.input_undriven hw hx).2⟩
  refine ⟨υ, τ', hυ, ⟨hshows, hpeace.1, fun x hx => ?_⟩, hpeace.2.1⟩
  rw [hpeace.2.1 x (h.input_undriven hw hx).1, hpeace.2.2 x hx, hr.range x hx]

/-- **Every reachable state is at rest.** -/
theorem Design.Reaches.reached (hw : Wired rs base) (hd : d.Indexable) (hs : d.Reaches s) :
    ∃ τ, Reached d rs p s τ := by
  induction hs with
  | new start => exact reached_new h hw hd start
  | set _ input set ih =>
    obtain ⟨τ, hr⟩ := ih
    obtain ⟨τ', hr', -⟩ := hr.set h hw hd (h.resources ▸ input) set
    exact ⟨τ', hr'⟩
  | step _ step ih =>
    obtain ⟨τ, hr⟩ := ih
    obtain ⟨υ, τ', -, hr', -⟩ := hr.step h hw hd step
    exact ⟨τ', hr'⟩

end Reach

/-! ### What an active resource tells -/

namespace Lowering

def Duty.resource? : Duty → Option Resource
  | .act (.send c _ _) => some (.sink c)
  | .act (.receive c _ _) => some (.source c)
  | .act (.store _) => none
  | .guard .. => none

theorem Duty.resource?_eq_sink {duty : Duty} {c : Channel} :
    duty.resource? = some (.sink c) ↔ ∃ data tag, duty = .act (.send c data tag) := by
  cases duty <;> simp [resource?]

theorem Duty.resource?_eq_source {duty : Duty} {c : Channel} :
    duty.resource? = some (.source c) ↔ ∃ id source, duty = .act (.receive c id source) := by
  cases duty <;> simp [resource?]

theorem Duty.Sound.resource_of_output {rs : List Resource} {w : Workshop} {n : Node}
    (h : n.duty.Sound rs w) {x : Signal} (hx : x ∈ n.duty.outputs) :
    ∃ r ∈ rs, n.duty.resource? = some r ∧ ⟨x, .output⟩ ∈ r.ports := by
  obtain ⟨label, next, duty⟩ := n
  cases duty with
  | store | guard => simp [outputs] at hx
  | send c data tag =>
    refine ⟨.sink c, h.1, rfl, ?_⟩
    simp only [outputs, mem_cons, not_mem_nil, or_false] at hx
    obtain rfl | rfl := hx <;> simp [ports]
  | receive c id source =>
    refine ⟨.source c, h.1, rfl, ?_⟩
    obtain rfl := mem_singleton.mp hx
    simp [ports]

end Lowering

namespace Resting

variable {d : Design} {rs : List Resource} {base : Nat} {p : Plan} {w : Workshop}
  {τ : Valuation} {i : Nat} {n : Node} {e : Effect} {c : Channel} (h : d.Realizes rs base p w)

include h

theorem mem_outputs (hr : Resting d p i n e τ) {x : Signal} (hx : x ∈ portSignals rs .output)
    (hone : τ.get x ≠ 0) : x ∈ n.duty.outputs := by
  rw [hr.atRest.output x (h.resources ▸ hx)] at hone
  cases hl : e.outputs.reverse.lookup x with
  | none => simp [hl] at hone
  | some v =>
    obtain ⟨front, back, heq, -⟩ := lookup_eq_some_iff.mp hl
    have hmem : (x, v) ∈ e.outputs := mem_reverse.mp (by simp [heq])
    exact (effect_within hr.effect).2.1 _ hmem

/-- A resource with an output port that is not at zero is the one that the current node uses. -/
theorem resource_eq (hw : Wired rs base) (hr : Resting d p i n e τ) {r : Resource} (hmem : r ∈ rs)
    {x : Signal} (hx : ⟨x, .output⟩ ∈ r.ports) (hone : τ.get x ≠ 0) :
    n.duty.resource? = some r := by
  have hout : x ∈ portSignals rs .output :=
    mem_portSignals.mpr (mem_flatMap.mpr ⟨r, hmem, hx⟩)
  have hsound := h.sound.of_mem_nodes (mem_of_getElem? hr.node)
  obtain ⟨r', hr', hres, hx'⟩ := hsound.resource_of_output (hr.mem_outputs h hout hone)
  rw [hres, hw.resource_eq hmem hr' hx hx' rfl]

/-- **Waiting changes nothing**: a state that loads nothing and goes back to itself settles again
with the same values. -/
theorem waits (hw : Wired rs base) (hd : d.Indexable) (hr : Resting d p i n e τ)
    (hloads : e.loads = []) (hjump : e.jump = some n.label) :
    ∃ τ', (edge d.fragment τ >>= settled d.fragment) = .ok τ' ∧ Resting d p i n e τ' ∧
      d.Keeps τ τ' := by
  have hfault : d.Faultless e := fun id s hl => by simp [hloads] at hl
  obtain ⟨υ, n', hυ, hp, hafter⟩ := h.poised_of_edge hd hr hfault
  have hfollow : d.machine.follow i n.next e.jump = i := by
    simp [Machine.follow, hjump, h.index?_label hr.node]
  rw [hfollow] at hp
  obtain rfl : n = n' := Option.some.inj (hr.node.symm.trans hp.node)
  have hkeeps : d.Keeps τ υ := by
    intro x _
    by_cases hsync : x ∈ targets d.fragment.sync
    · obtain rfl | hst := h.sync_targets hsync
      · rw [hp.state, hr.state]
      · obtain ⟨id, hid⟩ := mem_iff_getElem?.mp hst
        obtain ⟨r, hr', rfl⟩ := h.exists_register hid
        rw [hafter.storage id r hr', hloads]
        rfl
    · exact hafter.keeps x hsync
  have he : n.effect υ = .ok e := by rw [h.effect_of_keeps hw hr.node hkeeps, hr.effect]
  obtain ⟨τ', hτ', hr', hk⟩ := h.settles hw hd hp he
  refine ⟨τ', by rw [hυ]; exact hτ', hr', fun x hx => ?_⟩
  rw [hk x hx, hkeeps x hx]

end Resting

/-! ### Safety -/

/-- A resource takes part in a transfer. -/
def Resource.Active (s : Simulator) : Resource → Prop
  | .sink c => s.get c.stb = 1
  | .source c => s.get c.ack = 1
  | .device _ => False

/-- The machine is in the same state and no register has changed. -/
def Design.Holds (d : Design) (s s' : Simulator) : Prop :=
  s'.get d.machine.state = s.get d.machine.state ∧
    ∀ r ∈ d.registers, s'.get r.storage = s.get r.storage

/-- What holds of the handshakes in a state and over the next edge. -/
structure Design.Safe (d : Design) (s : Simulator) : Prop where
  /-- At most one resource is active. -/
  exclusive : ∀ r ∈ d.resources, ∀ r' ∈ d.resources, r.Active s → r'.Active s → r = r'
  /-- What a sink offers stays until it is acknowledged. -/
  offer : ∀ c, .sink c ∈ d.resources → s.get c.stb = 1 → s.get c.ack = 0 →
    ∃ s', after step s = .ok s' ∧ d.Holds s s' ∧
      s'.get c.stb = 1 ∧ s'.get c.data = s.get c.data
  /-- A source waits until it is offered something. -/
  wait : ∀ c, .source c ∈ d.resources → s.get c.ack = 1 → s.get c.stb = 0 →
    ∃ s', after step s = .ok s' ∧ d.Holds s s'
  /-- A register keeps its value or takes that of one of its sources, and the data of a channel only
  in a transfer. -/
  capture : ∀ s', after step s = .ok s' → ∀ r ∈ d.registers,
    s'.get r.storage = s.get r.storage ∨ ∃ v ∈ d.bank.sourceValues r,
      s'.get r.storage = truncate (denote s.values v) r.storage.bits ∧
        ∀ c, .source c ∈ d.resources → v = .signal c.data → s.get c.ack = 1 ∧ s.get c.stb = 1

section Safe

variable {d : Design} {rs : List Resource} {base : Nat} {p : Plan} {w : Workshop}
  {τ : Valuation} {i : Nat} {n : Node} {e : Effect} {s s' : Simulator} {c : Channel}

theorem Reached.exists_port (hr : Reached d rs p s τ) {r : Resource} (hactive : r.Active s) :
    ∃ x, ⟨x, .output⟩ ∈ r.ports ∧ τ.get x ≠ 0 := by
  have hone : ∀ x, s.get x = 1 → τ.get x ≠ 0 := by
    intro x hx
    rw [← hr.shows.values x, show s.values.get x = 1 from hx]
    decide
  cases r with
  | sink c => exact ⟨c.stb, by simp [ports], hone _ hactive⟩
  | source c => exact ⟨c.ack, by simp [ports], hone _ hactive⟩
  | device d => exact hactive.elim

theorem Reached.uses (h : d.Realizes rs base p w) (hw : Wired rs base) (hr : Reached d rs p s τ)
    {r : Resource} (hmem : r ∈ rs) (hactive : r.Active s) :
    ∃ i n e, Resting d p i n e τ ∧ n.duty.resource? = some r := by
  obtain ⟨x, hx, hone⟩ := hr.exists_port hactive
  obtain ⟨rfl, hidle⟩ | ⟨i, n, e, hrest⟩ := hr.peace
  · have hout : x ∈ portSignals rs .output :=
      mem_portSignals.mpr (mem_flatMap.mpr ⟨r, hmem, hx⟩)
    exact absurd (h.output_finish hw hidle hout) hone
  · exact ⟨i, n, e, hrest, hrest.resource_eq h hw hmem hx hone⟩

theorem Reached.waits (h : d.Realizes rs base p w) (hw : Wired rs base) (hd : d.Indexable)
    (hr : Reached d rs p s τ) (hrest : Resting d p i n e τ) (hloads : e.loads = [])
    (hjump : e.jump = some n.label) :
    ∃ s', Simulator.after Simulator.step s = .ok s' ∧ d.Holds s s' ∧
      ∀ x ∈ portSignals rs .output, s'.get x = s.get x := by
  obtain ⟨τ', hτ', hrest', hk⟩ := hrest.waits h hw hd hloads hjump
  obtain ⟨s', hs', hshows⟩ := (hr.shows.step (h.feedForward hw)).ok_of_right hτ'
  have hsame : ∀ x, x ∉ targets d.fragment.comb → s'.get x = s.get x := fun x hx =>
    (hshows.values x).trans ((hk x hx).trans (hr.shows.values x).symm)
  refine ⟨s', hs', ⟨hsame _ (h.state_not_comb hw), fun r hmem => ?_⟩, fun x hx => ?_⟩
  · obtain ⟨id, hid⟩ := mem_iff_getElem?.mp hmem
    exact hsame _ (h.storage_not_comb hw (mem_of_getElem? (h.storages_getElem? hid)))
  · have hout : x ∈ portSignals d.resources .output := h.resources ▸ hx
    have hvalue : τ'.get x = τ.get x := by
      rw [hrest'.atRest.output x hout, hrest.atRest.output x hout]
    exact (hshows.values x).trans (hvalue.trans (hr.shows.values x).symm)

theorem Simulation.eq_one_of_truncate {v : UInt64} (h : truncate v 1 = v) (hne : v ≠ 0) :
    v = 1 := by
  have hlt : v.toNat < 2 := by
    rw [← h, toNat_truncate (by decide) (by decide)]
    exact Nat.mod_lt _ (by decide)
  have hpos : v.toNat ≠ 0 := fun h0 => hne (UInt64.toNat_inj.mp h0)
  exact UInt64.toNat_inj.mp (by show v.toNat = 1; omega)

variable (h : d.Realizes rs base p w) (hw : Wired rs base)

include h hw

theorem Reached.exclusive (hr : Reached d rs p s τ) {r r' : Resource} (hmem : r ∈ rs)
    (hmem' : r' ∈ rs) (hactive : r.Active s) (hactive' : r'.Active s) : r = r' := by
  obtain ⟨i, n, e, hrest, hres⟩ := hr.uses h hw hmem hactive
  obtain ⟨x, hx, hone⟩ := hr.exists_port hactive'
  have hres' := hrest.resource_eq h hw hmem' hx hone
  exact Option.some.inj (hres.symm.trans hres')

theorem Reached.offer (hd : d.Indexable) (hr : Reached d rs p s τ) (hc : .sink c ∈ rs)
    (hstb : s.get c.stb = 1) (hack : s.get c.ack = 0) :
    ∃ s', Simulator.after Simulator.step s = .ok s' ∧ d.Holds s s' ∧
      s'.get c.stb = 1 ∧ s'.get c.data = s.get c.data := by
  obtain ⟨i, n, e, hrest, hres⟩ := hr.uses h hw hc hstb
  obtain ⟨data, tag, hduty⟩ := resource?_eq_sink.mp hres
  have heffect := hrest.effect
  have hzero : τ.get c.ack = 0 := (hr.shows.values c.ack).symm.trans hack
  simp only [Node.effect, hduty, Act.effect, hzero, if_true] at heffect
  obtain ⟨v, -, he⟩ := bind_eq_ok.mp heffect
  cases he
  obtain ⟨s', hs', hholds, hout⟩ := hr.waits h hw hd hrest rfl rfl
  obtain ⟨hdata, hstb', -⟩ := sink_mem hc
  exact ⟨s', hs', hholds, (hout _ hstb').trans hstb, hout _ hdata⟩

theorem Reached.wait (hd : d.Indexable) (hr : Reached d rs p s τ) (hc : .source c ∈ rs)
    (hack : s.get c.ack = 1) (hstb : s.get c.stb = 0) :
    ∃ s', Simulator.after Simulator.step s = .ok s' ∧ d.Holds s s' := by
  obtain ⟨i, n, e, hrest, hres⟩ := hr.uses h hw hc hack
  obtain ⟨id, source, hduty⟩ := resource?_eq_source.mp hres
  have heffect := hrest.effect
  have hzero : τ.get c.stb = 0 := (hr.shows.values c.stb).symm.trans hstb
  simp only [Node.effect, hduty, Act.effect, hzero, if_true] at heffect
  cases heffect
  obtain ⟨s', hs', hholds, -⟩ := hr.waits h hw hd hrest rfl rfl
  exact ⟨s', hs', hholds⟩

/-- What a channel delivers is loaded in a transfer only. -/
theorem Resting.transfer (hrest : Resting d p i n e τ)
    (hrange : ∀ x ∈ portSignals rs .input, truncate (τ.get x) x.bits = τ.get x)
    {l : RegisterId × SourceId} (hl : l ∈ e.loads) (hc : .source c ∈ rs)
    (hsource : d.source l.2 = .signal c.data) : τ.get c.ack = 1 ∧ τ.get c.stb = 1 := by
  have hload := (effect_within hrest.effect).1 hl
  have hsound := h.sound.of_mem_nodes (mem_of_getElem? hrest.node)
  have heffect := hrest.effect
  have houtput := hrest.atRest.output c.ack (h.resources ▸ (source_mem hc).2.2)
  obtain ⟨label, next, duty⟩ := n
  cases duty with
  | guard test yes no => simp [Duty.loads] at hload
  | send c' data tag => simp [Duty.loads] at hload
  | store loads =>
    -- A stored value reads registers only, so it is not what a channel delivers.
    obtain ⟨v, hrec, hbuilt⟩ := hsound l hload
    rw [← h.source_eq hrec, hsource] at hbuilt
    have htag := h.tidy.storage_tag hbuilt
    have hlt := hw.tag_lt (source_mem hc).1
    omega
  | receive c' id source =>
    obtain rfl := mem_singleton.mp hload
    have hdata : Value.signal c'.data = .signal c.data := by
      rw [← hsource, h.source_eq hsound.2]
    have heq : Resource.source c' = .source c := by
      have hport : ∀ b : Channel, ⟨b.data, .input⟩ ∈ (Resource.source b).ports := by
        simp [Resource.ports]
      exact hw.resource_eq hsound.1 hc (hport c') (hport c) (Value.signal.inj hdata)
    cases heq
    by_cases hstb : τ.get c.stb = 0
    · simp only [Node.effect, Act.effect, hstb, if_true] at heffect
      cases heffect
      simp at hl
    · cases heffect
      refine ⟨by simpa using houtput, eq_one_of_truncate ?_ hstb⟩
      rw [← (hw.strobes c (.inr hc)).1]
      exact hrange _ (source_mem hc).2.1

theorem Reached.capture (hd : d.Indexable) (hr : Reached d rs p s τ)
    (hs : Simulator.after Simulator.step s = .ok s') {r : Register} (hmem : r ∈ d.registers) :
    s'.get r.storage = s.get r.storage ∨ ∃ v ∈ d.bank.sourceValues r,
      s'.get r.storage = truncate (denote s.values v) r.storage.bits ∧
        ∀ c, .source c ∈ rs → v = .signal c.data → s.get c.ack = 1 ∧ s.get c.stb = 1 := by
  obtain ⟨id, hid⟩ := mem_iff_getElem?.mp hmem
  obtain ⟨υ, τ', hυ, hr', hk⟩ := hr.step h hw hd hs
  have hafter : s'.get r.storage = υ.get r.storage := (hr'.shows.values _).trans
    (hk _ (h.storage_not_comb hw (mem_of_getElem? (h.storages_getElem? hid))))
  have hbefore : s.get r.storage = τ.get r.storage := hr.shows.values _
  obtain ⟨rfl, hidle⟩ | ⟨i, n, e, hrest⟩ := hr.peace
  · rw [h.edge_finish hw hd hidle] at hυ
    cases hυ
    exact .inl (hafter.trans hbefore.symm)
  · obtain ⟨n', -, hedge⟩ := hrest.step h hd hυ
    have hstorage := hedge.storage id r hid
    cases hl : e.loads.reverse.lookup id with
    | none =>
      left
      rw [hafter, hbefore, hstorage, hl]
      rfl
    | some source =>
      right
      obtain ⟨hload, hrec⟩ := h.recorded_of_lookup hrest.node hrest.effect hl
      refine ⟨d.source source, h.source_mem_sourceValues hid hrec, ?_, fun c hc hsource => ?_⟩
      · rw [hafter, hstorage, hl, Option.map_some, Option.getD_some,
          Value.denote_congr fun x _ => (hr.shows.values x)]
      · obtain ⟨hack, hstb⟩ := hrest.transfer h hw hr.range hload hc hsource
        exact ⟨(hr.shows.values _).trans hack, (hr.shows.values _).trans hstb⟩

end Safe

/-- **The handshake is safe against any environment.** -/
theorem handshake_safe (settings : Project.Settings) (text : List Char) (d : Design)
    (h : (Command.compileText settings text).result = .ok d) (hd : d.Indexable) (s : Simulator)
    (hs : d.Reaches s) : d.Safe s := by
  obtain ⟨w', hgives⟩ := Project.gives_of_compileText h
  have hw := Project.wired_options settings firstTag
  obtain ⟨-, -, -, -, -, p, w, -, -, -, -, -, hrealizes⟩ :=
    realizes_of_compile rfl hw hgives
  obtain ⟨τ, hr⟩ := hs.reached hrealizes hw hd
  have hrs := hrealizes.resources
  exact {
    exclusive := fun r hmem r' hmem' => hr.exclusive hrealizes hw (hrs ▸ hmem) (hrs ▸ hmem')
    offer := fun c hc => hr.offer hrealizes hw hd (hrs ▸ hc)
    wait := fun c hc => hr.wait hrealizes hw hd (hrs ▸ hc)
    capture := by
      rw [hrs]
      exact fun s' hs' r hmem => hr.capture hrealizes hw hd hs' hmem }

/-- The number that the relay offers stays for as long as nobody takes it. -/
theorem relay_offer_stays : ∃ d s s',
    (compileText relaySettings relayText).result = .ok d ∧ d.Indexable ∧
      d.Reaches s ∧ s.get relaySink.stb = 1 ∧ s.get relaySink.ack = 0 ∧
        after step s = .ok s' ∧ s'.get relaySink.stb = 1 ∧
          s'.get relaySink.data = 201 := by
  obtain ⟨d, hd, hindex, s, hs, hone, hzero, hvalue⟩ :
      ∃ d, (compileText relaySettings relayText).result = .ok d ∧ d.Indexable ∧
        ∃ s, play d.fragment relayHistory = .ok s ∧ s.get relaySink.stb = 1 ∧
          s.get relaySink.ack = 0 ∧ s.get relaySink.data = 201 := by
    decide +kernel
  obtain ⟨_, _, hrealizes⟩ := realizes_of_compileText hd
  have hresources : d.resources = [.sink relaySink, .source relaySource] :=
    hrealizes.resources
  have hsink : .sink relaySink ∈ d.resources := by simp [hresources]
  have hreaches : d.Reaches s := by
    refine .of_play (fun x v hx => ?_) hs
    simp only [relayHistory, List.mem_cons, reduceCtorEq, Event.put.injEq, List.not_mem_nil,
      or_false, false_or] at hx
    rw [hresources]
    obtain ⟨rfl, -⟩ | ⟨rfl, -⟩ := hx <;> decide
  obtain ⟨s', hs', -, hone', hkept⟩ :=
    (handshake_safe _ _ d hd hindex s hreaches).offer _ hsink hone hzero
  exact ⟨d, s, s', hd, hindex, hreaches, hone, hzero, hs', hone', hkept.trans hvalue⟩

end Sequencer
