import Sequencer.Proofs.Project.Resources
import Sequencer.Proofs.Simulation.Totality

/-!
# What is compiled is accepted

A program text is refused or becomes a design that can be simulated and written as a module. Only a
left shift by an amount of negative width can go wrong. Everything that can be done with a design is
a **session** of it.
-/

namespace Sequencer

open List
open Circuit Lowering Simulation Verilog Simulator Rig Project Command
open Command (compileText)
open Simulator (new step)

/-! ### Values without missing or empty parts -/

namespace Design

section Solid

variable {d : Design} {rs : List Resource} {base : Nat} {p : Plan} {w : Workshop}

variable (h : d.Realizes rs base p w) (hp : p.Solid) (hpool : ∀ v ∈ w.bank.pool.values, v.Solid)

include h hp hpool

theorem Realizes.solid :
    ∀ s ∈ walk d.fragment.comb ++ walk d.fragment.sync, ∀ v ∈ ownValues s, v.Solid := by
  intro s hs v hv
  obtain hs | hs := mem_append.mp hs
  · rw [h.comb_eq, machineLogic] at hs
    split at hs
    · simp [Fragment.empty, walk] at hs
    simp only [walk, Stmt.walk, walkOption, append_nil, cons_append, nil_append,
      mem_cons, mem_walkArms] at hs
    obtain rfl | rfl | ⟨arm, harm, hs⟩ := hs
    · obtain rfl := mem_singleton.mp hv
      trivial
    · obtain rfl := mem_singleton.mp hv
      trivial
    obtain ⟨n, hn, hbody⟩ := (mem_armsFrom harm).2
    rw [hbody] at hs
    have hduty := hp _ (Plan.duty_mem_duties hn)
    obtain ⟨l, hs⟩ | ⟨l, -, hs⟩ | hholds := Node.mem_walk_body hs
    · obtain rfl := mem_singleton.mp hs
      obtain rfl := mem_singleton.mp hv
      exact Int.le_max_right _ _
    · obtain rfl := mem_singleton.mp hs
      obtain rfl := mem_singleton.mp hv
      exact Int.le_max_right _ _
    · obtain ⟨label, next, duty⟩ := n
      cases hholds <;> obtain rfl := mem_singleton.mp hv
      case data | test => exact hduty
      case wait => exact ⟨trivial, Int.le_refl 1⟩
      case arrival => trivial
      case strobe | ready => exact Int.le_refl 1
  · obtain ⟨r, hr, rfl | ⟨u, hu, rfl⟩⟩ | ⟨-, rfl⟩ := h.mem_walk_sync hs
    · obtain rfl := mem_singleton.mp hv
      trivial
    · obtain rfl := mem_singleton.mp hv
      exact hpool _ (h.sourceValues_mem hr hu)
    · obtain rfl := mem_singleton.mp hv
      trivial

theorem Realizes.whole :
    ∀ s ∈ walk d.fragment.comb ++ walk d.fragment.sync, ∀ v ∈ ownValues s, v.Whole :=
  fun s hs v hv => (h.solid hp hpool s hs v hv).whole

end Solid

/-! ### Sessions -/

/-- **What can be done with a design.** The rig is a simulator of the design with the bench that
was put around it, at first one of no resources. The flag tells whether somebody other than the
bench may have set the strobe of one of its sources. -/
inductive Session (d : Design) : (touched : Bool) → Rig → Prop
  | new {s : Simulator} (start : new d.fragment = .ok s) : Session d false ⟨⟨[], []⟩, s⟩
  | set {t : Bool} {r : Rig} {x : Signal} {v : UInt64} {s : Simulator} (before : Session d t r)
      (input : ⟨x, .input⟩ ∈ d.ports) (done : set x v r.sim = (.ok (), s)) :
      Session d (t || r.bench.feeds.any (·.channel.stb = x)) ⟨r.bench, s⟩
  | step {t : Bool} {r : Rig} {changed : Bool} {s : Simulator} (before : Session d t r)
      (done : step r.sim = (.ok changed, s)) : Session d t ⟨r.bench, s⟩
  | reset {t : Bool} {r : Rig} {s : Simulator} (before : Session d t r)
      (done : reset r.sim = (.ok (), s)) : Session d t ⟨r.bench, s⟩
  | bench {t : Bool} {r r' : Rig} {inputs : List (String × List UInt64)} (before : Session d t r)
      (done : new r.sim d.resources inputs = .ok r') : Session d false r'
  | run {t : Bool} {r : Rig} {limit : Int} (before : Session d t r)
      (done : (r.run limit).1.fault = none) : Session d t (r.run limit).2
  /-- A bench from elsewhere is used again. -/
  | exchange {t u : Bool} {r r' : Rig} (before : Session d t r) (other : Session d u r') :
      Session d true ⟨r'.bench, r.sim⟩

/-- **A design that both backends accept**: it can be written with its ports, and in every session
every call succeeds. Only where a strobe has been touched can a run fail, namely if it has cycles
to go and something is taken from a source that has nothing. -/
structure Accepted (d : Design) : Prop where
  written : ∀ name digest, ∃ m, ofFragment name digest d.ports d.fragment = .ok m
  simulated : ∃ s, new d.fragment = .ok s
  set : ∀ t r, d.Session t r → ∀ x, ⟨x, .input⟩ ∈ d.ports → ∀ v,
    ∃ s, Simulator.set x v r.sim = (.ok (), s)
  step : ∀ t r, d.Session t r → ∃ changed s, step r.sim = (.ok changed, s)
  reset : ∀ t r, d.Session t r → ∃ s, Simulator.reset r.sim = (.ok (), s)
  bench : ∀ t r, d.Session t r → ∀ inputs : List (String × List UInt64),
    (∀ i ∈ inputs, ∃ q ∈ d.resources, q.name = i.1) →
      ∃ r', Rig.new r.sim d.resources inputs = .ok r'
  run : ∀ r, d.Session false r → ∀ limit, (r.run limit).1.fault = none
  touched : ∀ t r, d.Session t r → ∀ limit,
    (r.run limit).1.fault = none ↔ limit ≤ r.sim.cycle ∨ r.Quiet

section Accepted

variable {d : Design} {rs : List Resource} {base : Nat} {p : Plan} {w : Workshop}

theorem fit_of_later {f : Fragment} {r : Rig} {s : Simulator} {xs : List Signal} (h : r.Fit f)
    (hl : Simulator.Later xs r.sim s) :
    (Rig.mk r.bench s).Fit f ∧
      ((∀ feed ∈ r.bench.feeds, feed.channel.stb ∉ xs) → r.Silent → (Rig.mk r.bench s).Silent) :=
  ⟨⟨h.shows.later hl, h.distinct, h.free⟩, fun hxs hsilent feed hfeed hq =>
    (hl.values _ (hxs feed hfeed)).trans (hsilent feed hfeed hq)⟩

theorem stb_mem_inputs {b : Bench} {feed : Feed} (h : feed ∈ b.feeds) :
    feed.channel.stb ∈ b.inputs :=
  mem_append_right _ (mem_flatMap.mpr ⟨feed.channel, mem_map_of_mem h, by simp⟩)

/-- What holds in every session: the bench has inputs of the design to drive, and strobes that
nobody else touched are low where there is nothing to deliver. -/
theorem Session.spec (hd : d.Realizes rs base p w) (hw : Wired rs base) {t : Bool} {r : Rig}
    (h : d.Session t r) : r.Fit d.fragment ∧ (t = false → r.Silent) := by
  have hfree : ∀ x ∈ portSignals d.resources .input, ¬ Driven d.fragment x := fun x hx =>
    not_or.mpr (hd.input_undriven hw (hd.resources ▸ hx))
  induction h with
  | new start =>
    exact ⟨⟨(Simulator.Used.new start).shows, .nil, by simp [Bench.inputs]⟩,
      fun _ => by simp [Rig.Silent]⟩
  | @set t r x v s before input done ih =>
    obtain ⟨hfit, hsilent⟩ := ih
    obtain ⟨hfit', hkeeps⟩ := fit_of_later hfit (set_spec hfit.shows done)
    refine ⟨hfit', fun hflag => ?_⟩
    rw [Bool.or_eq_false_iff, any_eq_false] at hflag
    refine hkeeps (fun feed hfeed hmem => ?_) (hsilent hflag.1)
    obtain hx | hcomb := mem_cons.mp hmem
    · exact hflag.2 feed hfeed (by simpa using hx)
    · exact hfit.free _ (stb_mem_inputs hfeed) (.inl hcomb)
  | step before done ih =>
    obtain ⟨hfit, hsilent⟩ := ih
    obtain ⟨hfit', hkeeps⟩ := fit_of_later hfit (step_spec hfit.shows done)
    refine ⟨hfit', fun hflag => hkeeps (fun feed hfeed hmem => ?_) (hsilent hflag)⟩
    exact hfit.free _ (stb_mem_inputs hfeed) (mem_append.mp hmem).symm
  | reset before done ih =>
    obtain ⟨hfit, hsilent⟩ := ih
    obtain ⟨hfit', hkeeps⟩ := fit_of_later hfit (reset_spec hfit.shows done).1
    refine ⟨hfit', fun hflag => hkeeps (fun feed hfeed hmem => ?_) (hsilent hflag)⟩
    exact hfit.free _ (stb_mem_inputs hfeed) (mem_append.mp hmem).symm
  | bench before done ih =>
    have hnodup : ((d.resources.flatMap Resource.ports).map Port.signal).Nodup := by
      rw [hd.resources]
      exact hw.signals_nodup
    obtain ⟨hfit, hsilent⟩ := fit_new ih.1.shows hnodup hfree done
    exact ⟨hfit, fun _ => hsilent⟩
  | run before done ih =>
    obtain ⟨hfit, hkeeps⟩ := ih.1.run done
    exact ⟨hfit, fun hflag => hkeeps (ih.2 hflag)⟩
  | exchange before other ih ih' =>
    exact ⟨⟨ih.1.shows, ih'.1.distinct, ih'.1.free⟩,
      fun hflag => absurd hflag.symm Bool.false_ne_true⟩

/-- **Which designs are accepted**: those in which no left shift has an amount of negative width. -/
theorem Realizes.accepted_iff (h : d.Realizes rs base p w) (hw : Wired rs base) (hp : p.Solid)
    (hpool : ∀ v ∈ w.bank.pool.values, v.Solid) : d.Accepted ↔ Measured d.fragment := by
  have hfinished := h.finished hw (h.whole hp hpool)
  refine ⟨fun haccepted => (hfinished.exists_module_iff "" "").mp (haccepted.written "" ""),
    fun hmeasured => ?_⟩
  have hlively := lively_of_finished hfinished (h.feedForward hw) hmeasured
  have hfree : ∀ x ∈ portSignals d.resources .input, ¬ Driven d.fragment x := fun x hx =>
    not_or.mpr (h.input_undriven hw (h.resources ▸ hx))
  exact {
    written := fun name digest => (hfinished.exists_module_iff name digest).mpr hmeasured
    simulated := hlively.settles.new hfinished.noMarker hfinished.domains
    set := fun t r hr x hx v =>
      hlively.set (hr.spec h hw).1.shows (hfree x (mem_portSignals.mpr hx)) v
    step := fun t r hr => hlively.step (hr.spec h hw).1.shows
    reset := fun t r hr => hlively.settles.reset (hr.spec h hw).1.shows
    bench := fun t r hr inputs hinputs =>
      exists_new hlively (hr.spec h hw).1.shows (h.resources ▸ hw.channels) hfree hinputs
    run := by
      intro r hr limit
      obtain ⟨hfit, hsilent⟩ := hr.spec h hw
      exact (fault_run_iff hlively hfit limit).mpr (.inr (hsilent rfl).quiet)
    touched := fun t r hr limit => fault_run_iff hlively (hr.spec h hw).1 limit }

end Accepted

end Design

/-! ### Programs -/

theorem solid_of_compileText {s : Settings} {text : List Char} {d : Design}
    (h : (compileText s text).result = .ok d) :
    ∃ p w, d.Realizes (s.options firstTag).1.resources (s.options firstTag).2 p w ∧ p.Solid ∧
      ∀ v ∈ w.bank.pool.values, v.Solid := by
  obtain ⟨_, hgives⟩ := gives_of_compileText h
  obtain ⟨m, name, body, env, env', p, w, hm, hbody, henv, hplain, hlowers, hrealizes⟩ :=
    realizes_of_compile rfl (wired_options s firstTag) hgives
  have hmaintains :=
    hlowers.keeps hplain (open_env rfl henv _) (linked_of_readProgram hm hbody)
  refine ⟨p, w, hrealizes, hmaintains.solid, fun v hv => ?_⟩
  exact (hmaintains.shop.sources v hv).resolve_left (by simp [Workshop.new, Bank.empty, Pool.empty])

theorem accepted_of_compileText {s : Settings} {text : List Char} {d : Design}
    (h : (compileText s text).result = .ok d) : d.Accepted ↔ Measured d.fragment := by
  obtain ⟨p, w, hrealizes, hsolid, hpool⟩ := solid_of_compileText h
  exact hrealizes.accepted_iff (wired_options s firstTag) hsolid hpool

/-- **When nothing fails**: a text is refused or becomes a design that both backends accept,
exactly if no left shift by an amount of negative width is sliced in it or left in its design. -/
theorem accepted_or_refused_iff (s : Project.Settings) (text : List Char) :
    ((∀ e, (compileText s text).result = .error e → e.isRefusal = true) ∧
      ∀ d, (compileText s text).result = .ok d → d.Accepted) ↔
    ((compileText s text).result ≠ .error .unmeasurable ∧
      ∀ d, (compileText s text).result = .ok d → Measured d.fragment) := by
  refine and_congr ⟨fun h hbad => ?_, fun h e he => ?_⟩
    (forall₂_congr fun d hd => accepted_of_compileText hd)
  · exact absurd (h _ hbad) (by decide)
  · refine (Project.expected_of_compileText he).resolve_right ?_
    rintro rfl
    exact h he

/-- A program that shifts by a sum of two registers as wide as can be. -/
def stretchText : List Char :=
  ("def stretch():\n    a = Register(9223372036854775807)\n    b = Register(8)\n" ++
    "    b.store = a << (a + a)\n").toList

/-- **A shift that no backend accepts**: the design is simulated up to the first clock edge, and not
written at all. -/
theorem stretch_fails : ∃ d s, (compileText .empty stretchText).result = .ok d ∧
    new d.fragment = .ok s ∧ (step s).1 = .error .unmeasurable ∧
      ofFragment d.name "" d.ports d.fragment = .error .unmeasurable ∧ ¬ d.Accepted := by
  obtain ⟨d, hd, s, hs, hstep, hwrite⟩ : ∃ d, (compileText .empty stretchText).result = .ok d ∧
      ∃ s, new d.fragment = .ok s ∧ (step s).1 = .error .unmeasurable ∧
        ofFragment d.name "" d.ports d.fragment = .error .unmeasurable := by
    decide +kernel
  refine ⟨d, s, hd, hs, hstep, hwrite, fun h => ?_⟩
  obtain ⟨m, hm⟩ := h.written d.name ""
  cases hwrite.symm.trans hm

def takeText : List Char := "def take():\n    a = Register(8)\n    yield rx(a)\n".toList

def takeSettings : Settings :=
  { Project.Settings.empty with resources := [⟨"rx", "source", 8⟩] }

def takeSource : Channel := channelAt firstTag "rx" 8

/-- **A strobe that somebody else raises**: the bench has nothing to deliver, and its run fails. -/
theorem take_starves : ∃ d r, (compileText takeSettings takeText).result = .ok d ∧
    d.Session true r ∧ (r.run 10).1.fault = some (.emptyQueue "rx") := by
  obtain ⟨d, hd, hport, s, hs, r, hr, htouched, s', hs', hfault⟩ :
      ∃ d, (compileText takeSettings takeText).result = .ok d ∧
        ⟨takeSource.stb, .input⟩ ∈ d.ports ∧ ∃ s, new d.fragment = .ok s ∧
          ∃ r, new s d.resources [] = .ok r ∧
            r.bench.feeds.any (·.channel.stb = takeSource.stb) = true ∧
              ∃ s', after (set takeSource.stb 1) r.sim = .ok s' ∧
                (run 10 ⟨r.bench, s'⟩).1.fault = some (.emptyQueue "rx") := by
    decide +kernel
  obtain ⟨_, hset⟩ := after_eq_ok.mp hs'
  have hsession := ((Design.Session.new hs).bench hr).set hport hset
  rw [htouched] at hsession
  exact ⟨d, _, hd, hsession, hfault⟩

end Sequencer
