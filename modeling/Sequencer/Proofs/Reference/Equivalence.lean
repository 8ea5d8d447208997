import Sequencer.Proofs.Project.Resources
import Sequencer.Proofs.Reference.Step

/-!
# Compilation preserves meaning

A compiled design, simulated from reset, shows the same as the interpreter of its program, whatever
is put on the input ports; both fail in the same cycle and in the same way. `Mirrors` relates a
design at rest to a function in the same situation.
-/

namespace Sequencer.Reference

open List
open Circuit Lowering Simulation Valuation Simulator Project Command

/-! ### Whole runs -/

/-- A design at rest and a function in the same situation. -/
inductive Mirrors (d : Design) (rs : List Resource) (p : Plan) (w t : Workshop) (τ : Valuation)
    (s : Situation) : Prop
  | ended (plan : p = .finish) (todo : s.todo = .finish) (idle : d.Idle τ)
      (same : SameState rs w t τ s.values)
  | running {q : Plan} {i : Nat} {n : Node} {e : Effect} (resting : Resting d p i n e τ)
      (sound : q.Sound rs w) (doing : Matches w t q s.todo) (placed : Placed p q i n)
      (same : SameState rs w t τ s.values)

section Run

variable {d : Design} {rs : List Resource} {base : Nat} {p q : Plan} {w t : Workshop}
  {σ τ : Valuation} {i : Nat} {n : Node} {e : Effect} {s : Situation}

section

variable (h : d.Realizes rs base p w)

include h

variable (hw : Wired rs base)

include hw

theorem SameState.keeps {υ : Valuation} (hsame : SameState rs w t σ υ) (hk : d.Keeps σ τ) :
    SameState rs w t τ υ := by
  refine ⟨fun i x y hx hy => ?_, fun x hx => ?_⟩
  · rw [hk x (h.storage_not_comb hw (mem_of_getElem? hx)), hsame.registers i x y hx hy]
  · rw [hk x (h.input_undriven hw hx).1, hsame.inputs x hx]

theorem mirrors_of_settled (hd : d.Indexable) (hp : Poised d p i n σ) (hs : q.Sound rs w)
    (hm : Matches w t q s.todo) (hq : Placed p q i n) (hsame : SameState rs w t σ s.values) :
    Agree (Mirrors d rs p w t) (settled d.fragment σ) (do
      let _ ← s.todo.present s.values
      return s) := by
  have hpresent := hm.present_agrees hq.first hsame
  generalize s.todo.present s.values = x at hpresent ⊢
  generalize he : n.effect σ = y at hpresent
  cases hpresent with
  | error f =>
    rw [h.settled_error hw hd hp.state hp.node he]
    exact .error f
  | ok houtputs =>
    obtain ⟨τ, hτ, hr, hk⟩ := h.settles hw hd hp he
    rw [hτ]
    exact .ok (.running hr hs hm hq (hsame.keeps h hw hk))

theorem SameState.drive (ht : t.Tidy rs base) {υ : Valuation} (hsame : SameState rs w t τ υ)
    {x : Signal} (hx : x ∈ portSignals rs .input) (v : UInt64) :
    SameState rs w t (τ.set x v) (υ.set x v) := by
  have hlt := hw.tag_lt hx
  refine ⟨fun i y z hy hz => ?_, fun y hy => ?_⟩
  · have hyx : y ≠ x := by
      rintro rfl
      have := h.tidy.storage_tag (mem_of_getElem? hy)
      omega
    have hzx : z ≠ x := by
      rintro rfl
      have := ht.storage_tag (mem_of_getElem? hz)
      omega
    rw [get_set, get_set, if_neg hyx, if_neg hzx, hsame.registers i y z hy hz]
  · rw [get_set, get_set, hsame.inputs y hy]

theorem Mirrors.drive (hd : d.Indexable) (ht : t.Tidy rs base) (hm : Mirrors d rs p w t τ s)
    {o : Write} (ho : o.1 ∈ portSignals rs .input) :
    Agree (Mirrors d rs p w t) (settled d.fragment (τ.set o.1 (truncate o.2 o.1.bits)))
      (.ok (s.drive [o])) := by
  cases hm with
  | ended plan todo idle same =>
    subst plan
    rw [h.settled_finish]
    refine .ok (.ended rfl todo (fun x hc hs hi => ?_) (same.drive h hw ht ho _))
    have hne : x ≠ o.1 := by
      rintro rfl
      exact hi (h.resources ▸ ho)
    rw [get_set, if_neg hne, idle x hc hs hi]
  | running resting sound doing placed same =>
    obtain ⟨e', τ', -, hτ', hr', hk⟩ := h.settles_set hw hd resting ho (truncate o.2 o.1.bits)
    rw [hτ']
    exact .ok (.running hr' sound doing placed ((same.drive h hw ht ho _).keeps h hw hk))

end

theorem Wrote.lookup (ht : t.Tidy rs base) {loads : List (RegisterId × SourceId)} {ws : List Write}
    (h : Wrote d t σ loads ws) {id : Nat} {y : Signal} (hy : t.storages[id]? = some y) :
    ws.reverse.lookup y = (loads.reverse.lookup id).map fun s =>
      truncate (denote σ (d.source s)) y.bits := by
  have hrev := forall₂_reverse_iff.mpr h
  generalize loads.reverse = ls at hrev ⊢
  generalize ws.reverse = os at hrev ⊢
  induction hrev with
  | nil => rfl
  | @cons l o ls os hlo _ ih =>
    obtain ⟨hl, hvalue⟩ := hlo
    obtain ⟨x, v⟩ := o
    obtain ⟨id', source⟩ := l
    by_cases hid : id' = id
    · have hoy : x = y := by
        rw [hid, hy] at hl
        exact (Option.some.inj hl).symm
      subst hid hoy
      simp only [lookup_cons_self, Option.map_some]
      exact congrArg some hvalue
    · have hoy : x ≠ y := by
        rintro rfl
        obtain ⟨hlt, hget⟩ := List.getElem?_eq_some_iff.mp hl
        obtain ⟨hlt', hget'⟩ := List.getElem?_eq_some_iff.mp hy
        exact hid ((Nodup.of_map _ ht.distinct).getElem_inj_iff.mp (hget.trans hget'.symm))
      have hid' : (id == id') = false := by simpa using Ne.symm hid
      have hoy' : (y == x) = false := by simpa using Ne.symm hoy
      simp only [lookup_cons, hid', hoy', ih]

theorem Wrote.tag_le (ht : t.Tidy rs base) {loads : List (RegisterId × SourceId)} {ws : List Write}
    (h : Wrote d t σ loads ws) : ∀ o ∈ ws, base ≤ o.1.tag := by
  induction h with
  | nil => simp
  | cons hlo _ ih =>
    simp only [forall_mem_cons]
    exact ⟨(ht.storage_tag (mem_of_getElem? hlo.1)).1, ih⟩

variable (h : d.Realizes rs base p w) (hw : Wired rs base)

include h hw

theorem SameState.afterEdge (ht : t.Tidy rs base) (htwin : Twin w t) {υ ν : Valuation}
    {ws : List Write} (hsame : SameState rs w t τ υ) (hafter : AfterEdge d i n e τ ν)
    (hwrote : Wrote d t τ e.loads ws) : SameState rs w t ν (υ.override ws) := by
  refine ⟨fun id x y hx hy => ?_, fun x hx => ?_⟩
  · obtain ⟨r, hr, rfl⟩ := h.exists_register hx
    obtain ⟨y', hy', hbits⟩ := htwin.getElem?_storages hx
    obtain rfl : y = y' := by simpa [hy] using hy'
    rw [hafter.storage id r hr, get_override, hwrote.lookup ht hy, hbits,
      hsame.registers id _ y hx hy]
  · rw [hafter.keeps x (h.input_undriven hw hx).2, hsame.inputs x hx]
    refine (get_override_of_notMem fun o ho hox => ?_).symm
    have hlt := hw.tag_lt hx
    have hle := hwrote.tag_le ht o ho
    rw [hox] at hle
    omega

/-- **One cycle**: the design and the function take the same step. -/
theorem Mirrors.advance (hd : d.Indexable) (ht : t.Tidy rs base) (htwin : Twin w t)
    (hm : Mirrors d rs p w t τ s) :
    Agree (Mirrors d rs p w t) (edge d.fragment τ >>= settled d.fragment) s.advance := by
  cases hm with
  | ended plan todo idle same =>
    subst plan
    obtain ⟨todo', values⟩ := s
    subst todo
    rw [h.edge_finish hw hd idle]
    show Agree _ (settled d.fragment τ) _
    rw [h.settled_finish]
    exact .ok (.ended rfl rfl idle same)
  | running resting sound doing placed same =>
    have hticks := doing.ticks h same resting.effect sound placed
    unfold Situation.advance
    generalize s.todo.tick s.values = x at hticks
    cases hticks with
    | fails loads faults =>
      rw [h.edge_error hd resting.node resting.effect resting.atRest loads faults]
      exact .error _
    | goes faultless wrote doing' sound' placed' =>
      have hfault : d.Faultless _ := fun id source hl =>
        faultless _ (h.recorded_of_lookup resting.node resting.effect hl).1
      obtain ⟨υ, n', hυ, hp, hafter⟩ := h.poised_of_edge hd resting hfault
      rw [hυ]
      obtain rfl : _ = n' := Option.some.inj (placed'.place.symm.trans hp.node)
      exact mirrors_of_settled h hw hd hp sound' doing' placed'
        (same.afterEdge h hw ht htwin hafter wrote)

theorem mirrors_start (hd : d.Indexable) {f : Function} (hm : Matches w t p f.body) :
    Agree (Mirrors d rs p w t)
      (settled d.fragment (empty.override (resets (targets d.fragment.sync))))
      (Situation.start f) := by
  have hzero := h.get_reset
  generalize empty.override (resets (targets d.fragment.sync)) = σ at hzero
  have hidle : d.Idle σ := fun x _ _ _ => hzero x
  have hsame : SameState rs w t σ .empty := ⟨fun i x y _ _ => hzero x, fun x _ => hzero x⟩
  cases hfirst : (p.nodes none).head? with
  | none =>
    obtain rfl := eq_finish_of_first hfirst
    have hbody : f.body = .finish := by
      generalize f.body = r at hm
      cases hm
      rfl
    rw [h.settled_finish, Situation.start, hbody]
    exact .ok (.ended rfl rfl hidle hsame)
  | some n =>
    have hplace : (p.nodes none)[0]? = some n := by rw [← head?_eq_getElem?, hfirst]
    have hp : Poised d p 0 n σ := ⟨hplace, hzero _, hidle⟩
    exact mirrors_of_settled h hw hd hp h.sound hm
      ⟨Subset.refl _, hfirst, hplace⟩ hsame

end Run

end Sequencer.Reference

namespace Sequencer

open List
open Circuit Lowering Simulation Reference

def Simulation.Simulator.drive (s : Simulator) (ws : List Write) :
    Except Fault Simulator :=
  ws.foldlM (fun s o => after (set o.1 o.2) s) s

namespace Design

def view (d : Design) (s : Simulator) : View :=
  ⟨d.registers.map fun r => s.get r.storage, (portSignals d.resources .output).map s.get⟩

/-- What can be seen of a design after some cycles of simulation. Each cycle is given by what is put
on the input ports before its clock edge; in the present one it is `now`. -/
def simulate (d : Design) (past : List (List Write)) (now : List Write) :
    Except Simulation.Fault View := do
  let s ← Simulator.new d.fragment
  let s ← past.foldlM (fun s ws => do Simulator.after Simulator.step (← s.drive ws)) s
  return d.view (← s.drive now)

end Design

namespace Reference

/-- The only function of a program text, with its names resolved in the scope of a project. -/
def functionOf (s : Project.Settings) (text : List Char) : Except Lowering.Fault Function :=
  let (options, supply) := s.options firstTag
  (resolve text options (.new supply)).1

/-- A simulator of the design and a function in the same situation. -/
def Tracks (d : Design) (rs : List Resource) (p : Plan) (w t : Workshop) (sim : Simulator)
    (s : Situation) : Prop :=
  ∃ τ, sim.Shows d.fragment τ ∧ Mirrors d rs p w t τ s

section Tracking

variable {d : Design} {rs : List Resource} {base : Nat} {p : Plan} {w t : Workshop} {f : Function}
  {sim : Simulator} {s : Situation}

theorem agree_tracks {x : Except Simulation.Fault Simulator}
    {y : Except Simulation.Fault Valuation} {z : Except Simulation.Fault Situation}
    (hxy : Agree (Simulator.Shows d.fragment) x y)
    (hyz : Agree (Mirrors d rs p w t) y z) : Agree (Tracks d rs p w t) x z := by
  cases hxy with
  | error e =>
    cases hyz
    exact .error e
  | ok hab =>
    cases hyz with
    | ok hbc => exact .ok ⟨_, hab, hbc⟩

section

variable (h : d.Realizes rs base p w) (hw : Wired rs base)

include h hw

theorem Tracks.drive (hd : d.Indexable) (ht : t.Tidy rs base) (htracks : Tracks d rs p w t sim s)
    {ws : List Write} (hws : ∀ o ∈ ws, o.1 ∈ portSignals rs .input) :
    Agree (Tracks d rs p w t) (sim.drive ws) (.ok (s.drive ws)) := by
  induction ws generalizing sim s with
  | nil => exact .ok htracks
  | cons o ws ih =>
    simp only [forall_mem_cons] at hws
    obtain ⟨τ, hshows, hmirrors⟩ := htracks
    obtain ⟨hcomb, hsync⟩ := h.input_undriven hw hws.1
    have hfirst := agree_tracks (hshows.set (h.feedForward hw) hcomb hsync o.2)
      (hmirrors.drive h hw hd ht hws.1)
    exact hfirst.bind fun sim' s' htracks' => ih htracks' hws.2

theorem Tracks.step (hd : d.Indexable) (ht : t.Tidy rs base) (htwin : Twin w t)
    (htracks : Tracks d rs p w t sim s) :
    Agree (Tracks d rs p w t) (Simulator.after Simulator.step sim) s.advance := by
  obtain ⟨τ, hshows, hmirrors⟩ := htracks
  exact agree_tracks (hshows.step (h.feedForward hw)) (hmirrors.advance h hw hd ht htwin)

theorem tracks_new (hd : d.Indexable) (hm : Matches w t p f.body) :
    Agree (Tracks d rs p w t) (Simulator.new d.fragment) (Situation.start f) :=
  agree_tracks (Simulator.shows_new (h.feedForward hw) (h.noMarker hw) (h.domains hw))
    (mirrors_start h hw hd hm)

theorem Mirrors.present {τ : Valuation} (hm : Mirrors d rs p w t τ s) :
    ∃ ws, s.todo.present s.values = .ok ws ∧
      ∀ x ∈ portSignals rs .output, τ.get x = (ws.reverse.lookup x).getD 0 := by
  cases hm with
  | ended plan todo idle same =>
    subst plan
    rw [todo]
    exact ⟨[], rfl, fun x hx => h.output_finish hw idle hx⟩
  | @running q i n e resting sound doing placed same =>
    have hpresent := doing.present_agrees placed.first same
    rw [resting.effect] at hpresent
    generalize hx : s.todo.present s.values = x at hpresent
    cases hpresent with
    | ok he =>
      refine ⟨_, rfl, fun x hx => ?_⟩
      rw [resting.atRest.output x (h.resources ▸ hx), he]

end

theorem Mirrors.same {τ : Valuation} (hm : Mirrors d rs p w t τ s) :
    SameState rs w t τ s.values := by
  cases hm <;> assumption

theorem Tracks.view (h : d.Realizes rs base p w) (hw : Wired rs base)
    (hf : Follows rs base w p f t) (htracks : Tracks d rs p w t sim s) :
    f.view s = .ok (d.view sim) := by
  obtain ⟨τ, hshows, hmirrors⟩ := htracks
  obtain ⟨ws, hws, houtputs⟩ := hmirrors.present h hw
  have hregisters :
      (d.registers.map fun r => sim.get r.storage) = f.registers.map s.values.get := by
    rw [hf.registers]
    refine ext_getElem? fun i => ?_
    rw [getElem?_map, getElem?_map, h.getElem?_registers]
    cases hr : w.bank.registers[i]? with
    | none =>
      have hlen := List.getElem?_eq_none_iff.mp hr
      rw [hf.twin.length_eq] at hlen
      rw [List.getElem?_eq_none_iff.mpr (by simpa [Workshop.storages] using hlen)]
      rfl
    | some r =>
      have hx := Workshop.storages_getElem? hr
      obtain ⟨y, hy, -⟩ := hf.twin.getElem?_storages hx
      rw [hy]
      exact congrArg some ((hshows.values _).trans (hmirrors.same.registers i _ y hx hy))
  have houtputs' : (portSignals d.resources .output).map sim.get =
      (portSignals f.resources .output).map fun x => (ws.reverse.lookup x).getD 0 := by
    rw [h.resources, hf.resources]
    exact map_congr_left fun x hx => (hshows.values x).trans (houtputs x hx)
  rw [Function.view, hws, Design.view, hregisters, houtputs']
  rfl

/-- A design runs like its function. -/
theorem simulate_eq_run (h : d.Realizes rs base p w) (hw : Wired rs base) (hd : d.Indexable)
    (hf : Follows rs base w p f t) {past : List (List Write)} {now : List Write}
    (hinputs : ∀ ws ∈ now :: past, ∀ o ∈ ws, o.1 ∈ portSignals rs .input) :
    d.simulate past now = f.run past now := by
  simp only [forall_mem_cons] at hinputs
  refine Agree.eq ?_
  refine (tracks_new h hw hd hf.body).bind fun sim s htracks => ?_
  refine (Agree.foldlM (fun ws hws sim s htracks => ?_) htracks).bind fun sim s htracks => ?_
  · exact (htracks.drive h hw hd hf.tidy (hinputs.2 ws hws)).bind fun sim s htracks =>
      htracks.step h hw hd hf.tidy hf.twin
  · show Agree _ _ (Except.ok (s.drive now) >>= f.view)
    refine (htracks.drive h hw hd hf.tidy hinputs.1).bind fun sim s htracks => ?_
    rw [htracks.view h hw hf]
    exact .ok rfl

end Tracking

/-- **Compilation preserves meaning, cycle by cycle.** -/
theorem simulate_eq_interpret (s : Project.Settings) (text : List Char) (d : Design)
    (h : (Command.compileText s text).result = .ok d) (hd : d.Indexable) :
    ∃ f, functionOf s text = .ok f ∧ ∀ past now,
      (∀ ws ∈ now :: past, ∀ o ∈ ws, o.1 ∈ portSignals d.resources .input) →
        d.simulate past now = f.run past now := by
  obtain ⟨w', hgives⟩ := Project.gives_of_compileText h
  have hw := Project.wired_options s firstTag
  obtain ⟨m, name, body, env, env', p, w, hm, hbody, henv, hplain, hlowers, hrealizes⟩ :=
    realizes_of_compile rfl hw hgives
  obtain ⟨f, t, hf, hfollows⟩ := follows_of_lowers hm hbody henv hplain hlowers
  refine ⟨f, congrArg Prod.fst hf, fun past now hinputs => ?_⟩
  rw [hrealizes.resources] at hinputs
  exact simulate_eq_run hrealizes hw hd hfollows hinputs

/-- The relay is compiled, and every simulation of it is a run of its text. -/
theorem relay_simulates : ∃ d f,
    (Command.compileText Project.relaySettings Project.relayText).result = .ok d ∧
      d.Indexable ∧ functionOf Project.relaySettings Project.relayText = .ok f ∧ ∀ past now,
        (∀ ws ∈ now :: past, ∀ o ∈ ws, o.1 ∈ portSignals d.resources .input) →
          d.simulate past now = f.run past now := by
  obtain ⟨d, hd, hindex⟩ : ∃ d, (Command.compileText Project.relaySettings
      Project.relayText).result = .ok d ∧ d.Indexable := by
    decide +kernel
  obtain ⟨f, hf, hrun⟩ := simulate_eq_interpret _ _ d hd hindex
  exact ⟨d, f, hd, hindex, hf, hrun⟩

end Reference

end Sequencer
