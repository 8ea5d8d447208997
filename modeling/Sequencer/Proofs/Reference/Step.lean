import Sequencer.Proofs.Design.ClockEdge
import Sequencer.Proofs.Reference.Agreement

/-!
# One cycle of a routine and its design

A design in a state and a function with something left to do are in the same place if the node of
the state is the first of what is left of the plan (`Placed`), and they stay together over one clock
edge. Behind the body of a loop comes the loop again, so what is left need not be a part of the
plan.
-/

namespace Sequencer.Reference

open List
open Circuit Lowering Simulation Node Routine Plan Machine Option Except
open Plan (act entry_append nodes nodes_append)
open Routine (cond goOn loop store tick)

/-! ### One step -/

/-- Registers at the same place have the same value, and so have the input ports. -/
structure SameState (rs : List Resource) (w t : Workshop) (σ τ : Valuation) : Prop where
  registers : ∀ (i : Nat) x y, w.storages[i]? = some x → t.storages[i]? = some y →
    σ.get x = τ.get y
  inputs : ∀ x ∈ portSignals rs .input, σ.get x = τ.get x

/-- What is left to do of a plan, from its node with number `i` on. -/
structure Placed (p q : Plan) (i : Nat) (n : Node) : Prop where
  nodes : q.nodes none ⊆ p.nodes none
  first : (q.nodes none).head? = some n
  place : (p.nodes none)[i]? = some n

/-- What is left to do of a plan after a step. The last step is repeated. -/
def goOn (here rest : Plan) : Plan :=
  match rest with
  | .finish => here
  | rest => rest

section Control

variable {d : Design} {rs : List Resource} {base : Nat} {p q rest : Plan} {w t : Workshop}
  {i : Nat} {n : Node}

theorem eq_finish_of_first (h : (q.nodes none).head? = none) : q = .finish := by
  cases q <;> simp_all [nodes]

theorem entry_eq_first (q : Plan) : q.entry none = (q.nodes none).head?.map label := by
  cases q <;> rfl

theorem Matches.goOn {q' : Routine} {rest' : Routine} (hq : Matches w t q q')
    (hrest : Matches w t rest rest') :
    Matches w t (Reference.goOn q rest) (Routine.goOn q' rest') := by
  cases hrest with
  | finish => exact hq
  | store stores rest => exact .store stores rest
  | send alike rest => exact .send alike rest
  | receive recorded target rest => exact .receive recorded target rest
  | cond alike taken other rest => exact .cond alike taken other rest
  | loop alike repeated rest => exact .loop alike repeated rest

theorem sound_goOn (hq : q.Sound rs w) (hrest : rest.Sound rs w) : (goOn q rest).Sound rs w := by
  cases rest <;> first | exact hq | exact hrest

theorem Placed.goOn (h : d.Realizes rs base p w) (hq : Placed p q i n)
    (hrest : rest.nodes none ⊆ p.nodes none) (next jump : Option StateId)
    (hgo : (jump <|> next) = rest.entry none) :
    ∃ n', Placed p (Reference.goOn q rest) (d.machine.follow i next jump) n' := by
  cases hfirst : (rest.nodes none).head? with
  | none =>
    obtain rfl := eq_finish_of_first hfirst
    refine ⟨n, hq.nodes, hq.first, ?_⟩
    rw [Machine.follow, hgo]
    exact hq.place
  | some n' =>
    obtain ⟨j, hj⟩ := mem_iff_getElem?.mp (hrest (mem_of_head? hfirst))
    have hgoOn : Reference.goOn q rest = rest := by
      cases rest with
      | finish => simp [Plan.nodes] at hfirst
      | _ => rfl
    rw [hgoOn]
    refine ⟨n', hrest, hfirst, ?_⟩
    rw [Machine.follow, hgo, entry_eq_first, hfirst, map_some, map_some, h.index?_label hj]
    exact hj

theorem Placed.stay (h : d.Realizes rs base p w) (hq : Placed p q i n) (next : Option StateId) :
    Placed p q (d.machine.follow i next (some n.label)) n := by
  refine ⟨hq.nodes, hq.first, ?_⟩
  have hfollow : d.machine.follow i next (some n.label) = i := by
    simp [follow, h.index?_label hq.place]
  rw [hfollow]
  exact hq.place

end Control

section Step

variable {d : Design} {rs : List Resource} {base : Nat} {p q : Plan} {w t : Workshop}
  {σ τ : Valuation} {i : Nat} {n : Node} {e : Effect} {r : Routine}

/-- Both show the same on the ports. -/
theorem Matches.present_agrees (hm : Matches w t q r) (hfirst : (q.nodes none).head? = some n)
    (hsame : SameState rs w t σ τ) :
    Agree (fun e ws => e.outputs = ws) (n.effect σ) (r.present τ) := by
  cases hm with
  | finish => simp [nodes] at hfirst
  | store stores rest =>
    obtain rfl := some.inj hfirst
    exact .ok rfl
  | send alike rest =>
    obtain rfl := some.inj hfirst
    simp only [effect, Act.effect, present, alike.eval_eq hsame.registers]
    cases eval τ _ with
    | error f => exact .error f
    | ok v => exact .ok rfl
  | receive recorded target rest =>
    obtain rfl := some.inj hfirst
    exact .ok rfl
  | cond alike taken other rest | loop alike repeated rest =>
    obtain rfl := some.inj hfirst
    simp only [effect, present, alike.eval_eq hsame.registers]
    cases eval τ _ with
    | error f => exact .error f
    | ok v => exact .ok rfl

theorem fault?_widened (v : Value) (width : Int) : fault? (v.widened width) = fault? v := by
  cases v with
  | const tag l =>
    simp only [Value.widened]
    split <;> rfl
  | hole | signal | binary | slice => rfl

def storeWrites (τ : Valuation) (targets : List Signal) (value : Value) : List Write :=
  targets.map fun x => (x, truncate (denote τ (value.widened x.bits)) x.bits)

variable {targets : List Signal} {value test test' : Value} {label : StateId} {rest : Plan}
  {rest' : Routine}

theorem tick_store (rest : Routine) (h : fault? value = none ∨ targets = []) :
    (Routine.store targets value rest).tick τ =
      .ok (Routine.goOn (.store targets value rest) rest, storeWrites τ targets value) := by
  have hmap : (targets.mapM fun t => do
      let v ← eval τ (value.widened t.bits)
      return (t, truncate v t.bits)) = ok (storeWrites τ targets value) := by
    obtain h | rfl := h
    · induction targets with
      | nil => rfl
      | cons x xs ih =>
        rw [mapM_cons, ih, eval, fault?_widened, h]
        rfl
    · rfl
  rw [Routine.tick, hmap]
  rfl

theorem tick_store_error {f : Simulation.Fault} (rest : Routine) (h : fault? value = some f)
    (hne : targets ≠ []) : (store targets value rest).tick τ = .error f := by
  cases targets with
  | nil => exact absurd rfl hne
  | cons x xs =>
    rw [tick, mapM_cons, eval, fault?_widened, h]
    rfl

/-- Some writes that store what some loads load. -/
def Wrote (d : Design) (t : Workshop) (σ : Valuation) :
    List (RegisterId × SourceId) → List Write → Prop :=
  List.Forall₂ fun l o => t.storages[l.1]? = some o.1 ∧
    o.2 = truncate (denote σ (d.source l.2)) o.1.bits

section Stores

variable {loads : List (RegisterId × SourceId)}

theorem fault?_of_stores (h : d.Realizes rs base p w)
    (hall : List.Forall₂ (StoresTo w t value) loads targets) :
    ∀ l ∈ loads, fault? (d.source l.2) = fault? value := by
  induction hall with
  | nil => simp
  | cons hstore _ ih =>
    obtain ⟨-, u, hrec, hal⟩ := hstore
    simp only [forall_mem_cons]
    refine ⟨?_, ih⟩
    rw [h.source_eq hrec, hal.fault?_eq, fault?_widened]

theorem wrote_of_stores (h : d.Realizes rs base p w) (hsame : SameState rs w t σ τ)
    (hall : List.Forall₂ (StoresTo w t value) loads targets) :
    Wrote d t σ loads (storeWrites τ targets value) := by
  refine forall₂_map_right_iff.mpr (hall.imp fun l x hstore => ?_)
  obtain ⟨hx, u, hrec, hal⟩ := hstore
  rw [h.source_eq hrec, hal.denote_eq hsame.registers]
  exact ⟨hx, rfl⟩

end Stores

/-- A clock edge of the function, beside one at which the node `n` has the effect `e`: both fail in
the same way, or the function writes what the design loads and both go on at the same place. -/
inductive Ticks (d : Design) (rs : List Resource) (p : Plan) (w t : Workshop) (σ : Valuation)
    (i : Nat) (n : Node) (e : Effect) : Except Simulation.Fault (Routine × List Write) → Prop
  | fails {f : Simulation.Fault} (loads : e.loads ≠ [])
      (faults : ∀ l ∈ e.loads, fault? (d.source l.2) = some f) : Ticks d rs p w t σ i n e (.error f)
  | goes {r : Routine} {ws : List Write} {q : Plan} {n' : Node}
      (faultless : ∀ l ∈ e.loads, fault? (d.source l.2) = none) (wrote : Wrote d t σ e.loads ws)
      (doing : Matches w t q r) (sound : q.Sound rs w)
      (placed : Placed p q (d.machine.follow i n.next e.jump) n') :
      Ticks d rs p w t σ i n e (.ok (r, ws))

namespace Ticks

variable {outputs : List Write} {jump : Option StateId}

variable (h : d.Realizes rs base p w) (hm : Matches w t q r) (hs : q.Sound rs w)
  (hq : Placed p q i n)

include h hm hs hq

theorem stay : Ticks d rs p w t σ i n ⟨outputs, [], some n.label⟩ (.ok (r, [])) :=
  .goes (by simp) .nil hm hs (hq.stay h _)

theorem goOn {q' : Plan} {r' : Routine} (hm' : Matches w t q' r') (hs' : q'.Sound rs w)
    (hsub : q'.nodes none ⊆ p.nodes none) (hgo : (jump <|> n.next) = q'.entry none) :
    Ticks d rs p w t σ i n ⟨outputs, [], jump⟩ (.ok (r.goOn r', [])) := by
  obtain ⟨n', hn'⟩ := hq.goOn h hsub n.next jump hgo
  exact .goes (by simp) .nil (hm.goOn hm') (sound_goOn hs hs') hn'

end Ticks

theorem effect_guard {yes : StateId} {next no : Option StateId}
    (alike : Value.Alike w.storages t.storages test test') (hsame : SameState rs w t σ τ)
    (he : effect σ ⟨label, next, .guard test yes no⟩ = .ok e) :
    ∃ v, eval τ test' = .ok v ∧ e = ⟨[], [], if v = 0 then no else some yes⟩ := by
  simp only [effect, alike.eval_eq hsame.registers] at he
  cases hv : eval τ test' with
  | error f => simp [hv, bind, Except.bind] at he
  | ok v =>
    rw [hv] at he
    exact ⟨v, rfl, (Except.ok.inj he).symm⟩

theorem entry_getD (hq : q ≠ .finish) (after : Option StateId) :
    some ((q.entry none).getD 0) = q.entry after := by
  cases q with
  | finish => exact absurd rfl hq
  | _ => rfl

variable (h : d.Realizes rs base p w) (hsame : SameState rs w t σ τ) (he : n.effect σ = .ok e)

include h hsame he

theorem ticks_store {loads : List (RegisterId × SourceId)}
    (hm : Matches w t (.act label (.store loads) rest) (.store targets value rest'))
    (hs : (act label (.store loads) rest).Sound rs w)
    (hq : Placed p (.act label (.store loads) rest) i n) :
    Ticks d rs p w t σ i n e ((store targets value rest').tick τ) := by
  have hself := hm
  obtain rfl := some.inj hq.first
  obtain rfl := ok.inj he
  cases hm with
  | store stores hrest =>
    by_cases hok : fault? value = none ∨ targets = []
    · rw [tick_store rest' hok]
      obtain ⟨n', hn'⟩ :=
        hq.goOn h (subset_of_cons_subset hq.nodes) (rest.entry none) none rfl
      refine .goes ?_ (wrote_of_stores h hsame stores) (hself.goOn hrest)
        (sound_goOn hs hs.of_act.2) hn'
      obtain hnone | rfl := hok
      · exact fun l hl => (fault?_of_stores h stores l hl).trans hnone
      · cases stores
        simp
    · obtain ⟨hsome, hne⟩ := not_or.mp hok
      obtain ⟨f, hf⟩ := ne_none_iff_exists'.mp hsome
      rw [tick_store_error rest' hf hne]
      refine .fails ?_ fun l hl => (fault?_of_stores h stores l hl).trans hf
      rintro rfl
      exact hne (forall₂_nil_left_iff.mp stores)

theorem ticks_receive {c : Channel} {id : RegisterId} {source : SourceId} {x : Signal}
    (hm : Matches w t (.act label (.receive c id source) rest) (.receive c x rest'))
    (hs : (act label (.receive c id source) rest).Sound rs w)
    (hq : Placed p (.act label (.receive c id source) rest) i n) :
    Ticks d rs p w t σ i n e ((Routine.receive c x rest').tick τ) := by
  have hself := hm
  obtain rfl := some.inj hq.first
  obtain rfl := ok.inj he
  cases hm with
  | receive recorded target hrest =>
    obtain ⟨hdata, hstb, -⟩ := Wired.source_mem hs.of_act.1.1
    rw [tick, ← hsame.inputs _ hstb, ← hsame.inputs _ hdata]
    by_cases hwait : σ.get c.stb = 0
    · simp only [hwait, if_true]
      exact .stay h hself hs hq
    · simp only [hwait, if_false]
      obtain ⟨n', hn'⟩ :=
        hq.goOn h (subset_of_cons_subset hq.nodes) (rest.entry none) none rfl
      have hsource := h.source_eq recorded
      refine .goes ?_ (.cons ⟨target, ?_⟩ .nil) (hself.goOn hrest) (sound_goOn hs hs.of_act.2) hn'
      · simp only [mem_singleton, forall_eq, hsource]
        rfl
      · rw [hsource]
        rfl

theorem ticks_cond {yes no : Plan} {yes' no' : Routine}
    (hm : Matches w t (.cond label test yes no rest) (.cond test' yes' no' rest'))
    (hs : (Plan.cond label test yes no rest).Sound rs w)
    (hq : Placed p (.cond label test yes no rest) i n) :
    Ticks d rs p w t σ i n e ((cond test' yes' no' rest').tick τ) := by
  have hself := hm
  obtain rfl := some.inj hq.first
  obtain ⟨hyes, hsy, hsn, hsr⟩ := hs.of_cond
  obtain ⟨hbranches, hrestIn⟩ := append_subset.mp (subset_of_cons_subset hq.nodes)
  obtain ⟨hyesIn, hnoIn⟩ := append_subset.mp hbranches
  cases hm with
  | cond alike taken other hrest =>
    obtain ⟨v, hv, rfl⟩ := effect_guard alike hsame he
    have htick : (cond test' yes' no' rest').tick τ =
        .ok ((cond test' yes' no' rest').goOn
          (if v = 0 then no'.append rest' else yes'.append rest'), []) := by
      rw [tick, hv]
      rfl
    rw [htick]
    by_cases hzero : v = 0
    · rw [if_pos hzero, if_pos hzero]
      refine .goOn h hself hs hq (other.append hrest) (hsn.append hsr) ?_ ?_
      · exact nodes_append .. ▸ append_subset.mpr ⟨hnoIn, hrestIn⟩
      · cases no <;> rfl
    · rw [if_neg hzero, if_neg hzero]
      refine .goOn h hself hs hq (taken.append hrest) (hsy.append hsr) ?_ ?_
      · exact nodes_append .. ▸ append_subset.mpr ⟨hyesIn, hrestIn⟩
      · rw [entry_append]
        exact entry_getD hyes _

theorem ticks_loop {body : Plan} {body' : Routine}
    (hm : Matches w t (.loop label test body rest) (.loop test' body' rest'))
    (hs : (Plan.loop label test body rest).Sound rs w)
    (hq : Placed p (.loop label test body rest) i n) :
    Ticks d rs p w t σ i n e ((Routine.loop test' body' rest').tick τ) := by
  have hself := hm
  obtain rfl := some.inj hq.first
  obtain ⟨hbody, hsb, hsr⟩ := hs.of_loop
  obtain ⟨hbodyIn, hrestIn⟩ := append_subset.mp (subset_of_cons_subset hq.nodes)
  cases hm with
  | loop alike repeated hrest =>
    obtain ⟨v, hv, rfl⟩ := effect_guard alike hsame he
    have htick : (Routine.loop test' body' rest').tick τ =
        .ok (if v = 0 then (Routine.loop test' body' rest').goOn rest'
          else body'.append (.loop test' body' rest'), []) := by
      rw [Routine.tick, hv]
      rfl
    rw [htick]
    by_cases hzero : v = 0
    · rw [if_pos hzero, if_pos hzero]
      exact .goOn h hself hs hq hrest hsr hrestIn rfl
    · rw [if_neg hzero, if_neg hzero]
      -- The body is followed by the loop itself, so there is always something left to do.
      have hagain : Routine.goOn (.loop test' body' rest')
          (body'.append (.loop test' body' rest')) = body'.append (.loop test' body' rest') := by
        cases body' <;> rfl
      rw [← hagain]
      refine .goOn h hself hs hq (repeated.append hself) (hsb.append hs) ?_ ?_
      · exact nodes_append .. ▸ append_subset.mpr ⟨hbodyIn, hq.nodes⟩
      · rw [entry_append]
        exact entry_getD hbody _

/-- **One clock edge of the function and the design.** -/
theorem Matches.ticks (hm : Matches w t q r) (hs : q.Sound rs w) (hq : Placed p q i n) :
    Ticks d rs p w t σ i n e (r.tick τ) := by
  have hself := hm
  have hfirst := hq.first
  cases hm with
  | finish => simp [nodes] at hfirst
  | store stores hrest => exact ticks_store h hsame he hself hs hq
  | @send label c data value tag rest rest' alike hrest =>
    obtain rfl := Option.some.inj hfirst
    have hack : σ.get c.ack = τ.get c.ack := hsame.inputs _ (Wired.sink_mem hs.of_act.1.1).2.2
    simp only [Node.effect, Act.effect] at he
    cases hv : eval σ data with
    | error f => simp [hv, bind, Except.bind] at he
    | ok v =>
      rw [hv] at he
      obtain rfl := Except.ok.inj he
      rw [tick, ← hack]
      by_cases hwait : σ.get c.ack = 0
      · simp only [hwait, if_true]
        exact .stay h hself hs hq
      · simp only [hwait, if_false]
        exact .goOn h hself hs hq hrest hs.of_act.2 (subset_of_cons_subset hq.nodes) rfl
  | receive recorded target hrest => exact ticks_receive h hsame he hself hs hq
  | cond alike taken other hrest => exact ticks_cond h hsame he hself hs hq
  | loop alike repeated hrest => exact ticks_loop h hsame he hself hs hq

end Step

end Sequencer.Reference
