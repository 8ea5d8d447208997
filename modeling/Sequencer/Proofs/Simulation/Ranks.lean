import Sequencer.Proofs.Simulation.Actions

/-!
# Logic without feedback

Combinational signals may depend on each other as long as they can be ranked so that whatever
decides about an assignment reads only combinational signals of smaller rank. After `k` passes the
signals of rank below `k` have come to rest, whatever they were at first. Sixteen passes are
allowed, and the last one must change nothing; this leaves fifteen ranks.
-/

namespace Sequencer.Circuit

open List

/-! ### What decides about an assignment -/

mutual

/-- The assignments in a statement: their targets, with the signals that decide about them. These
are the signals read by the assigned value and by the tests around the assignment; `guards` are the
ones read by the tests around the statement. -/
def Stmt.flows (guards : List Signal) : Stmt → List (Signal × List Signal)
  | .assign x v => [(x, guards ++ v.reads)]
  | .branch test yes no =>
    flows (guards ++ test.reads) yes ++ flowsOption (guards ++ test.reads) no
  | .select test arms other =>
    flowsArms (guards ++ test.reads) arms ++ flowsOption (guards ++ test.reads) other
  | .hole => []
  | .marker _ => []

def flows (guards : List Signal) : List Stmt → List (Signal × List Signal)
  | [] => []
  | s :: ss => s.flows guards ++ flows guards ss

def flowsOption (guards : List Signal) : Option (List Stmt) → List (Signal × List Signal)
  | none => []
  | some ss => flows guards ss

def flowsArms (guards : List Signal) : List (Literal × List Stmt) → List (Signal × List Signal)
  | [] => []
  | (_, body) :: arms => flows guards body ++ flowsArms guards arms

end

/-- The tests around a statement decide about every assignment in it, and its assignments are those
found by walking. -/
structure Covers (guards : List Signal) (ps : List (Signal × List Signal)) (ss : List Stmt) :
    Prop where
  guarded : ∀ p ∈ ps, guards ⊆ p.2
  complete : ∀ x v, .assign x v ∈ ss → ∃ p ∈ ps, p.1 = x

theorem Covers.append {guards : List Signal} {ps qs : List (Signal × List Signal)}
    {ss ts : List Stmt} (h : Covers guards ps ss) (h' : Covers guards qs ts) :
    Covers guards (ps ++ qs) (ss ++ ts) where
  guarded := forall_mem_append.mpr ⟨h.guarded, h'.guarded⟩
  complete := by
    intro x v hx
    obtain hx | hx := mem_append.mp hx
    · obtain ⟨p, hp, rfl⟩ := h.complete x v hx
      exact ⟨p, mem_append_left _ hp, rfl⟩
    · obtain ⟨p, hp, rfl⟩ := h'.complete x v hx
      exact ⟨p, mem_append_right _ hp, rfl⟩

theorem Covers.container {guards : List Signal} {ps : List (Signal × List Signal)} {s : Stmt}
    {ss : List Stmt} (h : Covers guards ps ss) (hs : ∀ x v, s ≠ .assign x v) :
    Covers guards ps (s :: ss) where
  guarded := h.guarded
  complete := fun x v hx => h.complete x v ((mem_cons.mp hx).resolve_left (hs x v).symm)

mutual

theorem Stmt.covers (guards : List Signal) (s : Stmt) :
    Covers (guards ++ s.test.reads) (s.flows guards) s.walk := by
  match s with
  | .hole | .marker _ => exact ⟨by simp [Stmt.flows], by simp [Stmt.walk]⟩
  | .assign x v =>
    constructor
    · simp [Stmt.flows, Stmt.test, Value.reads]
    · intro y u hy
      simp only [Stmt.walk, mem_singleton, Stmt.assign.injEq] at hy
      exact ⟨(x, guards ++ v.reads), by simp [Stmt.flows], hy.1.symm⟩
  | .branch test yes no =>
    exact ((covers _ yes).append (coversOption _ no)).container (by simp)
  | .select test arms other =>
    exact ((coversArms _ arms).append (coversOption _ other)).container (by simp)

theorem covers (guards : List Signal) (ss : List Stmt) :
    Covers guards (flows guards ss) (walk ss) := by
  match ss with
  | [] => exact ⟨by simp [flows], by simp [walk]⟩
  | s :: ss =>
    have hs := s.covers guards
    exact .append ⟨fun p hp y hy => hs.guarded p hp (mem_append_left _ hy), hs.complete⟩
      (covers guards ss)

theorem coversOption (guards : List Signal) (o : Option (List Stmt)) :
    Covers guards (flowsOption guards o) (walkOption o) := by
  match o with
  | none => exact ⟨by simp [flowsOption], by simp [walkOption]⟩
  | some ss => exact covers guards ss

theorem coversArms (guards : List Signal) (arms : List (Literal × List Stmt)) :
    Covers guards (flowsArms guards arms) (walkArms arms) := by
  match arms with
  | [] => exact ⟨by simp [flowsArms], by simp [walkArms]⟩
  | (_, body) :: arms => exact (covers guards body).append (coversArms guards arms)

end

theorem Stmt.flows_chosen_subset (guards : List Signal) (s : Stmt) (v : UInt64) :
    Circuit.flows (guards ++ s.test.reads) (s.chosen v) ⊆ s.flows guards := by
  have hoption : ∀ (gs : List Signal) o, Circuit.flows gs (o.getD []) = flowsOption gs o := by
    intro gs o
    cases o <;> rfl
  cases s with
  | hole | assign _ _ | marker _ => exact nil_subset _
  | branch test yes no =>
    rw [chosen]
    split
    · exact subset_append_left _ _
    · exact hoption _ no ▸ subset_append_right _ _
  | select test arms other =>
    rw [chosen, flows, ← hoption, Stmt.test]
    induction arms with
    | nil => exact subset_append_right _ _
    | cons arm arms ih =>
      by_cases hv : v = arm.1.word
      · simp [hv, flowsArms]
      · simpa [hv, flowsArms] using subset_append_of_subset_right _ ih

end Sequencer.Circuit

namespace Sequencer.Simulation

open List
open Circuit

/-! ### The last write to a signal -/

/-- Two lists of writes end with the same write to `x`, if any. -/
def SameLast (x : Signal) (ws vs : List Write) : Prop := ws.reverse.lookup x = vs.reverse.lookup x

variable {x : Signal} {ws : List Write} {ss : List Stmt} {σ : Valuation}

theorem SameLast.append {vs ws' vs' : List Write} (h : SameLast x ws vs) (h' : SameLast x ws' vs') :
    SameLast x (ws ++ ws') (vs ++ vs') := by
  unfold SameLast at *
  rw [reverse_append, reverse_append, lookup_append, lookup_append, h, h']

theorem sameLast_of_caused (hx : ∀ v, .assign x v ∉ ss) {vs : List Write}
    (hws : ∀ w ∈ ws, Caused ss w) (hvs : ∀ w ∈ vs, Caused ss w) : SameLast x ws vs := by
  have hnone : ∀ us : List Write, (∀ w ∈ us, Caused ss w) → us.reverse.lookup x = none := by
    intro us hus
    rw [lookup_eq_none_iff]
    intro w hw
    obtain ⟨⟨v, hv⟩, -⟩ := hus w (mem_reverse.mp hw)
    simp only [bne_iff_ne, ne_eq]
    rintro rfl
    exact hx v hv
  unfold SameLast
  rw [hnone ws hws, hnone vs hvs]

/-- Two valuations agree on whatever decides about an assignment to `x`. -/
def Decided (σ τ : Valuation) (x : Signal) (ps : List (Signal × List Signal)) : Prop :=
  ∀ p ∈ ps, p.1 = x → ∀ y ∈ p.2, σ.get y = τ.get y

/-- A test decides about what is inside of it, if anything in there concerns `x`. -/
theorem Decided.test {τ : Valuation} {guards : List Signal} {test : Value}
    {ps : List (Signal × List Signal)} (h : Decided σ τ x ps)
    (hcovers : Covers (guards ++ test.reads) ps ss) (hx : ¬ ∀ v, .assign x v ∉ ss) :
    eval σ test = eval τ test := by
  obtain ⟨v, hv⟩ := not_forall_not.mp hx
  obtain ⟨p, hp, hpx⟩ := hcovers.complete x v hv
  exact Value.eval_congr fun y hy =>
    h p hp hpx y (hcovers.guarded p hp (mem_append_right _ hy))

section Exec

variable {τ : Valuation}

/-- **What decides about the last write to a signal.** Where two valuations agree on the signals
that decide about the assignments to `x`, the last write of a block to `x` is the same. -/
theorem lookup_exec (guards : List Signal) (ss : List Stmt) (h : Decided σ τ x (flows guards ss))
    {ws vs : List Write} (hσ : exec σ ss = .ok ws) (hτ : exec τ ss = .ok vs) :
    SameLast x ws vs := by
  induction ss using block_induct generalizing guards ws vs with
  | nil =>
    cases hσ
    cases hτ
    rfl
  | cons s ss ihs ih =>
    obtain ⟨h, hrest⟩ := forall_mem_append.mp h
    obtain ⟨us, hs, hσ⟩ := bind_eq_ok.mp hσ
    obtain ⟨us', hss, hσ⟩ := bind_eq_ok.mp hσ
    obtain ⟨vs, ht, hτ⟩ := bind_eq_ok.mp hτ
    obtain ⟨vs', htt, hτ⟩ := bind_eq_ok.mp hτ
    cases hσ
    cases hτ
    refine .append ?_ (ih guards hrest hss htt)
    by_cases hnone : ∀ v, .assign x v ∉ s.walk
    · exact sameLast_of_caused hnone (execStmt_caused hs) (execStmt_caused ht)
    have htest := Decided.test h (s.covers guards) hnone
    cases hleaf : s.isLeaf with
    | true =>
      cases s with
      | hole | marker _ => cases hs
      | branch _ _ _ | select _ _ _ => cases hleaf
      | assign y v =>
        obtain rfl : x = y := by simpa [Stmt.walk] using hnone
        have hv : eval σ v = eval τ v := Value.eval_congr fun z hz =>
          h (x, guards ++ v.reads) (by simp [Stmt.flows]) rfl z (mem_append_right _ hz)
        obtain ⟨a, ha, hs⟩ := bind_eq_ok.mp hs
        obtain ⟨b, hb, ht⟩ := bind_eq_ok.mp ht
        cases ha.symm.trans (hv.trans hb)
        cases hs.symm.trans ht
        rfl
    | false =>
      rw [visitStmt_chosen hleaf] at hs ht
      obtain ⟨v, hv, hs⟩ := bind_eq_ok.mp hs
      obtain ⟨u, hu, ht⟩ := bind_eq_ok.mp ht
      cases hv.symm.trans (htest.trans hu)
      exact ihs v _ (fun p hp => h p (s.flows_chosen_subset guards v hp)) hs ht

end Exec

/-! ### Ranks -/

/-- **Logic without feedback.** The signals that combinational logic drives have ranks from 0 to 14,
and only those of smaller rank decide about the assignments to a signal. -/
def RankedBy (rank : Signal → Nat) (f : Fragment) : Prop :=
  ∀ p ∈ flows [] f.comb, rank p.1 ≤ 14 ∧ ∀ y ∈ p.2, y ∈ targets f.comb → rank y < rank p.1

/-- Two valuations agree on the signals that combinational logic does not drive, and on those of
rank below `k`. -/
def AgreeBelow (rank : Signal → Nat) (f : Fragment) (k : Nat) (σ τ : Valuation) : Prop :=
  ∀ x, (x ∈ targets f.comb → rank x < k) → σ.get x = τ.get x

/-- The values after a pass over the combinational logic that wrote `ws`. -/
def passed (f : Fragment) (σ : Valuation) (ws : List Write) : Valuation :=
  σ.override (Simulator.resets (targets f.comb) ++ ws)

theorem get_passed {f : Fragment} (hws : exec σ f.comb = .ok ws) (x : Signal) :
    (passed f σ ws).get x =
      if x ∈ targets f.comb then (ws.reverse.lookup x).getD x.resetWord else σ.get x := by
  split
  · rename_i hx
    rw [passed, Valuation.override_append, Valuation.get_override, get_resets, if_pos hx]
  · rename_i hx
    exact Valuation.get_override_of_notMem fun w hw hwx =>
      hx (hwx ▸ mem_targets_of_combWrites hws w hw)

namespace RankedBy

variable {rank : Signal → Nat} {f : Fragment} {k : Nat} {τ : Valuation} {vs : List Write}

theorem rank_le (h : RankedBy rank f) (hx : x ∈ targets f.comb) : rank x ≤ 14 := by
  obtain ⟨v, hv⟩ := mem_targets.mp hx
  obtain ⟨p, hp, rfl⟩ := (covers [] f.comb).complete x v hv
  exact (h p hp).1

/-- **Each pass brings one more rank to rest**: where two valuations agree below `k`, they agree
below `k + 1` after a pass. -/
theorem pass (h : RankedBy rank f) (hk : AgreeBelow rank f k σ τ) (hσ : exec σ f.comb = .ok ws)
    (hτ : exec τ f.comb = .ok vs) : AgreeBelow rank f (k + 1) (passed f σ ws) (passed f τ vs) := by
  intro x hx
  rw [get_passed hσ, get_passed hτ]
  split
  · rename_i htarget
    have hlast : SameLast x ws vs := by
      refine lookup_exec [] f.comb (fun p hp hpx y hy => hk y fun hyt => ?_) hσ hτ
      have := (h p hp).2 y hy hyt
      have := hx htarget
      rw [hpx] at *
      omega
    rw [hlast]
  · rename_i htarget
    exact hk x fun ht => absurd ht htarget

/-- Fifteen ranks are all. -/
theorem same (h : RankedBy rank f) (hk : 15 ≤ k) (hστ : AgreeBelow rank f k σ τ) : σ.Same τ :=
  fun x => hστ x fun hx => by
    have := h.rank_le hx
    omega

theorem agreeBelow_passed (hσ : exec σ f.comb = .ok ws) :
    AgreeBelow rank f 0 σ (passed f σ ws) := by
  intro x hx
  rw [get_passed hσ, if_neg fun ht => absurd (hx ht) (Nat.not_lt_zero _)]

/-- **There is one way to be at rest.** -/
theorem unique (h : RankedBy rank f) (hσ : exec σ f.comb = .ok ws)
    (hrest : (passed f σ ws).Same σ) (hτ : exec τ f.comb = .ok vs)
    (hrest' : (passed f τ vs).Same τ) (h₀ : AgreeBelow rank f 0 σ τ) : σ.Same τ := by
  have hall : ∀ k, AgreeBelow rank f k σ τ := by
    intro k
    induction k with
    | zero => exact h₀
    | succ k ih =>
      intro x hx
      rw [← hrest x, ← hrest' x]
      exact h.pass ih hσ hτ x hx
  exact h.same (Nat.le_refl 15) (hall 15)

end RankedBy

/-! ### The simulator -/

theorem fault?_ne_unsettled (v : Value) : fault? v ≠ some .unsettled := by
  induction v with
  | hole | signal | const => simp [fault?]
  | slice tag x lo hi ih => exact ih
  | binary tag op l r ihl ihr =>
    rw [fault?, Ne, Option.or_eq_some_iff, Option.or_eq_some_iff]
    rintro (hl | ⟨-, hr | ⟨-, hop⟩⟩)
    · exact ihl hl
    · exact ihr hr
    · unfold opFault? at hop
      split at hop
      · cases hop
      · split at hop <;> cases hop

theorem exec_ne_unsettled {e : Fault} (h : exec σ ss = .error e) : e ≠ .unsettled := by
  rintro rfl
  obtain ⟨t, -, ht⟩ := exec_error ss h
  cases t with
  | hole | marker => cases ht
  | assign _ v | branch v | select v => exact fault?_ne_unsettled v ht

namespace RankedBy

open Simulator

variable {rank : Signal → Nat} {f : Fragment} {s t s' t' : Simulator}

theorem changes_eq_false_iff :
    σ.changes (resets (targets f.comb) ++ ws) = false ↔ (passed f σ ws).Same σ :=
  Valuation.changes_eq_false_iff

variable (h : RankedBy rank f)

include h

/-- With `n + 1` passes left, of which the first changes nothing below rank `k`, settling ends if
`n` passes are enough for the other ranks. -/
theorem settleWithin_ne_unsettled {n k : Nat} (hnk : 15 ≤ n + k) (hs : Shows f s s.values) (hpass :
      ∀ ws, exec s.values f.comb = .ok ws → AgreeBelow rank f k s.values (passed f s.values ws)) :
    (settleWithin (n + 1) s).1 ≠ .error .unsettled := by
  induction n generalizing k s with
  | zero =>
    rw [settleWithin_succ, combWrites_eq hs]
    cases hws : exec s.values f.comb with
    | error e => simpa [Except.map] using exec_ne_unsettled hws
    | ok ws =>
      have hsame := h.same (by omega) (hpass ws hws)
      have hstill := changes_eq_false_iff.mpr fun x => (hsame x).symm
      simp [Except.map, hstill]
  | succ n ih =>
    rw [settleWithin_succ, combWrites_eq hs]
    cases hws : exec s.values f.comb with
    | error e => simpa [Except.map] using exec_ne_unsettled hws
    | ok ws =>
      simp only [Except.map]
      split
      · refine ih (k := k + 1) (by omega)
          ⟨hs.fragment, hs.combDriven, hs.syncDriven, fun _ => rfl⟩ fun us hus => ?_
        exact h.pass (hpass ws hws) hws hus
      · simp

/-- **Settling ends**, whatever the values are. -/
theorem settle_ne_unsettled (hs : Shows f s s.values) : (settle s).1 ≠ .error .unsettled :=
  h.settleWithin_ne_unsettled (Nat.le_refl 15) hs fun _ hws =>
    agreeBelow_passed hws

/-- Simulators at rest that agree on what combinational logic does not drive agree on everything. -/
theorem atRest_unique (hs : Shows f s s.values) (ht : Shows f t t.values) (hrest : s.AtRest)
    (hrest' : t.AtRest) (hst : ∀ x, x ∉ targets f.comb → s.get x = t.get x) :
    ∀ x, s.get x = t.get x := by
  obtain ⟨_, hws, hstill⟩ := hrest
  obtain ⟨_, hvs, hstill'⟩ := hrest'
  obtain ⟨ws, hexec, rfl⟩ := combWrites_eq_ok hs hws
  obtain ⟨vs, hexec', rfl⟩ := combWrites_eq_ok ht hvs
  exact h.unique hexec (changes_eq_false_iff.mp hstill) hexec' (changes_eq_false_iff.mp hstill')
    fun x hx => hst x fun hxt => absurd (hx hxt) (Nat.not_lt_zero _)

/-- **Settling has one outcome** for what combinational logic does not drive. -/
theorem settle_unique (hs : Shows f s s.values) (ht : Shows f t t.values)
    (hst : ∀ x, x ∉ targets f.comb → s.get x = t.get x) (hsettle : settle s = (.ok (), s'))
    (hsettle' : settle t = (.ok (), t')) : ∀ x, s'.get x = t'.get x := by
  obtain ⟨hlater, hrest⟩ := settle_spec hs hsettle
  obtain ⟨hlater', hrest'⟩ := settle_spec ht hsettle'
  refine h.atRest_unique (hs.later hlater) (ht.later hlater') (hrest rfl) (hrest' rfl) ?_
  intro x hx
  rw [hlater.values x hx, hlater'.values x hx, hst x hx]

end RankedBy

/-! ### What follows for the actions -/

namespace Simulator

variable {f : Fragment} {s s' : Simulator}

theorem settleWithin_error {n : Nat} {e : Fault} (hs : Shows f s s.values)
    (h : settleWithin n s = (.error e, s')) : e = .unsettled ∨ ∃ σ, exec σ f.comb = .error e := by
  induction n generalizing s with
  | zero =>
    cases h
    exact .inl rfl
  | succ n ih =>
    rw [settleWithin_succ, combWrites_eq hs] at h
    cases hws : exec s.values f.comb with
    | error e' =>
      rw [hws] at h
      cases h
      exact .inr ⟨_, hws⟩
    | ok ws =>
      simp only [hws, Except.map] at h
      split at h
      · exact ih (s := { s with values := passed f s.values ws })
          ⟨hs.fragment, hs.combDriven, hs.syncDriven, fun _ => rfl⟩ h
      · cases h

/-- Where no action fails but the driving of what the design drives, a simulator is always at
rest. -/
theorem Used.atRest (h : Used f s) (hsettles : Settles f)
    (hsync : ∀ σ, ∃ ws, exec σ f.sync = .ok ws) : s.AtRest := by
  induction h with
  | new start => exact (reset_spec (blank_shows f) (new_eq_ok start).2).2 rfl
  | @set s before x v ih =>
    by_cases hx : x ∈ targets f.comb ∨ x ∈ targets f.sync
    · rw [Simulator.set, if_pos (by rwa [before.shows.combDriven, before.shows.syncDriven])]
      exact ih
    · rw [not_or] at hx
      obtain ⟨s', hset⟩ := hsettles.set before.shows hx.1 hx.2 v
      rw [hset]
      exact (set_eq_ok before.shows hset).2.2.2
  | @step s before ih =>
    obtain ⟨changed, s', hstep⟩ := hsettles.step before.shows (hsync s.values)
    obtain ⟨_, -, -, hrest, -⟩ := step_eq_ok before.shows hstep
    rw [hstep]
    exact hrest
  | @reset s before ih =>
    obtain ⟨s', hreset⟩ := hsettles.reset before.shows
    rw [hreset]
    exact (reset_spec before.shows hreset).2 rfl

theorem cycle_set_set {s₁ : Simulator} {x y : Signal} {v w : UInt64}
    (hfirst : set x v s = (.ok (), s₁)) (hsecond : set y w s₁ = (.ok (), s')) :
    s'.cycle = s.cycle := by
  have h₁ := cycle_set x v s
  have h₂ := cycle_set y w s₁
  rw [hfirst] at h₁
  rw [hsecond] at h₂
  exact h₂.trans h₁

theorem get_set_set {s₁ : Simulator} {x y z : Signal} {v w : UInt64} (hs : Shows f s s.values)
    (hfirst : set x v s = (.ok (), s₁)) (hsecond : set y w s₁ = (.ok (), s'))
    (hz : z ∉ targets f.comb) :
    s'.get z =
      if z = y then truncate w y.bits else if z = x then truncate v x.bits else s.get z := by
  have hshows := hs.later (set_spec hs hfirst)
  split
  · rename_i hzy
    rw [hzy]
    exact (set_eq_ok hshows hsecond).2.2.1
  · rename_i hzy
    rw [(set_spec hshows hsecond).values z (by simp [hzy, hz])]
    split
    · rename_i hzx
      rw [hzx]
      exact (set_eq_ok hs hfirst).2.2.1
    · rename_i hzx
      exact (set_spec hs hfirst).values z (by simp [hzx, hz])

end Simulator

open Simulator

/-- Logic without feedback that can be executed comes to rest. -/
theorem RankedBy.settles {rank : Signal → Nat} {f : Fragment} (h : RankedBy rank f)
    (hcomb : ∀ σ, ∃ ws, exec σ f.comb = .ok ws) : Settles f := by
  intro s hs
  obtain ⟨⟨r, s'⟩, hr⟩ : ∃ r : Except Fault Unit × Simulator, settle s = r := ⟨_, rfl⟩
  cases r with
  | ok => exact ⟨s', hr⟩
  | error e =>
    obtain rfl | ⟨σ, hσ⟩ := settleWithin_error hs hr
    · exact absurd (congrArg Prod.fst hr) (h.settle_ne_unsettled hs)
    · obtain ⟨ws, hws⟩ := hcomb σ
      rw [hws] at hσ
      cases hσ

/-- The simulators of a fragment never fail, and know nothing but the inputs and the signals that
change at clock edges. -/
structure Determined (f : Fragment) : Prop where
  new : ∃ s, Simulator.new f = .ok s
  set : ∀ s, Shows f s s.values → ∀ x, x ∉ targets f.comb → x ∉ targets f.sync → ∀ v,
    ∃ s', Simulator.set x v s = (.ok (), s')
  reset : ∀ s, Shows f s s.values → ∃ s', Simulator.reset s = (.ok (), s')
  step : ∀ s, Shows f s s.values → ∃ changed s', Simulator.step s = (.ok changed, s')
  /-- Two inputs can be driven in either order. -/
  commute : ∀ s, Shows f s s.values → ∀ x y v w s₁ s₂ t₁ t₂, x ≠ y →
    Simulator.set x v s = (.ok (), s₁) → Simulator.set y w s₁ = (.ok (), s₂) →
    Simulator.set y w s = (.ok (), t₁) → Simulator.set x v t₁ = (.ok (), t₂) →
      s₂.cycle = t₂.cycle ∧ ∀ z, s₂.get z = t₂.get z
  /-- Whatever was done to two simulators, they differ only if an input or a signal that changes at
  clock edges does. -/
  state : ∀ s t, Used f s → Used f t → (∀ x, x ∉ targets f.comb → s.get x = t.get x) →
    ∀ x, s.get x = t.get x

/-- **Logic without feedback settles, and in one way only.** Settling a simulator of it never gives
up, whatever the values are, and its outcome depends only on the signals that combinational logic
does not drive. If in addition every statement has a meaning, no action on its simulators fails, and
they are determined by their inputs and the signals that change at clock edges. -/
theorem ranked_logic {rank : Signal → Nat} {f : Fragment} (hmarker : f.firstMarker? = none)
    (hdomains : ∀ x ∈ targets f.sync, x ∉ targets f.comb) (hrank : RankedBy rank f) :
    (∀ s, Shows f s s.values → (settle s).1 ≠ .error .unsettled) ∧
    (∀ s t s' t', Shows f s s.values → Shows f t t.values →
      (∀ x, x ∉ targets f.comb → s.get x = t.get x) → settle s = (.ok (), s') →
        settle t = (.ok (), t') → ∀ x, s'.get x = t'.get x) ∧
    ((∀ s ∈ walk f.comb ++ walk f.sync, ownFault? s = none) → Determined f) := by
  refine ⟨fun s hs => hrank.settle_ne_unsettled hs,
    fun s t s' t' hs ht hst hsettle hsettle' => hrank.settle_unique hs ht hst hsettle hsettle',
    fun hfault => ?_⟩
  rw [List.forall_mem_append] at hfault
  have hsync : ∀ σ, ∃ ws, exec σ f.sync = .ok ws := fun σ => exec_ok σ hfault.2
  have hsettles : Settles f := hrank.settles fun σ => exec_ok σ hfault.1
  exact
    { new := hsettles.new hmarker hdomains
      set := fun s hs x hc hx v => hsettles.set hs hc hx v
      reset := fun s hs => hsettles.reset hs
      step := fun s hs => hsettles.step hs (hsync s.values)
      commute := by
        intro s hs x y v w s₁ s₂ t₁ t₂ hxy hs₁ hs₂ ht₁ ht₂
        have hshows := hs.later (set_spec hs hs₁)
        have hshows' := hs.later (set_spec hs ht₁)
        refine ⟨(cycle_set_set hs₁ hs₂).trans (cycle_set_set ht₁ ht₂).symm, ?_⟩
        refine hrank.atRest_unique (hshows.later (set_spec hshows hs₂))
          (hshows'.later (set_spec hshows' ht₂)) (set_eq_ok hshows hs₂).2.2.2
          (set_eq_ok hshows' ht₂).2.2.2 fun z hz => ?_
        rw [get_set_set hs hs₁ hs₂ hz, get_set_set hs ht₁ ht₂ hz]
        split
        · rename_i hzy
          rw [if_neg (hzy ▸ hxy.symm)]
        · rfl
      state := fun s t hs ht hst => hrank.atRest_unique hs.shows ht.shows
        (hs.atRest hsettles hsync) (ht.atRest hsettles hsync) hst }

/-- An input, a register and two combinational signals, of which one reads the other. -/
def count : Signal := ⟨1, "count", 4, 0⟩

@[inherit_doc count]
def past : Signal := ⟨2, "past", 1, 1⟩

@[inherit_doc count]
def total : Signal := ⟨3, "total", 5, 0⟩

@[inherit_doc count]
def hit : Signal := ⟨4, "hit", 1, 0⟩

/-- `total = count + past`, `hit` tells whether it is three, and `past` remembers it. -/
def tally : Fragment where
  comb :=
    [.branch (.binary 12 .eq (.signal total) (.const 11 ⟨3, 2⟩))
      [.assign hit (.const 10 ⟨1, 1⟩)] none,
    .assign total (.binary 13 .add (.signal count) (.signal past))]
  sync := [.assign past (.signal hit)]

/-- `hit` waits for `total`, so it has rank one. -/
theorem tally_determined :
    RankedBy (fun x => if x = hit then 1 else 0) tally ∧ Determined tally := by
  have hrank : RankedBy (fun x => if x = hit then 1 else 0) tally := by
    unfold RankedBy
    decide
  exact ⟨hrank, (ranked_logic (by decide) (by decide) hrank).2.2 (by decide)⟩

/-- An input so wide that the width of a sum of it wraps around. -/
def broad : Signal := ⟨1, "broad", 9223372036854775807, 0⟩

def swell : Fragment where
  comb := [.assign count
    (.binary 11 .shl (.signal broad) (.binary 10 .add (.signal broad) (.signal broad)))]
  sync := []

/-- That every statement has a meaning cannot be left out: logic without feedback can hold a value
without a width, and then has no simulator. -/
theorem swell_fails : swell.firstMarker? = none ∧
    (∀ x ∈ targets swell.sync, x ∉ targets swell.comb) ∧ RankedBy (fun _ => 0) swell ∧
      Simulator.new swell = .error .unmeasurable := by
  refine ⟨by decide, by decide, ?_, rfl⟩
  unfold RankedBy
  decide

end Sequencer.Simulation
