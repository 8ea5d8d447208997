import Mathlib.Data.List.Nodup
import Sequencer.Proofs.Machine.Transitions

/-!
# Machines as hardware

The hardware of a machine is the abstract machine: in every pass the body of the current state is
carried out, and the next number is that of the last successor it named. The simulator may be
treated in any way, also by calls that fail.
-/

namespace Sequencer

open List
open Circuit Simulation State Valuation Simulator Option Simulator

namespace Machine

/-! ### Lists of states -/

section Collecting

theorem indexIn_isSome_iff {states : List State} {l : StateId} :
    (indexIn states l).isSome ↔ l ∈ states.map label := by
  simp [indexIn]

theorem collect_ok {seen states : List State} (h : ((seen ++ states).map label).Nodup) :
    collect seen (states.map some) = .ok (seen ++ states) := by
  induction states generalizing seen with
  | nil => simp [collect]
  | cons s states ih =>
    have hs : indexIn seen s.label = none := by
      rw [indexIn, findIdx?_eq_none_iff]
      intro t ht
      simp only [map_append, map_cons, nodup_append'] at h
      have hdisjoint := h.2.2 (mem_map_of_mem ht)
      simp only [mem_cons] at hdisjoint
      simpa using fun hl => hdisjoint (.inl hl)
    rw [map_cons, collect, hs]
    simpa using ih (show ((seen ++ [s] ++ states).map label).Nodup by simpa using h)

variable {states : List (Option State)}

theorem collect_eq_ok {seen result : List State}
    (hseen : (seen.map label).Nodup) (h : collect seen states = .ok result) :
    ∃ rest, states = rest.map some ∧ result = seen ++ rest ∧ (result.map label).Nodup := by
  induction states generalizing seen with
  | nil =>
    cases h
    exact ⟨[], rfl, by simp, hseen⟩
  | cons o states ih =>
    cases o with
    | none => cases h
    | some s =>
      rw [collect] at h
      split at h
      · cases h
      · rename_i hs
        have hnew : s.label ∉ seen.map label := by
          rw [indexIn, findIdx?_eq_none_iff] at hs
          simpa using hs
        have hseen' : ((seen ++ [s]).map label).Nodup := by
          rw [map_append, nodup_append']
          exact ⟨hseen, by simp, by simpa using hnew⟩
        obtain ⟨rest, rfl, rfl, hnodup⟩ := ih hseen' h
        exact ⟨s :: rest, rfl, by simp, hnodup⟩

/-- Which lists of states are no machines. -/
theorem collect_fails_iff :
    (∃ e, collect [] states = .error e) ↔
      none ∈ states ∨ ¬ ((states.filterMap id).map label).Nodup := by
  constructor
  · rintro ⟨e, he⟩
    by_contra hno
    rw [not_or, not_not] at hno
    obtain ⟨hall, hnodup⟩ := hno
    have hstates : (states.filterMap id).map some = states := by
      clear hnodup he
      induction states with
      | nil => rfl
      | cons o states ih =>
        rw [mem_cons, not_or] at hall
        cases o with
        | none => exact absurd rfl hall.1
        | some s => exact congrArg (some s :: ·) (ih hall.2)
    have hok := collect_ok (show (([] ++ states.filterMap id).map label).Nodup from hnodup)
    rw [hstates, he] at hok
    cases hok
  · intro hbad
    cases h : collect [] states with
    | error e => exact ⟨e, rfl⟩
    | ok result =>
      obtain ⟨rest, rfl, rfl, hnodup⟩ := collect_eq_ok (by simp) h
      obtain hnone | htwice := hbad
      · simp at hnone
      · exact absurd (by simpa using hnodup) htwice

theorem realize_eq {n : Nat} :
    (realize states n).1 = (collect [] states).map fun ss =>
      ⟨ss, ⟨n, "state", clampWidth (stateBits ss.length), 0⟩,
        ⟨n + 1, "next_state", clampWidth (stateBits ss.length), 0⟩⟩ := by
  unfold realize
  cases collect [] states <;> rfl

end Collecting

/-- The signals of a machine are as narrow as the number of its states allows. -/
theorem stateBits_spec {n : Nat} (hn : n < 2 ^ 63) :
    1 ≤ clampWidth (stateBits n) ∧ n - 1 < 2 ^ (clampWidth (stateBits n)).toNat ∧
      ∀ w : Nat, 1 ≤ w → n - 1 < 2 ^ w → clampWidth (stateBits n) ≤ w := by
  have hlt : n - 1 < 2 ^ 63 := by omega
  refine ⟨Int.le_max_right _ _, ?_, fun w hw h => ?_⟩
  · refine Nat.lt_of_lt_of_le (lt_two_pow_bitsFor (Nat.le_refl _) hlt) ?_
    exact Nat.pow_le_pow_right (by omega) (Int.toNat_le_toNat (Int.le_max_left _ _))
  · exact Int.max_le.mpr ⟨bitsFor_le hlt hw h, by omega⟩

/-! ### The number of the next state -/

/-- The number of the state that follows that with number `i`: that of the successor named last, or
`i` itself. -/
def successor (m : Machine) (i : Nat) (ds : List Deed) : Nat :=
  ((ds.filterMap Deed.target?).getLast?.bind m.index?).getD i

/-- What is known of the machine of a list of states: its signals are new and hold every number. -/
structure Realized (m : Machine) : Prop where
  small : m.states.length < 2 ^ 63
  state_bits : m.state.bits = clampWidth (stateBits m.states.length)
  next_bits : m.next.bits = clampWidth (stateBits m.states.length)
  state_reset : m.state.reset = 0
  /-- No body writes a signal of the machine. -/
  free : ∀ s ∈ m.states, m.next ∉ targets s.body

/-- The signals of a machine hold the number of every state. -/
structure Sized (m : Machine) : Prop where
  small : m.states.length < 2 ^ 63
  state_bits : m.state.bits = clampWidth (stateBits m.states.length)
  next_bits : m.next.bits = clampWidth (stateBits m.states.length)

section Numbers

variable {m : Machine} {i : Nat} {ds : List Deed}

theorem Realized.sized (h : m.Realized) : m.Sized := ⟨h.small, h.state_bits, h.next_bits⟩

theorem Sized.truncate_eq (h : m.Sized) (hi : i < m.states.length) {width : Int}
    (hwidth : width = clampWidth (stateBits m.states.length)) :
    truncate (UInt64.ofNat i) width = UInt64.ofNat i := by
  have hlen := h.small
  refine truncate_ofNat (Nat.le_sub_one_of_lt hi) (by omega) ?_
  rw [hwidth]
  exact Int.le_max_left _ _

theorem Sized.word_code (h : m.Sized) (hi : i < m.states.length) :
    (m.code i).word = UInt64.ofNat i := by
  refine h.truncate_eq hi ?_
  simp only [code, Literal.sized, h.state_bits, clampWidth]
  omega

theorem index?_lt {l : StateId} (h : m.index? l = some i) : i < m.states.length := by
  obtain ⟨hlt, -⟩ := findIdx?_eq_some_iff_getElem.mp h
  exact hlt

theorem successor_lt (hi : i < m.states.length) : m.successor i ds < m.states.length := by
  unfold successor
  cases h : (ds.filterMap Deed.target?).getLast?.bind m.index? with
  | none => exact hi
  | some j =>
    obtain ⟨l, -, hl⟩ := bind_eq_some_iff.mp h
    exact index?_lt hl

theorem Sized.jumpWrite_eq (h : m.Sized) {l : StateId} (hl : m.index? l = some i) :
    m.jumpWrite l = (m.next, UInt64.ofNat i) := by
  rw [jumpWrite, hl, getD_some, h.word_code (index?_lt hl),
    h.truncate_eq (index?_lt hl) h.next_bits]

/-- The arms for the states of a machine: a number runs the one of its state. -/
theorem Sized.visitArms_eq (h : m.Sized) (bodies : List (List Stmt)) {body : List Stmt}
    (hlen : bodies.length = m.states.length) (hi : bodies[i]? = some body) {σ : Valuation} :
    visitArms (execLeaf σ) σ (UInt64.ofNat i) (bodies.mapIdx fun j b => (m.code (0 + j), b)) =
      (exec σ body).map some := by
  have hsmall := h.small
  have := visitArms_numbered (σ := σ) m.code bodies (k := 0)
    (fun j hj => h.word_code (by omega)) (by omega) hi
  rwa [Nat.zero_add] at this

/-- **The last transition wins**, and nothing else is different from what the deeds write. -/
theorem Sized.override_eq (h : m.Sized) {σ : Valuation} (hσ : σ.get m.next = UInt64.ofNat i)
    (hwrites : ∀ w, .write w ∈ ds → w.1 ≠ m.next) (hjumps : ∀ l, .go l ∈ ds → (m.index? l).isSome) :
    (σ.override (ds.map m.writeOf)).get m.next = UInt64.ofNat (m.successor i ds) ∧
      ∀ x, x ≠ m.next →
        (σ.override (ds.map m.writeOf)).get x = (σ.override (ds.filterMap Deed.write?)).get x := by
  induction ds using reverseRecOn with
  | nil => exact ⟨hσ, fun _ _ => rfl⟩
  | append_singleton ds d ih =>
    obtain ⟨hnext, hother⟩ := ih (fun w hw => hwrites w (mem_append_left _ hw))
      fun l hl => hjumps l (mem_append_left _ hl)
    rw [map_append, override_append, filterMap_append, override_append]
    cases d with
    | write w =>
      have hw := hwrites w (by simp)
      refine ⟨?_, fun x hx => ?_⟩
      · rw [map_singleton, override_cons, override_nil]
        rw [show m.writeOf (.write w) = w from rfl, get_set, if_neg hw.symm, hnext]
        simp [successor, Deed.target?]
      · simp [writeOf, Deed.write?, hother x hx]
    | go l =>
      obtain ⟨j, hj⟩ := isSome_iff_exists.mp (hjumps l (by simp))
      rw [map_singleton, override_cons, override_nil,
        show m.writeOf (.go l) = m.jumpWrite l from rfl, h.jumpWrite_eq hj]
      refine ⟨?_, fun x hx => ?_⟩
      · simp [successor, Deed.target?, hj]
      · rw [get_set, if_neg hx, hother x hx]
        rfl

end Numbers

/-! ### One pass -/

section Hardware

variable {m : Machine}

/-- One pass over the logic `f` in the state with number `i` and the given body: it fails as the
body does, or it writes what the body does and, in any case, the number of the next state. -/
def Pass (m : Machine) (f : Fragment) (σ : Valuation) (i : Nat) (body : List Stmt) : Prop :=
  match deeds σ body with
  | .error e => exec σ f.comb = .error e
  | .ok ds => ∃ ws, exec σ f.comb = .ok ws ∧ (∃ w ∈ ws, w.1 = m.next) ∧
      (σ.override ws).get m.next = UInt64.ofNat (m.successor i ds) ∧
      ∀ x, x ≠ m.next → (σ.override ws).get x = (σ.override (ds.filterMap Deed.write?)).get x

/-- The hardware of a machine with some states. -/
def logic (m : Machine) (arms : List (Literal × List Stmt)) : Fragment where
  comb := [.assign m.next (.signal m.state), .select (.signal m.state) arms none]
  sync := [.assign m.state (.signal m.next)]

/-- One pass over the logic runs an arm, after the state has been made the next one. -/
theorem Sized.exec_comb (h : m.Sized) {arms : List (Literal × List Stmt)} {σ : Valuation} {i : Nat}
    (hi : σ.get m.state = UInt64.ofNat i) (hlt : i < m.states.length)
    {ws : Except Simulation.Fault (List Write)}
    (harms : visitArms (execLeaf σ) σ (UInt64.ofNat i) arms = ws.map some) :
    exec σ (m.logic arms).comb = ws.map ((m.next, UInt64.ofNat i) :: ·) := by
  have hstate : eval σ (.signal m.state) = .ok (UInt64.ofNat i) := by
    rw [← hi]
    rfl
  rw [logic, exec_cons_cons, exec_assign, hstate, exec_select, hi, harms]
  simp only [Except.map, bind, Except.bind, h.truncate_eq hlt h.next_bits]
  cases ws <;> rfl

theorem Sized.exec_sync (h : m.Sized) {σ : Valuation} {j : Nat} (hj : j < m.states.length)
    (hnext : σ.get m.next = UInt64.ofNat j) :
    exec σ [.assign m.state (.signal m.next)] = .ok [(m.state, UInt64.ofNat j)] := by
  rw [exec_assign, show eval σ (.signal m.next) = .ok (σ.get m.next) from rfl, hnext, Except.map,
    h.truncate_eq hj h.state_bits]

theorem Realized.pass (h : m.Realized) {arms : List (Literal × List Stmt)} {σ : Valuation} {i : Nat}
    {s : State} (hs : m.states[i]? = some s) (hi : σ.get m.state = UInt64.ofNat i)
    (hclosed : m.Closed (walk s.body))
    (harms : visitArms (execLeaf σ) σ (UInt64.ofNat i) arms =
      ((deeds σ s.body).map (List.map m.writeOf)).map some) : m.Pass (m.logic arms) σ i s.body := by
  have hlt := (List.getElem?_eq_some_iff.mp hs).1
  have hexec : exec σ (m.logic arms).comb = (deeds σ s.body).map fun ds =>
      (m.next, UInt64.ofNat i) :: ds.map m.writeOf := by
    rw [h.sized.exec_comb hi hlt harms]
    cases deeds σ s.body <;> rfl
  unfold Pass
  rw [hexec]
  cases hds : deeds σ s.body with
  | error e => rfl
  | ok ds =>
    have hof := deeds_of s.body hds
    obtain ⟨hnext, hother⟩ := h.sized.override_eq (σ := σ.set m.next (UInt64.ofNat i)) (i := i)
      (by simp)
      (fun w hw hx => h.free s (mem_of_getElem? hs) (hx ▸ mem_targets.mpr (hof _ hw)))
      (fun l hl => hclosed l (hof _ hl))
    refine ⟨_, rfl, ⟨_, mem_cons_self, rfl⟩, hnext, fun x hx => ?_⟩
    refine (hother x hx).trans ?_
    rw [get_override, get_override, get_set, if_neg hx]

/-- The hardware of a machine with states: one arm for each of them. -/
theorem fragment_cases (h : m.Realized) :
    ((∀ s ∈ m.states, m.Closed (walk s.body)) ∧ ∃ f, m.fragment = .ok f ∧
      (∀ σ i s, m.states[i]? = some s → σ.get m.state = UInt64.ofNat i → m.Pass f σ i s.body) ∧
      (m.states ≠ [] → m.next ∈ targets f.comb ∧ f.sync = [.assign m.state (.signal m.next)])) ∨
    ((∃ s ∈ m.states, ¬ m.Closed (walk s.body)) ∧ ∃ j, m.fragment = .error (.unknownState j)) := by
  rw [fragment]
  cases hstates : m.states with
  | nil => exact .inl ⟨by simp, .empty, rfl, by simp, by simp⟩
  | cons t states =>
    rw [← hstates, if_neg (by simp [hstates])]
    obtain ⟨hclosed, bodies, harms, hexec⟩ | ⟨hopen, j, hj⟩ := arms_cases m.states 0
    · refine .inl ⟨hclosed, m.logic _, by rw [harms]; rfl, fun σ i s hs hi => ?_,
        fun _ => ⟨mem_targets.mpr ⟨.signal m.state, by simp [logic, walk, Stmt.walk]⟩, rfl⟩⟩
      refine h.pass hs hi (hclosed s (mem_of_getElem? hs)) ?_
      obtain ⟨hlt, rfl⟩ := List.getElem?_eq_some_iff.mp hs
      have hlt' : i < bodies.length := hexec.length_eq ▸ hlt
      have hbody : exec σ bodies[i] = _ := (forall₂_iff_get.mp hexec).2 i hlt hlt' σ
      rw [h.sized.visitArms_eq _ hexec.length_eq.symm (getElem?_eq_getElem hlt'), hbody]
      rfl
    · exact .inr ⟨hopen, j, by rw [hj]; rfl⟩

end Hardware

/-! ### Running -/

/-- What is known of the hardware of a machine that has states. -/
structure Logic (m : Machine) (f : Fragment) : Prop where
  realized : m.Realized
  nonempty : 0 < m.states.length
  pass : ∀ σ i s, m.states[i]? = some s → σ.get m.state = UInt64.ofNat i → m.Pass f σ i s.body
  next : m.next ∈ targets f.comb
  sync : f.sync = [.assign m.state (.signal m.next)]

/-- Both signals of the machine hold the number of a state. -/
structure Numbered (m : Machine) (s : Simulator) : Prop where
  state : ∃ k < m.states.length, s.get m.state = UInt64.ofNat k
  next : ∃ j < m.states.length, s.get m.next = UInt64.ofNat j

section Running

variable {m : Machine} {f : Fragment} {s s' : Simulator} {i : Nat} {st : State}

theorem Logic.targets_sync (h : m.Logic f) : targets f.sync = [m.state] := by
  rw [h.sync]
  rfl

theorem Logic.next_ne (h : m.Logic f) (hfree : m.state ∉ targets f.comb) : m.next ≠ m.state :=
  fun he => hfree (he ▸ h.next)

theorem Logic.exec_sync (h : m.Logic f) {j : Nat} (hj : j < m.states.length)
    (hnext : s.get m.next = UInt64.ofNat j) :
    exec s.values f.sync = .ok [(m.state, UInt64.ofNat j)] := by
  rw [h.sync]
  exact h.realized.sized.exec_sync hj hnext

theorem Logic.next_of_pass (h : m.Logic f) (hs : s.Shows f s.values) (hst : m.states[i]? = some st)
    (hi : s.get m.state = UInt64.ofNat i) {ws : List Write} (hws : s.combWrites = .ok ws) :
    ∃ ds, deeds s.values st.body = .ok ds ∧
      (s.values.override ws).get m.next = UInt64.ofNat (m.successor i ds) := by
  obtain ⟨us, hus, rfl⟩ := combWrites_eq_ok hs hws
  have hpass := h.pass s.values i st hst hi
  unfold Pass at hpass
  cases hds : deeds s.values st.body with
  | error e =>
    rw [hds, hus] at hpass
    cases hpass
  | ok ds =>
    rw [hds] at hpass
    obtain ⟨ws, hws, hwritten, hnext, -⟩ := hpass
    obtain rfl : us = ws := Except.ok.inj (hus.symm.trans hws)
    refine ⟨ds, rfl, ?_⟩
    rw [override_append, ← hnext]
    exact get_override_of_mem hwritten

theorem Logic.settleWithin (h : m.Logic f) (hfree : m.state ∉ targets f.comb) (n : Nat)
    (hs : s.Shows f s.values) (hn : m.Numbered s) : m.Numbered (settleWithin n s).2 := by
  induction n generalizing s with
  | zero => exact hn
  | succ n ih =>
    rw [settleWithin_succ]
    split
    · exact hn
    · rename_i ws hws
      split
      · have hlater := later_pass hs hws
        obtain ⟨k, hk, hstate⟩ := hn.state
        obtain ⟨ds, -, hnext⟩ := h.next_of_pass hs (getElem?_eq_getElem hk) hstate hws
        exact ih (hs.later hlater) ⟨⟨k, hk, (hlater.values _ hfree).trans hstate⟩,
          m.successor k ds, successor_lt hk, hnext⟩
      · exact hn

section

variable (h : m.Logic f) (hfree : m.state ∉ targets f.comb) (hs : s.Shows f s.values)
  (hn : m.Numbered s)

include h hfree hs hn

/-- A change of signals that are not the machine's, and settling. -/
theorem Logic.settle : m.Numbered (settle s).2 ∧ (settle s).2.get m.state = s.get m.state :=
  ⟨h.settleWithin hfree _ hs hn, (settle_spec hs rfl).1.values _ hfree⟩

theorem Logic.set (x : Signal) (v : UInt64) :
    m.Numbered (set x v s).2 ∧ (set x v s).2.get m.state = s.get m.state := by
  rw [Simulator.set]
  split
  · exact ⟨hn, rfl⟩
  · rename_i hx
    rw [hs.combDriven, hs.syncDriven, h.targets_sync, mem_singleton, not_or] at hx
    have hput : Later [x] s
        { s with values := s.values.override [(x, truncate v x.bits)] } :=
      later_override (by simp) s.cycle
    have hstate := hput.values m.state fun he => hx.2 (mem_singleton.mp he).symm
    have hnext := hput.values m.next fun he => hx.1 (mem_singleton.mp he ▸ h.next)
    obtain ⟨hn', hkept⟩ := h.settle hfree (hs.later hput)
      ⟨by rw [hstate]; exact hn.state, by rw [hnext]; exact hn.next⟩
    exact ⟨hn', hkept.trans hstate⟩

theorem Logic.reset : m.Numbered (reset s).2 ∧ (reset s).2.get m.state = 0 := by
  have hback : Later [m.state] s
      { s with values := s.values.override (resets s.syncDriven), cycle := 0 } :=
    later_override (by simp [resets, hs.syncDriven, h.targets_sync]) 0
  have hstate : get
      { s with values := s.values.override (resets s.syncDriven), cycle := 0 }
        m.state = 0 := by
    rw [Simulator.get, get_resets, hs.syncDriven, h.targets_sync, if_pos (by simp),
      Signal.resetWord, h.realized.state_reset]
    exact truncate_zero _
  have hnext := hback.values m.next (by simpa using h.next_ne hfree)
  obtain ⟨hn', hkept⟩ := h.settle hfree (hs.later hback)
    ⟨⟨0, h.nonempty, hstate⟩, by rw [hnext]; exact hn.next⟩
  exact ⟨hn', hkept.trans hstate⟩

/-- A clock edge goes to the next state, whether the logic settles after it or not. -/
theorem Logic.step :
    m.Numbered (Simulator.step s).2 ∧ (Simulator.step s).2.get m.state = s.get m.next := by
  obtain ⟨j, hj, hnext⟩ := hn.next
  have hexec : exec s.values s.fragment.sync = .ok [(m.state, UInt64.ofNat j)] := by
    rw [hs.fragment]
    exact h.exec_sync hj hnext
  have hedge : Later [m.state] s { s with
      values := s.values.override [(m.state, UInt64.ofNat j)], cycle := s.cycle + 1 } :=
    later_override (by simp) _
  have hstate : get { s with
      values := s.values.override [(m.state, UInt64.ofNat j)], cycle := s.cycle + 1 } m.state =
        UInt64.ofNat j := by
    simp [Simulator.get]
  have hnext' := hedge.values m.next (by simpa using h.next_ne hfree)
  obtain ⟨hn', hkept⟩ := h.settle hfree (hs.later hedge)
    ⟨⟨j, hj, hstate⟩, by rw [hnext']; exact hn.next⟩
  have hend : (Simulator.step s).2 = (Simulator.settle { s with
      values := s.values.override [(m.state, UInt64.ofNat j)], cycle := s.cycle + 1 }).2 := by
    rw [Simulator.step, hexec]
    dsimp only
    split <;> rename_i hsettle <;> rw [hsettle]
  rw [hend, hnext]
  exact ⟨hn', hkept.trans hstate⟩

end

/-- **The state is a number of a state all the time.** -/
theorem Logic.numbered (h : m.Logic f) (hs : s.Used f) : m.Numbered s := by
  have hfree : m.state ∉ targets f.comb := hs.domains m.state (by simp [h.targets_sync])
  induction hs with
  | new start =>
    have hblank : m.Numbered (blank f) := ⟨⟨0, h.nonempty, rfl⟩, 0, h.nonempty, rfl⟩
    have hnew := (h.reset hfree (blank_shows f) hblank).1
    rwa [(new_eq_ok start).2] at hnew
  | set before x v ih => exact (h.set hfree before.shows ih x v).1
  | step before ih => exact (h.step hfree before.shows ih).1
  | reset before ih => exact (h.reset hfree before.shows ih).1

end Running

/-- How the hardware `f` of the machine `m` runs, whatever is done to its simulator. -/
structure Runs (m : Machine) (f : Fragment) : Prop where
  start : ∀ s : Simulator, new f = .ok s → s.get m.state = 0
  /-- The state is the number of a state all the time. -/
  below : ∀ s : Simulator, s.Used f → ∃ k < m.states.length, s.get m.state = UInt64.ofNat k
  /-- Inputs leave the state as it is. -/
  set : ∀ s : Simulator, s.Used f → ∀ x v, (Simulator.set x v s).2.get m.state = s.get m.state
  reset : ∀ s : Simulator, s.Used f → (reset s).2.get m.state = 0
  /-- Whatever inputs and clock edges come, the logic is at rest after each that succeeds. -/
  rest : ∀ es s, play f es = .ok s → s.Used f ∧ s.AtRest
  /-- A clock edge follows the transition that the body of the state makes. -/
  step : ∀ s : Simulator, s.Used f → s.AtRest → ∀ k st, m.states[k]? = some st →
    s.get m.state = UInt64.ofNat k → ∃ ds, deeds s.values st.body = .ok ds ∧
      (step s).2.get m.state = UInt64.ofNat (m.successor k ds)

theorem Logic.runs {m : Machine} {f : Fragment} (h : m.Logic f) : m.Runs f := by
  have hfree : ∀ {s : Simulator}, s.Used f → m.state ∉ targets f.comb := fun hs =>
    hs.domains m.state (by simp [h.targets_sync])
  refine ⟨fun s hs => ?_, fun s hs => (h.numbered hs).state,
    fun s hs x v => (h.set (hfree hs) hs.shows (h.numbered hs) x v).2,
    fun s hs => (h.reset (hfree hs) hs.shows (h.numbered hs)).2,
    fun es s hs => play_spec hs, fun s hs hrest k st hst hk => ?_⟩
  · have hblank : m.Numbered (blank f) := ⟨⟨0, h.nonempty, rfl⟩, 0, h.nonempty, rfl⟩
    have hreset := (h.reset (hfree (.new hs)) (blank_shows f) hblank).2
    rwa [(new_eq_ok hs).2] at hreset
  · obtain ⟨ws, hws, hchange⟩ := hrest
    obtain ⟨ds, hds, hnext⟩ := h.next_of_pass hs.shows hst hk hws
    refine ⟨ds, hds, ?_⟩
    rw [(h.step (hfree hs) hs.shows (h.numbered hs)).2, ← hnext]
    exact (changes_eq_false_iff.mp hchange m.next).symm

theorem realized_of_realize {states : List (Option State)} {n : Nat} {m : Machine}
    (hsize : states.length < 2 ^ 63)
    (hfresh : ∀ s, some s ∈ states → ∀ x ∈ targets s.body, x.tag < n)
    (hm : (realize states n).1 = .ok m) : m.Realized ∧ m.states.map some = states := by
  rw [realize_eq] at hm
  cases hcollect : collect [] states with
  | error e =>
    rw [hcollect] at hm
    cases hm
  | ok ss =>
    rw [hcollect] at hm
    cases hm
    obtain ⟨rest, rfl, rfl, -⟩ := collect_eq_ok (by simp) hcollect
    rw [length_map] at hsize
    refine ⟨⟨hsize, rfl, rfl, rfl, fun s hs hx => ?_⟩, rfl⟩
    have hlt : n + 1 < n := hfresh s (mem_map_of_mem hs) _ hx
    omega

/-- **A machine is implemented by its hardware.** -/
theorem realize_implements (states : List (Option State)) (n : Nat) (hsize : states.length < 2 ^ 63)
    (hfresh : ∀ s, some s ∈ states → ∀ x ∈ targets s.body, x.tag < n) :
    ((∃ e, (realize states n).1 = .error e) ↔
      none ∈ states ∨ ¬ ((states.filterMap id).map label).Nodup) ∧
    ∀ m, (realize states n).1 = .ok m →
      m.states.map some = states ∧
      (1 ≤ m.state.bits ∧ m.states.length - 1 < 2 ^ m.state.bits.toNat ∧
        (∀ w : Nat, 1 ≤ w → m.states.length - 1 < 2 ^ w → m.state.bits ≤ w) ∧
          m.next.bits = m.state.bits) ∧
      ((∃ i, m.fragment = .error (.unknownState i)) ↔
        ∃ s ∈ m.states, ∃ l, goto l ∈ walk s.body ∧ l ∉ m.states.map label) ∧
      ((∀ s ∈ m.states, ∀ l, goto l ∈ walk s.body → l ∈ m.states.map label) →
        ∃ f, m.fragment = .ok f ∧
          (∀ σ i s, m.states[i]? = some s → σ.get m.state = UInt64.ofNat i → m.Pass f σ i s.body) ∧
          (m.states ≠ [] → m.Runs f)) := by
  refine ⟨?_, fun m hm => ?_⟩
  · rw [← collect_fails_iff, realize_eq]
    cases collect [] states <;> simp [Except.map]
  · obtain ⟨hrealized, hstates⟩ := realized_of_realize hsize hfresh hm
    obtain ⟨hone, hholds, hleast⟩ := stateBits_spec hrealized.small
    rw [hrealized.next_bits, hrealized.state_bits]
    refine ⟨hstates, ⟨hone, hholds, hleast, rfl⟩, ?_⟩
    have hclosed : ∀ s : State, m.Closed (walk s.body) ↔
        ∀ l, goto l ∈ walk s.body → l ∈ m.states.map label := fun s =>
      forall_congr' fun l => imp_congr_right fun _ => indexIn_isSome_iff
    obtain ⟨hall, f, hf, hpass, hlogic⟩ | ⟨⟨s, hs, hopen⟩, j, hj⟩ := fragment_cases hrealized
    · refine ⟨⟨?_, ?_⟩, fun _ => ⟨f, hf, hpass, fun hne => ?_⟩⟩
      · rintro ⟨i, hi⟩
        rw [hf] at hi
        cases hi
      · rintro ⟨s, hs, l, hl, hout⟩
        exact absurd ((hclosed s).mp (hall s hs) l hl) hout
      · obtain ⟨hnext, hsync⟩ := hlogic hne
        exact Logic.runs ⟨hrealized, length_pos_iff.mpr hne, hpass, hnext, hsync⟩
    · refine ⟨⟨fun _ => ?_, fun _ => ⟨j, hj⟩⟩, fun hin => absurd ((hclosed s).mpr (hin s hs)) hopen⟩
      rw [hclosed] at hopen
      push Not at hopen
      exact ⟨s, hs, hopen⟩

/-- A lamp that waits to be lit: its first state goes on to the second one unless it is told to
stay. -/
def lampStates : List State :=
  [⟨7, [goto 8, .branch (.signal ⟨1, "lit", 1, 0⟩) [] (some [goto 7])]⟩,
    ⟨8, [.assign ⟨2, "lamp", 1, 0⟩ (.ofLiteral (.sized 1 1)), goto 9]⟩,
    ⟨9, []⟩]

/-- The lamp is realized, and its hardware runs like it. -/
theorem lamp_implemented : ∃ m f, (realize (lampStates.map some) 3).1 = .ok m ∧
    m.fragment = .ok f ∧ m.Runs f := by
  have hfresh : ∀ s, some s ∈ lampStates.map some → ∀ x ∈ targets s.body, x.tag < 3 := by
    simp only [lampStates, map_cons, map_nil, mem_cons, not_mem_nil, or_false, some.injEq]
    rintro s (rfl | rfl | rfl) <;> decide
  obtain ⟨hfails, hworks⟩ := realize_implements (lampStates.map some) 3 (by decide) hfresh
  cases hm : (realize (lampStates.map some) 3).1 with
  | error e => exact absurd (hfails.mp ⟨e, hm⟩) (by simp [lampStates])
  | ok m =>
      obtain ⟨hstates, -, -, himplements⟩ := hworks m hm
      have hlist : m.states = lampStates :=
        map_injective_iff.mpr (fun _ _ => some.inj) hstates
      rw [hlist] at himplements
      obtain ⟨f, hf, -, hruns⟩ :=
        himplements (by simp [lampStates, walk, Stmt.walk, walkOption, goto])
      exact ⟨m, f, rfl, hf, hruns (by simp [lampStates])⟩

end Machine

end Sequencer
