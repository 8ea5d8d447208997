import Sequencer.Proofs.Design.ClockEdge
import Sequencer.Proofs.Register.History

/-!
# Selecting a source

Where a program loads a register, the combinational logic sets the selector to the code of the
source; at the clock edge the register stores the source with that code. The code is fixed when the
load is recorded, its width when the register is finalized, and the load logic counts the sources
once more; they agree.
-/

namespace Sequencer

open List
open Circuit Lowering Simulation Simulator Valuation Bank Register Option Except

/-! ### The signals of registers -/

/-- The two signals that a register can have. -/
inductive Register.Part where
  | storage
  | selector

def Register.signal? (r : Register) : Part → Option Signal
  | .storage => some r.storage
  | .selector => r.selector

/-- No two parts of registers have the same signal, and all of them start at zero. -/
structure Lowering.Workshop.Separate (w : Workshop) : Prop where
  made : ∀ (i : Nat) r part x, w.bank.registers[i]? = some r → r.signal? part = some x →
    x.tag < w.supply ∧ x.reset = 0
  apart : ∀ (i j : Nat) r r' part part' x y, w.bank.registers[i]? = some r →
    w.bank.registers[j]? = some r' → r.signal? part = some x → r'.signal? part' = some y →
    x.tag = y.tag → i = j ∧ part = part'

namespace Lowering.Workshop.Separate

variable {w w' : Workshop}

theorem new (supply : Nat) : (Workshop.new supply).Separate := by
  constructor <;> simp [Workshop.new, Bank.empty]

variable (h : w.Separate)

include h

theorem extend (k : Nat) (part : Part) (hsupply : w.supply ≤ w'.supply)
    (hnew : ∀ (i : Nat) r part' x, w'.bank.registers[i]? = some r → r.signal? part' = some x →
      (∃ r₀, w.bank.registers[i]? = some r₀ ∧ r₀.signal? part' = some x) ∨
        (i = k ∧ part' = part ∧ x.tag = w.supply ∧ x.reset = 0 ∧ w.supply < w'.supply)) :
    w'.Separate := by
  constructor
  · intro i r part' x hr hx
    obtain ⟨r₀, hr₀, hx₀⟩ | ⟨-, -, htag, hreset, hlt⟩ := hnew i r part' x hr hx
    · obtain ⟨htag, hreset⟩ := h.made i r₀ part' x hr₀ hx₀
      exact ⟨by omega, hreset⟩
    · exact ⟨by omega, hreset⟩
  · intro i j r r' part₁ part₂ x y hr hr' hx hy htag
    obtain ⟨r₁, hr₁, hx₁⟩ | ⟨rfl, rfl, hx₁, -⟩ := hnew i r part₁ x hr hx <;>
      obtain ⟨r₂, hr₂, hy₂⟩ | ⟨rfl, rfl, hy₂, -⟩ := hnew j r' part₂ y hr' hy
    · exact h.apart i j r₁ r₂ part₁ part₂ x y hr₁ hr₂ hx₁ hy₂ htag
    · have := (h.made i r₁ part₁ x hr₁ hx₁).1
      omega
    · have := (h.made j r₂ part₂ y hr₂ hy₂).1
      omega
    · exact ⟨rfl, rfl⟩

theorem keep (hsupply : w.supply ≤ w'.supply)
    (hold : ∀ (i : Nat) r part x, w'.bank.registers[i]? = some r → r.signal? part = some x →
      ∃ r₀, w.bank.registers[i]? = some r₀ ∧ r₀.signal? part = some x) : w'.Separate :=
  h.extend 0 .storage hsupply fun i r part x hr hx => .inl (hold i r part x hr hx)

theorem granted {o : Operation} {a : Answer} (hg : Operation.Grants w o a w') : w'.Separate := by
  cases hg with
  | new name width =>
    refine h.extend w.bank.registers.length .storage (Nat.le_succ _) fun i r part x hr hx => ?_
    obtain hr | ⟨rfl, rfl⟩ := getElem?_concat_iff.mp hr
    · exact .inl ⟨r, hr, hx⟩
    · cases part with
      | storage =>
        cases hx
        exact .inr ⟨rfl, rfl, rfl, rfl, Nat.lt_succ_self _⟩
      | selector => cases hx
  | load hr hopen v =>
    refine h.keep (Nat.le_refl _) fun i x part y hx hy => ?_
    obtain ⟨rfl, rfl⟩ | ⟨-, hx⟩ := (getElem?_set_iff hr).mp hx
    · refine ⟨_, hr, ?_⟩
      cases part <;> simpa [Register.signal?] using hy
    · exact ⟨x, hx, hy⟩
  | @finalize id r hr hopen =>
    refine h.extend id .selector (Nat.le_succ _) fun i x part y hx hy => ?_
    obtain ⟨rfl, rfl⟩ | ⟨-, hx⟩ := (getElem?_set_iff hr).mp hx
    · cases part with
      | storage => exact .inl ⟨_, hr, hy⟩
      | selector =>
        cases hy
        exact .inr ⟨rfl, rfl, rfl, rfl, Nat.lt_succ_self _⟩
    · exact .inl ⟨x, hx, hy⟩
  | resolve _ _ _ | lookup _ => exact h
  | intern v => exact h.keep (Nat.le_refl _) fun i r part x hr hx => ⟨r, hr, hx⟩

/-- **One request keeps the registers separate**, granted or refused. -/
theorem step {past : History} (he : Encoded past w) (o : Operation) : (o.outcome w).2.Separate := by
  obtain ⟨f, hf⟩ | ⟨a, w', ha, hg⟩ := Operation.outcome_cases he.shared o
  · rw [hf]
    exact h
  · rw [ha]
    exact h.granted hg

theorem play {past : History} (he : Encoded past w) (os : List Operation) :
    (Operation.play w os).2.Separate := by
  induction os generalizing past w with
  | nil => exact h
  | cons o os ih => exact ih (h.step he o) (he.step o)

theorem storage_inj {i j : Nat} {r r' : Register} (hr : w.bank.registers[i]? = some r)
    (hr' : w.bank.registers[j]? = some r') (heq : r.storage = r'.storage) : i = j :=
  (h.apart i j r r' .storage .storage _ _ hr hr' rfl rfl (by rw [heq])).1

end Lowering.Workshop.Separate

/-! ### Loads that were handed out -/

/-- Every load that was handed out stands for the value it was asked for. -/
def History.Honoured (h : History) (w : Workshop) : Prop :=
  ∀ id v a, (.load id v, .ok a) ∈ h →
    ∃ source, a = .load (.marker (.load id source)) ∧ w.Recorded id source v

namespace History.Honoured

variable {h : History} {w : Workshop}

theorem step (hh : h.Honoured w) (he : Encoded h w) (o : Operation) :
    Honoured (h ++ [(o, (o.outcome w).1)]) (o.outcome w).2 := by
  intro id v a hmem
  obtain hmem | hmem := mem_append.mp hmem
  · obtain ⟨source, rfl, hrecorded⟩ := hh id v a hmem
    exact ⟨source, rfl, hrecorded.mono (Workshop.Lasts.step he o).grows⟩
  · obtain ⟨rfl, ha⟩ : .load id v = o ∧ .ok a = (o.outcome w).1 := by simpa using hmem
    obtain ⟨f, hf⟩ | ⟨a', w', ha', hg⟩ := Operation.outcome_cases he.shared (.load id v)
    · simp [hf] at ha
    · rw [ha'] at ha ⊢
      cases ha
      cases hg with
      | @load _ r hr hopen _ =>
        exact ⟨_, rfl, _, (getElem?_set_iff hr).mpr (.inl ⟨rfl, rfl⟩),
          (r.sources_addSource _).1, (w.bank.pool.intern_spec v).1⟩

theorem play (hh : h.Honoured w) (he : Encoded h w) (os : List Operation) :
    Honoured (h ++ (Operation.play w os).1) (Operation.play w os).2 := by
  induction os generalizing h w with
  | nil => simpa [Operation.play] using hh
  | cons o os ih => simpa [Operation.play] using ih (hh.step he o) (he.step o)

end History.Honoured

/-! ### Encoding -/

def Circuit.Stmt.loadOf? (id : RegisterId) : Stmt → Option SourceId
  | .marker (.load i source) => if i = id then some source else none
  | _ => none

/-- The source of the last load of a register among some statements. -/
def lastLoad? (id : RegisterId) (ss : List Stmt) : Option SourceId :=
  (ss.filterMap (Stmt.loadOf? id)).getLast?

theorem lastLoad?_cons (id : RegisterId) (s : Stmt) (ss : List Stmt) :
    lastLoad? id (s :: ss) = (lastLoad? id ss).or (s.loadOf? id) := by
  unfold lastLoad?
  cases hs : s.loadOf? id with
  | none => rw [filterMap_cons_none hs, or_none]
  | some source =>
    rw [filterMap_cons_some hs, getLast?_cons]
    cases (ss.filterMap (Stmt.loadOf? id)).getLast? <;> rfl

/-- A finalized register of a workshop and its selector. -/
structure Lowering.Workshop.Finalized (w : Workshop) (id : RegisterId) (r : Register)
    (sel : Signal) : Prop where
  register : w.bank.registers[id]? = some r
  selector : r.selector = some sel
  /-- The sources can be counted. -/
  countable : r.sources.length < 2 ^ 63

namespace Encoded

variable {h : History} {w : Workshop} {id : RegisterId} {r : Register} {sel : Signal}

variable {source : SourceId} {σ : Valuation}

section

variable (he : Encoded h w) (hr : w.Finalized id r sel)

include he hr

theorem selector_bits : bitsFor (Int64.ofNat r.sources.length) ≤ sel.bits := by
  rw [he.width r (mem_of_getElem? hr.register) sel hr.selector]
  exact Int.le_max_left _ _

variable (hsep : w.Separate)

include hsep

/-- One leaf sets the selector of a register to the code of what it loads, and no other leaf
changes the selector. -/
theorem get_selector_leaf {s s' : Stmt} (hleaf : s.isLeaf) (hassign : ∀ v, .assign sel v ≠ s)
    (hs : w.bank.resolveLoad s = .ok s') {us : List Write} (hus : execStmt σ s' = .ok us)
    (τ : Valuation) :
    (τ.override us).get sel =
      ((s.loadOf? id).map fun source => UInt64.ofNat (w.bank.code id source)).getD (τ.get sel) := by
  cases s with
  | branch _ _ _ | select _ _ _ => cases hleaf
  | hole =>
    cases hs
    cases hus
  | assign x v =>
    cases hs
    obtain ⟨u, -, hus⟩ := bind_eq_ok.mp hus
    cases hus
    refine get_override_of_notMem ?_
    simp only [mem_singleton, forall_eq]
    rintro rfl
    exact hassign v rfl
  | marker m =>
    cases m with
    | goto l =>
      cases hs
      cases hus
    | load i source =>
      obtain ⟨r', sel', code, hr', hsel', hcode, rfl⟩ := resolveLoad_eq_ok hs
      obtain ⟨u, hu, hus⟩ := bind_eq_ok.mp hus
      obtain rfl : (Literal.sized (Int64.ofNat code) sel'.bits).word = u := ok.inj hu
      cases hus
      by_cases hi : i = id
      · subst hi
        obtain rfl := some.inj (hr.register.symm.trans hr')
        obtain rfl := some.inj (hr.selector.symm.trans hsel')
        obtain ⟨-, hget⟩ := (he.code?_eq_some_iff (mem_of_getElem? hr')).mp hcode
        have hle : code ≤ r.sources.length := by
          have := (List.getElem?_eq_some_iff.mp hget).1
          omega
        have hbits := he.selector_bits hr
        have hword := word_sized hle hr.countable hbits
        have hfit := truncate_ofNat hle hr.countable hbits
        simp [Stmt.loadOf?, Bank.code, hr', hcode, hword, hfit]
      · -- Another register has another selector.
        rw [get_override_of_notMem]
        · simp [Stmt.loadOf?, hi]
        · simp only [mem_singleton, forall_eq]
          rintro rfl
          exact hi (hsep.apart _ _ _ _ .selector .selector _ _ hr' hr.register hsel' hr.selector
            rfl).1

variable {ws : List Write}

/-- **The selector of a register holds the code of the last load**, or what it was before if there
was none. -/
theorem get_selector {ls : List Stmt} (hws : WritesAs w.bank.resolveLoad σ ls ws)
    (hassign : ∀ v, .assign sel v ∉ ls)
    (τ : Valuation) :
    (τ.override ws).get sel = ((lastLoad? id ls).map fun source =>
      UInt64.ofNat (w.bank.code id source)).getD (τ.get sel) := by
  obtain ⟨ms, hms, hexec⟩ := hws
  induction hms generalizing ws τ with
  | nil =>
    cases hexec
    rfl
  | @cons s s' ls ms hs hms ih =>
    obtain ⟨us, vs, hus, hvs, rfl⟩ := bind₂_eq_ok.mp hexec
    have hfirst := he.get_selector_leaf hr hsep hs.1
      (fun v heq => hassign v (heq ▸ mem_cons_self)) hs.2 hus τ
    have hrest := ih (fun v hv => hassign v (mem_cons_of_mem _ hv)) (τ.override us) hvs
    rw [override_append, hrest, hfirst, lastLoad?_cons]
    cases lastLoad? id ls <;> rfl

end

theorem mem_sources_of_lastLoad? (hr : w.Finalized id r sel) {ls : List Stmt}
    (hws : WritesAs w.bank.resolveLoad σ ls ws) (hlast : lastLoad? id ls = some source) :
    source ∈ r.sources := by
  obtain ⟨ms, hms, -⟩ := hws
  induction hms with
  | nil => cases hlast
  | @cons s s' ls ms hs hms ih =>
    rw [lastLoad?_cons, or_eq_some_iff] at hlast
    obtain hlast | ⟨-, hload⟩ := hlast
    · exact ih hlast
    · unfold Stmt.loadOf? at hload
      split at hload
      · obtain ⟨rfl, rfl⟩ : _ = id ∧ _ = source := by simpa using hload
        obtain ⟨r', -, code, hr', -, hcode, -⟩ := resolveLoad_eq_ok hs.2
        obtain rfl := some.inj (hr.register.symm.trans hr')
        refine isSome_idxOf?.mp ?_
        rw [code?, map_eq_some_iff] at hcode
        obtain ⟨k, hk, -⟩ := hcode
        rw [hk]
        rfl
      · cases hload

/-! ### Decoding -/

theorem sync_lower (hr : w.Finalized id r sel) : (w.bank.lower r).sync =
    [.select (.signal sel) (sourceArms r.storage sel.bits 0 (w.bank.sourceValues r)) none] := by
  simp [lower, hr.selector, sourceArms]

theorem exec_lower_store (he : Encoded h w) (hr : w.Finalized id r sel) {v : Value}
    (hs : source ∈ r.sources) (hv : w.bank.pool.value? source = some v) {τ : Valuation}
    (hsel : τ.get sel = UInt64.ofNat (w.bank.code id source)) :
    exec τ (w.bank.lower r).sync =
      (eval τ v).map fun u => [(r.storage, truncate u r.storage.bits)] := by
  have hmem := mem_of_getElem? hr.register
  obtain ⟨k, hk⟩ := getElem?_of_mem hs
  have hcode : r.code? source = some (k + 1) :=
    (he.code?_eq_some_iff hmem).mpr ⟨Nat.le_add_left 1 k, hk⟩
  have hget : (w.bank.sourceValues r)[k]? = some v := by
    rw [sourceValues, he.poolOf_eq hmem,
      Design.Realizes.getElem?_filterMap (fun s hs => he.exists_value hr.register hs), hk]
    exact hv
  rw [sync_lower hr]
  refine exec_select_source (length_filterMap_le _ _) hr.countable (he.selector_bits hr) hget ?_
  rw [hsel]
  simp [code, hr.register, hcode]

end Encoded

/-! ### Selecting -/

/-- What the load logic of a register does with the values `τ`, given the source of its last load:
without a load the register holds its value, and otherwise it stores what the source comes to. The
other registers are left alone. -/
structure Lowering.Workshop.Obeys (w : Workshop) (τ : Valuation) (id : RegisterId) (r : Register)
    (last : Option SourceId) : Prop where
  hold : last = none → exec τ (w.bank.lower r).sync = .ok []
  store : ∀ source, last = some source → ∃ v, w.bank.pool.value? source = some v ∧
    exec τ (w.bank.lower r).sync =
      (eval τ v).map fun u => [(r.storage, truncate u r.storage.bits)]
  others : ∀ ws, exec τ (w.bank.lower r).sync = .ok ws →
    ∀ (j : Nat) r', w.bank.registers[j]? = some r' → j ≠ id →
      (τ.override ws).get r'.storage = τ.get r'.storage

/-- What a clock edge does to the storage of a register, given the source of its last load. -/
structure Lowering.Workshop.Takes (w : Workshop) (s s' : Simulator) (r : Register)
    (last : Option SourceId) : Prop where
  hold : last = none → s'.get r.storage = s.get r.storage
  store : ∀ source, last = some source → ∃ v u, w.bank.pool.value? source = some v ∧
    eval s.values v = .ok u ∧ s'.get r.storage = truncate u r.storage.bits

theorem Simulation.get_override_of_exec {σ τ : Valuation} {ss : List Stmt} (h : exec σ ss = .ok ws)
    {x : Signal} (hx : x ∉ targets ss) : (τ.override ws).get x = τ.get x :=
  get_override_of_notMem fun o ho heq =>
    hx (heq ▸ mem_targets.mpr (exec_caused ss h o ho).1)

theorem Bank.mem_targets_lower {b : Bank} {rs : List Register} {x : Signal}
    (h : x ∈ targets (rs.flatMap fun r => (b.lower r).sync)) : ∃ r ∈ rs, x = r.storage := by
  induction rs with
  | nil => simp at h
  | cons r rs ih =>
    rw [flatMap_cons, mem_targets_append] at h
    obtain h | h := h
    · refine ⟨r, mem_cons_self, ?_⟩
      cases hsel : r.selector with
      | none => simp [lower, hsel, Fragment.empty] at h
      | some sel =>
        rw [lower_of_isSome (by simp [hsel])] at h
        exact (Design.Realizes.mem_targets_loadLogic.mp h).2
    · obtain ⟨r', hr', hx⟩ := ih h
      exact ⟨r', mem_cons_of_mem _ hr', hx⟩

namespace Lowering.Workshop.Separate

variable {w : Workshop} {id : RegisterId} {r : Register} {sel : Signal}

theorem nodup_storages (h : w.Separate) : (w.bank.registers.map storage).Nodup := by
  rw [nodup_iff_getElem?_ne_getElem?]
  intro i j hij hj heq
  rw [length_map] at hj
  rw [getElem?_map, getElem?_map, getElem?_eq_getElem hj,
    getElem?_eq_getElem (Nat.lt_trans hij hj), map_some, map_some] at heq
  have := h.storage_inj (getElem?_eq_getElem _) (getElem?_eq_getElem _)
    (some.inj heq)
  omega

theorem get_storage (h : w.Separate) (hr : r ∈ w.bank.registers) {others : List Stmt}
    (hothers : r.storage ∉ targets others) {σ : Valuation}
    (hws : exec σ (w.bank.registers.flatMap (fun r => (w.bank.lower r).sync) ++ others) = .ok ws) :
    ∃ us, exec σ (w.bank.lower r).sync = .ok us ∧
      (σ.override ws).get r.storage = (σ.override us).get r.storage := by
  obtain ⟨front, back, hsplit⟩ := append_of_mem hr
  have hnodup := h.nodup_storages
  rw [hsplit, map_append, map_cons, nodup_append'] at hnodup
  obtain ⟨-, hback, hfront⟩ := hnodup
  rw [hsplit, flatMap_append, flatMap_cons, append_assoc, append_assoc, exec_append] at hws
  obtain ⟨us₁, us₂, hus₁, hus₂, rfl⟩ := bind₂_eq_ok.mp hws
  rw [exec_append] at hus₂
  obtain ⟨us, us₃, hus, hus₃, rfl⟩ := bind₂_eq_ok.mp hus₂
  have hbefore : r.storage ∉ targets (front.flatMap fun r => (w.bank.lower r).sync) := by
    intro hx
    obtain ⟨r', hr', heq⟩ := mem_targets_lower hx
    exact hfront (mem_map_of_mem hr') (heq ▸ mem_cons_self)
  have hafter : r.storage ∉ targets (back.flatMap (fun r => (w.bank.lower r).sync) ++ others) := by
    intro hx
    obtain hx | hx := mem_targets_append.mp hx
    · obtain ⟨r', hr', heq⟩ := mem_targets_lower hx
      exact (nodup_cons.mp hback).1 (heq ▸ mem_map_of_mem hr')
    · exact hothers hx
  refine ⟨us, hus, ?_⟩
  rw [override_append, override_append, get_override_of_exec hus₃ hafter]
  -- The writes before those of the register do not reach its storage.
  rw [get_override (σ.override us₁), get_override_of_exec hus₁ hbefore, ← get_override]

end Lowering.Workshop.Separate

namespace Encoded

variable {h : History} {w : Workshop} {id : RegisterId} {r : Register} {last : Option SourceId}

section

variable {sel : Signal} (he : Encoded h w) (hsep : w.Separate) (hr : w.Finalized id r sel)

include he hsep hr

theorem obeys (hlast : ∀ source, last = some source → source ∈ r.sources) {τ : Valuation}
    (hsel : τ.get sel = (last.map fun source => UInt64.ofNat (w.bank.code id source)).getD 0) :
    w.Obeys τ id r last := by
  constructor
  · rintro rfl
    rw [sync_lower hr]
    exact exec_select_zero (length_filterMap_le _ _) hr.countable (he.selector_bits hr) hsel
  · rintro source rfl
    have hs := hlast source rfl
    obtain ⟨v, hv⟩ := he.exists_value hr.register hs
    exact ⟨v, hv, he.exec_lower_store hr hs hv hsel⟩
  · intro ws hws j r' hr' hne
    refine get_override_of_exec hws fun hx => ?_
    have hx : r'.storage ∈ targets ([r].flatMap fun r => (w.bank.lower r).sync) := by simpa using hx
    obtain ⟨r'', hr'', heq⟩ := mem_targets_lower hx
    obtain rfl := mem_singleton.mp hr''
    exact hne (hsep.storage_inj hr' hr.register heq)

/-- **After a pass over the resolved loads every register obeys the last one**, provided that its
selector was reset for the pass or was zero already. -/
theorem decodes {σ : Valuation} {done : List Stmt} {xs : List Signal}
    (hwrites : WritesAs w.bank.resolveLoad σ done ws) (hassign : ∀ v, .assign sel v ∉ done)
    (hdefault : sel ∈ xs ∨ σ.get sel = 0) :
    w.Obeys (σ.override (resets xs ++ ws)) id r (lastLoad? id done) := by
  refine he.obeys hsep hr (fun source => mem_sources_of_lastLoad? hr hwrites) ?_
  have hzero : (σ.override (resets xs)).get sel = 0 := by
    have hreset := (hsep.made id r .selector sel hr.register hr.selector).2
    rw [get_resets, Signal.resetWord, hreset]
    split
    · exact truncate_zero _
    · exact hdefault.resolve_left ‹_›
  rw [override_append, he.get_selector hr hsep hwrites hassign, hzero]

end

/-- **At a clock edge a register takes the load that it obeys.** -/
theorem takes (hsep : w.Separate) (hr : r ∈ w.bank.registers) {τ : Valuation}
    (hobey : w.Obeys τ id r last) {block others : List Stmt} {s s' : Simulator} {changed : Bool}
    (hs : s.Shows ⟨block,
      w.bank.registers.flatMap (fun r => (w.bank.lower r).sync) ++ others⟩ s.values)
    (hsame : τ.Same s.values) (hstep : Simulator.step s = (.ok changed, s'))
    (hfree : r.storage ∉ targets (block ++ others)) : w.Takes s s' r last := by
  rw [mem_targets_append, not_or] at hfree
  obtain ⟨vs, hvs, -, -, hlater⟩ := step_eq_ok hs hstep
  obtain ⟨ls, hls, hget⟩ := hsep.get_storage hr hfree.2 hvs
  have hafter : s'.get r.storage = (s.values.override ls).get r.storage :=
    (hlater.values r.storage hfree.1).trans hget
  constructor
  · intro hnone
    have hhold := hobey.hold hnone
    rw [hsame.exec_eq, hls] at hhold
    obtain rfl : ls = [] := ok.inj hhold
    exact hafter
  · intro source hsome
    obtain ⟨v, hv, hstore⟩ := hobey.store source hsome
    rw [hsame.exec_eq, hls, Value.eval_congr fun x _ => hsame x] at hstore
    cases heval : eval s.values v with
    | error e =>
      rw [heval] at hstore
      cases hstore
    | ok u =>
      rw [heval] at hstore
      obtain rfl : ls = [(r.storage, truncate u r.storage.bits)] := ok.inj hstore
      refine ⟨v, u, hv, heval, hafter.trans ?_⟩
      simp

theorem exists_resolved {block : List Stmt} (hh : h.Honoured w)
    (hloads : ∀ id source, .marker (.load id source) ∈ walk block → ∃ v r,
      (.load id v, .ok (.load (.marker (.load id source)))) ∈ h ∧
        w.bank.registers[id]? = some r ∧ r.selector.isSome) :
    ∃ resolved, mapLeaves w.bank.resolveLoad block = .ok resolved := by
  refine (exists_mapLeaves_iff block).mpr fun t ht => ?_
  obtain ⟨ht, hleaf⟩ := mem_filter.mp ht
  cases t with
  | branch _ _ _ | select _ _ _ => cases hleaf
  | hole | assign _ _ => exact ⟨_, rfl⟩
  | marker m =>
    cases m with
    | goto l => exact ⟨_, rfl⟩
    | load id source =>
      obtain ⟨v, r, hmem, hr, hsel⟩ := hloads id source ht
      obtain ⟨source', heq, r', hr', hs, -⟩ := hh id v _ hmem
      obtain rfl : source = source' := by simpa using heq
      obtain rfl := some.inj (hr.symm.trans hr')
      exact ⟨_, resolveLoad_eq hr hsel hs⟩

end Encoded

/-- **The load logic decodes what the loads encode.** After any requests, each load that was handed
out stands for the value it was asked for, and the loads of finalized registers can be resolved.
Once a pass over the resolved block has been made, with any values of the signals, the load logic
of a register stores what its last load stands for, holds its value if there was no load, and
leaves all other registers alone; a simulator of the block does so at every clock edge. -/
theorem selection_faithful (supply : Nat) (past : List Operation) :
    let h := (Operation.play (.new supply) past).1
    let w := (Operation.play (.new supply) past).2
    History.Honoured h w ∧ ∀ block,
      ((∀ id source, .marker (.load id source) ∈ walk block → ∃ v r,
        (.load id v, .ok (.load (.marker (.load id source)))) ∈ h ∧
          w.bank.registers[id]? = some r ∧ r.selector.isSome) →
        ∃ resolved, mapLeaves w.bank.resolveLoad block = .ok resolved) ∧
      ∀ resolved, mapLeaves w.bank.resolveLoad block = .ok resolved →
        (∀ σ ws, exec σ resolved = .ok ws → ∃ done, executed σ block = .ok done ∧
          ∀ id r sel, w.Finalized id r sel → (∀ v, .assign sel v ∉ done) →
            (sel ∈ targets resolved ∨ σ.get sel = 0) →
              w.Obeys (σ.override (resets (targets resolved) ++ ws)) id r (lastLoad? id done)) ∧
        (∀ others s s' changed, Used ⟨resolved,
            w.bank.registers.flatMap (fun r => (w.bank.lower r).sync) ++ others⟩ s →
          s.AtRest → step s = (.ok changed, s') →
            ∃ done, executed s.values block = .ok done ∧ ∀ id r sel, w.Finalized id r sel →
              (∀ v, .assign sel v ∉ done) → (sel ∈ targets resolved ∨ s.get sel = 0) →
              r.storage ∉ targets (resolved ++ others) → w.Takes s s' r (lastLoad? id done)) := by
  intro h w
  have he : Encoded h w := (Encoded.new supply).play past
  have hsep : w.Separate := (Workshop.Separate.new supply).play (.new supply) past
  have hh : History.Honoured h w :=
    History.Honoured.play (h := []) (fun _ _ _ hmem => nomatch hmem) (.new supply) past
  refine ⟨hh, fun block => ⟨Encoded.exists_resolved hh, fun resolved hresolved => ⟨?_, ?_⟩⟩⟩
  · intro σ ws hws
    obtain ⟨done, hdone, hwrites⟩ := exec_of_mapLeaves block hresolved hws
    exact ⟨done, hdone, fun id r sel hr => he.decodes hsep hr hwrites⟩
  · rintro others s s' changed hs ⟨ws, hws, hstill⟩ hstep
    obtain ⟨us, hus, rfl⟩ := combWrites_eq_ok hs.shows hws
    obtain ⟨done, hdone, hwrites⟩ := exec_of_mapLeaves block hresolved hus
    refine ⟨done, hdone, fun id r sel hr hassign hdefault hfree => ?_⟩
    have hobey := he.decodes hsep hr hwrites hassign hdefault
    exact Encoded.takes hsep (mem_of_getElem? hr.register) hobey hs.shows
      (changes_eq_false_iff.mp hstill) hstep hfree

/-- Two registers with a source in common, each of them finalized. -/
def sharing : List Operation :=
  [.new "a" 8, .new "b" 4, .load 0 (.ofLiteral (.fit 300)), .load 0 (.ofLiteral (.fit 21)),
    .load 1 (.ofLiteral (.fit 21)), .finalize 0, .finalize 1]

def sharingFirst : Register :=
  ⟨"a", ⟨1, "a", 8, 0⟩, none, [0, 1], some ⟨3, "regsel_a", 2, 0⟩⟩

def sharingSecond : Register :=
  ⟨"b", ⟨2, "b", 4, 0⟩, none, [1], some ⟨4, "regsel_b", 1, 0⟩⟩

/-- Both registers are loaded, and the first one a second time unless the second one is zero. -/
def sharingBlock : List Stmt :=
  [.marker (.load 0 0), .branch (.signal sharingSecond.storage) [.marker (.load 0 1)] none,
    .marker (.load 1 1)]

def sharingResolved : List Stmt :=
  [.assign ⟨3, "regsel_a", 2, 0⟩ (.ofLiteral (.sized 1 2)),
    .branch (.signal sharingSecond.storage)
      [.assign ⟨3, "regsel_a", 2, 0⟩ (.ofLiteral (.sized 2 2))] none,
    .assign ⟨4, "regsel_b", 1, 0⟩ (.ofLiteral (.sized 1 1))]

/-- From reset on, the first register takes its own source and the second one the shared source;
with the second register set the shared source goes to both. -/
theorem sharing_selects :
    let w := (Operation.play (.new 1) sharing).2
    mapLeaves w.bank.resolveLoad sharingBlock = .ok sharingResolved ∧
      (∃ s s', Used ⟨sharingResolved,
          w.bank.registers.flatMap (fun r => (w.bank.lower r).sync) ++ []⟩ s ∧ s.AtRest ∧
        step s = (.ok true, s') ∧ w.Takes s s' sharingFirst (some 0) ∧
          w.Takes s s' sharingSecond (some 1)) ∧
      ∃ τ, w.Obeys τ 0 sharingFirst (some 1) ∧ w.Obeys τ 1 sharingSecond (some 1) := by
  intro w
  obtain ⟨-, hblock⟩ := selection_faithful 1 sharing
  obtain ⟨hpass, hedge⟩ := (hblock sharingBlock).2 sharingResolved rfl
  have hfirst : w.Finalized 0 sharingFirst ⟨3, "regsel_a", 2, 0⟩ := ⟨rfl, rfl, by decide⟩
  have hsecond : w.Finalized 1 sharingSecond ⟨4, "regsel_b", 1, 0⟩ := ⟨rfl, rfl, by decide⟩
  refine ⟨rfl, ?_, ?_⟩
  · obtain ⟨s, hs, hzero, b, hb, rfl⟩ : ∃ s, new ⟨sharingResolved,
        w.bank.registers.flatMap (fun r => (w.bank.lower r).sync) ++ []⟩ = .ok s ∧
          s.get sharingSecond.storage = 0 ∧ ∃ b, (step s).1 = .ok b ∧ b = true := by
      decide +kernel
    obtain ⟨hused, hrest⟩ := play_spec (show play _ [] = .ok s from hs)
    have hstep : step s = (.ok true, (step s).2) := Prod.ext hb rfl
    have hdone : executed s.values sharingBlock =
        .ok [.marker (.load 0 0), .marker (.load 1 1)] := by
      have heval : eval s.values (.signal sharingSecond.storage) = .ok 0 := by
        rw [← hzero]
        rfl
      simp [sharingBlock, executed, visit, visitStmt, visitOption, heval, bind, Except.bind, pure,
        Except.pure]
    obtain ⟨done, hdone', htakes⟩ := hedge [] s _ true hused hrest hstep
    obtain rfl := Except.ok.inj (hdone.symm.trans hdone')
    exact ⟨s, _, hused, hrest, hstep, htakes 0 _ _ hfirst (by simp) (.inl (by decide)) (by decide),
      htakes 1 _ _ hsecond (by simp) (.inl (by decide)) (by decide)⟩
  · obtain ⟨done, hdone, hobeys⟩ :=
      hpass (empty.set sharingSecond.storage 1) _ rfl
    obtain rfl : [.marker (.load 0 0), .marker (.load 0 1), .marker (.load 1 1)] = done :=
      Except.ok.inj hdone
    exact ⟨_, hobeys 0 _ _ hfirst (by simp) (.inl (by decide)),
      hobeys 1 _ _ hsecond (by simp) (.inl (by decide))⟩

end Sequencer
