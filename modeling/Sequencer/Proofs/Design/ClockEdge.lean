import Sequencer.Proofs.Design.Cycle

/-!
# A design at a clock edge

The machine goes to its next state, and each register looks at its selector: zero means that it
holds its value, and any other code that it takes the value of one of its sources.
-/

namespace Sequencer

open List
open Circuit Lowering Simulation Valuation Int64 UInt64 Except Option

def Design.source (d : Design) (s : SourceId) : Value := (d.bank.pool.value? s).getD .hole

namespace Simulation

section Sources

variable {τ : Valuation} {x : Signal} {width : Int} {vs : List Value}

/-- The arms of the load logic, with codes from `k + 1` on. -/
def sourceArms (x : Signal) (width : Int) (k : Nat) (vs : List Value) :
    List (Literal × List Stmt) :=
  vs.mapIdx fun i v => (Literal.sized (ofNat (k + i + 1)) width, [Stmt.assign x v])

variable {sel : Signal} {m : Nat} (hm : vs.length ≤ m) (hlt : m < 2 ^ 63)
  (hwidth : bitsFor (Int64.ofNat m) ≤ sel.bits)

include hm hlt hwidth

theorem exec_select_zero (hsel : τ.get sel = 0) :
    exec τ [.select (.signal sel) (sourceArms x sel.bits 0 vs) none] = .ok [] := by
  have hne : ∀ arm ∈ sourceArms x sel.bits 0 vs, 0 ≠ arm.1.word := by
    intro arm harm heq
    obtain ⟨j, hj, rfl⟩ := mem_mapIdx.mp harm
    rw [word_sized (by omega) hlt hwidth] at heq
    have := ofNat_inj (i := 0) (Nat.zero_le m) (by omega) hlt heq
    omega
  rw [exec_select, hsel, visitArms_unmatched hne]
  rfl

theorem exec_select_source {j : Nat} (hv : vs[j]? = some v)
    (hsel : τ.get sel = UInt64.ofNat (j + 1)) :
    exec τ [.select (.signal sel) (sourceArms x sel.bits 0 vs) none] =
      (eval τ v).map fun u => [(x, truncate u x.bits)] := by
  have harms : sourceArms x sel.bits 0 vs = (vs.map fun v => [Stmt.assign x v]).mapIdx
      fun i b => (Literal.sized (Int64.ofNat (1 + i)) sel.bits, b) := by
    refine ext_getElem? fun i => ?_
    simp [sourceArms, Nat.add_comm, Function.comp_def]
  have hrun := visitArms_numbered (σ := τ) (fun i => Literal.sized (Int64.ofNat i) sel.bits)
    (vs.map fun v => [Stmt.assign x v]) (k := 1)
    (fun i hi => word_sized (by rw [length_map] at hi; omega) hlt hwidth)
    (by rw [length_map]; omega) (by rw [getElem?_map, hv]; rfl)
  rw [exec_select, hsel, Nat.add_comm, harms, hrun, exec_assign]
  cases eval τ v <;> rfl

end Sources

end Simulation

namespace Design.Realizes

variable {d : Design} {rs : List Resource} {base : Nat} {p : Plan} {w : Workshop}
  (h : d.Realizes rs base p w)

include h

variable {s : SourceId}

theorem source_eq {id : RegisterId} (hv : w.Recorded id s v) : d.source s = v := by
  obtain ⟨r, -, -, hv⟩ := hv
  simp [Design.source, h.bank, hv]

variable {id : Nat} {r : Register}

theorem loadLogic_eq (hr : w.bank.registers[id]? = some r) :
    d.bank.loadLogic (r.withSelector (w.supply + id)) = .select (.signal (d.bank.selector id))
      (sourceArms r.storage (d.bank.selector id).bits 0
        (d.bank.sourceValues (r.withSelector (w.supply + id)))) none := by
  rw [Bank.loadLogic, h.selector_eq hr]
  simp only [sourceArms, Nat.zero_add]
  rfl

variable (hd : d.Indexable) (hr : w.bank.registers[id]? = some r)

include hd hr

theorem exec_loadLogic_hold {τ : Valuation} (hsel : τ.get (d.bank.selector id) = 0) :
    exec τ [d.bank.loadLogic (r.withSelector (w.supply + id))] = .ok [] := by
  rw [h.loadLogic_eq hr]
  exact exec_select_zero (m := r.sources.length) (length_filterMap_le _ _) (h.sources_lt hd hr)
    (h.selector_bits hr) hsel

theorem exec_loadLogic_load {τ : Valuation} (hv : w.Recorded id s v)
    (hsel : τ.get (d.bank.selector id) = UInt64.ofNat (d.bank.code id s)) :
    exec τ [d.bank.loadLogic (r.withSelector (w.supply + id))] =
      (eval τ v).map fun u => [(r.storage, truncate u r.storage.bits)] := by
  obtain ⟨r', hr', hs, hvalue⟩ := hv
  obtain rfl : r = r' := by simpa [hr] using hr'
  obtain ⟨k, hk, -, hcode⟩ := h.code_eq hr hs
  have hget : (d.bank.sourceValues (r.withSelector (w.supply + id)))[k]? = some v := by
    rw [h.getElem?_sourceValues hr, hk]
    exact hvalue
  rw [h.loadLogic_eq hr]
  exact exec_select_source (m := r.sources.length) (length_filterMap_le _ _) (h.sources_lt hd hr)
    (h.selector_bits hr) hget (by rw [hsel, hcode])

end Design.Realizes

namespace Simulation

variable {σ : Valuation} {α : Type} {f : α → Stmt} {l : List α}

theorem Valuation.get_override_unique {ws : List Write} {x : Signal} {v : UInt64}
    (hmem : (x, v) ∈ ws) (h : ∀ o ∈ ws, o.1 = x → o.2 = v) : (σ.override ws).get x = v := by
  rw [get_override]
  cases hl : ws.reverse.lookup x with
  | none =>
    rw [lookup_eq_none_iff] at hl
    simpa using hl (x, v) (mem_reverse.mpr hmem)
  | some u =>
    obtain ⟨front, back, heq, -⟩ := lookup_eq_some_iff.mp hl
    exact h (x, u) (mem_reverse.mp (by simp [heq])) rfl

theorem exec_map_index {g : Nat → List Write}
    (h : ∀ (i : Nat) a, l[i]? = some a → exec σ [f a] = .ok (g i)) :
    exec σ (l.map f) = .ok ((List.range l.length).flatMap g) := by
  induction l generalizing g with
  | nil => rfl
  | cons a l ih =>
    have htail := ih fun i b hb => h (i + 1) b (by simpa using hb)
    rw [map_cons, ← singleton_append, exec_append, h 0 a (by simp), htail,
      length_cons, range_succ_eq_map]
    simp [bind, Except.bind, pure, Except.pure, flatMap_map]

theorem exec_of_exec_map {ws : List Write} (h : exec σ (l.map f) = .ok ws) :
    ∀ a ∈ l, ∃ vs, exec σ [f a] = .ok vs := by
  induction l generalizing ws with
  | nil => simp
  | cons a l ih =>
    rw [map_cons, ← singleton_append, exec_append] at h
    obtain ⟨vs, us, hvs, hus, -⟩ := bind₂_eq_ok.mp h
    simp only [forall_mem_cons]
    exact ⟨⟨vs, hvs⟩, ih hus⟩

theorem exec_map_error {e : Simulation.Fault}
    (h : ∀ a ∈ l, (∃ ws, exec σ [f a] = .ok ws) ∨ exec σ [f a] = .error e)
    (hex : ∃ a ∈ l, exec σ [f a] = .error e) : exec σ (l.map f) = .error e := by
  induction l with
  | nil => simp at hex
  | cons a l ih =>
    rw [map_cons, ← singleton_append, exec_append]
    obtain ⟨ws, hws⟩ | herr := h a mem_cons_self
    · have htail : exec σ (l.map f) = .error e := by
        refine ih (fun b hb => h b (mem_cons_of_mem _ hb)) ?_
        obtain ⟨b, hb, hbe⟩ := hex
        obtain rfl | hb := mem_cons.mp hb
        · simp [hws] at hbe
        · exact ⟨b, hb, hbe⟩
      rw [hws, htail]
      rfl
    · rw [herr]
      rfl

end Simulation

def Design.storageWrite (d : Design) (e : Effect) (τ : Valuation) (id : Nat) : List Write :=
  match d.registers[id]?, e.loads.reverse.lookup id with
  | some r, some s => [(r.storage, truncate (denote τ (d.source s)) r.storage.bits)]
  | _, _ => []

def Design.storageWrites (d : Design) (e : Effect) (τ : Valuation) : List Write :=
  (range d.registers.length).flatMap (d.storageWrite e τ)

theorem Design.mem_storageWrites {d : Design} {e : Effect} {τ : Valuation} {o : Write} :
    o ∈ d.storageWrites e τ ↔ ∃ (id : Nat) (r : Register) (s : SourceId),
      d.registers[id]? = some r ∧ e.loads.reverse.lookup id = some s ∧
        o = (r.storage, truncate (denote τ (d.source s)) r.storage.bits) := by
  constructor
  · intro ho
    obtain ⟨id, -, ho⟩ := mem_flatMap.mp ho
    unfold storageWrite at ho
    split at ho
    · rename_i r s hr hs
      exact ⟨id, r, s, hr, hs, mem_singleton.mp ho⟩
    · simp at ho
  · rintro ⟨id, r, s, hr, hs, rfl⟩
    refine mem_flatMap.mpr ⟨id, ?_, ?_⟩
    · exact mem_range.mpr (List.getElem?_eq_some_iff.mp hr).1
    · simp [storageWrite, hr, hs]

/-- All that is loaded can be evaluated. -/
def Design.Faultless (d : Design) (e : Effect) : Prop :=
  ∀ (id : RegisterId) s, e.loads.reverse.lookup id = some s → fault? (d.source s) = none

/-- The values right after a clock edge at which a state had the effect `e`. -/
structure AfterEdge (d : Design) (i : Nat) (n : Node) (e : Effect) (τ υ : Valuation) : Prop where
  keeps : ∀ x, x ∉ targets d.fragment.sync → υ.get x = τ.get x
  state : υ.get d.machine.state = UInt64.ofNat (d.machine.follow i n.next e.jump)
  storage : ∀ (id : Nat) r, d.registers[id]? = some r → υ.get r.storage =
    ((e.loads.reverse.lookup id).map fun s =>
      truncate (denote τ (d.source s)) r.storage.bits).getD (τ.get r.storage)

namespace Design.Realizes

variable {d : Design} {rs : List Resource} {base : Nat} {p : Plan} {w : Workshop}

section Edge

variable {σ τ : Valuation} {i : Nat} {n : Node} {e : Effect}

variable {id : Nat} {r : Register} (h : d.Realizes rs base p w)

include h

theorem recorded_of_lookup (hn : (p.nodes none)[i]? = some n) (he : n.effect σ = .ok e)
    (hs : e.loads.reverse.lookup id = some s) :
    (id, s) ∈ e.loads ∧ w.Recorded id s (d.source s) := by
  obtain ⟨front, back, heq, -⟩ := lookup_eq_some_iff.mp hs
  have hmem : (id, s) ∈ e.loads := mem_reverse.mp (by simp [heq])
  obtain ⟨v, hv⟩ := h.recorded_of_effect hn he hmem
  rw [h.source_eq hv]
  exact ⟨hmem, hv⟩

/-- What one register does at a clock edge. -/
theorem exec_loadLogic (hd : d.Indexable) (hn : (p.nodes none)[i]? = some n)
    (he : n.effect σ = .ok e) (hrest : AtRest d σ i n e τ) (hr : w.bank.registers[id]? = some r) :
    exec τ [d.bank.loadLogic (r.withSelector (w.supply + id))] =
      match e.loads.reverse.lookup id with
      | none => .ok []
      | some s => (eval τ (d.source s)).map fun u => [(r.storage, truncate u r.storage.bits)] := by
  have hid : id < d.registers.length := by
    rw [h.length_registers]
    exact (List.getElem?_eq_some_iff.mp hr).1
  have hsel := hrest.selector id hid
  cases hl : e.loads.reverse.lookup id with
  | none =>
    rw [hl] at hsel
    exact h.exec_loadLogic_hold hd hr hsel
  | some s =>
    rw [hl] at hsel
    exact h.exec_loadLogic_load hd hr (h.recorded_of_lookup hn he hl).2 hsel

theorem getElem?_registers (id : Nat) :
    d.registers[id]? = (w.bank.registers[id]?).map fun r => r.withSelector (w.supply + id) := by
  rw [h.registers, getElem?_finalized]

theorem follow_lt (hn : (p.nodes none)[i]? = some n) (he : n.effect σ = .ok e) :
    d.machine.follow i n.next e.jump < d.machine.states.length := by
  unfold Machine.follow
  cases hl : (e.jump <|> n.next) with
  | none => exact h.number_lt hn
  | some l =>
    obtain ⟨k, m, hm, -, hk⟩ := h.exists_node (h.label_of_follow hn he hl)
    simpa [hk] using h.number_lt hm

theorem exec_machine_sync (hd : d.Indexable) (hn : (p.nodes none)[i]? = some n)
    (he : n.effect σ = .ok e) (hrest : AtRest d σ i n e τ) :
    exec τ (machineLogic d.machine d.bank (p.nodes none)).sync =
      .ok [(d.machine.state, UInt64.ofNat (d.machine.follow i n.next e.jump))] := by
  rw [machineLogic_eq (ne_nil_of_mem (mem_of_getElem? hn))]
  exact (h.sized hd).exec_sync (h.follow_lt hn he) hrest.next

theorem storages_getElem? (hr : d.registers[id]? = some r) : w.storages[id]? = some r.storage := by
  rw [h.getElem?_registers] at hr
  obtain ⟨r', hr', rfl⟩ := map_eq_some_iff.mp hr
  have hst := Workshop.storages_getElem? hr'
  exact hst

theorem source_mem_sourceValues (hr : d.registers[id]? = some r) (hv : w.Recorded id s v) :
    v ∈ d.bank.sourceValues r := by
  rw [h.getElem?_registers] at hr
  obtain ⟨r', hr', rfl⟩ := map_eq_some_iff.mp hr
  obtain ⟨r'', hr'', hs, hvalue⟩ := hv
  obtain rfl : r' = r'' := by simpa [hr'] using hr''
  obtain ⟨k, hk⟩ := mem_iff_getElem?.mp hs
  refine mem_iff_getElem?.mpr ⟨k, ?_⟩
  rw [h.getElem?_sourceValues hr', hk, bind_some, hvalue]

theorem exists_register {x : Signal} (hx : w.storages[id]? = some x) :
    ∃ r, d.registers[id]? = some r ∧ r.storage = x := by
  simp only [Workshop.storages, getElem?_map, map_eq_some_iff] at hx
  obtain ⟨r, hr, rfl⟩ := hx
  exact ⟨r.withSelector (w.supply + id), by rw [h.getElem?_registers, hr, map_some], rfl⟩

theorem storage_inj {id' : Nat} {r' : Register} (hr : d.registers[id]? = some r)
    (hr' : d.registers[id']? = some r') (heq : r.storage = r'.storage) : id = id' := by
  obtain ⟨hlt, hget⟩ := List.getElem?_eq_some_iff.mp (h.storages_getElem? hr)
  obtain ⟨hlt', hget'⟩ := List.getElem?_eq_some_iff.mp (h.storages_getElem? hr')
  exact (Nodup.of_map _ h.tidy.distinct).getElem_inj_iff.mp (by rw [hget, hget', heq])

theorem state_ne_storage (hr : d.registers[id]? = some r) : d.machine.state ≠ r.storage := by
  intro heq
  have htag := h.tidy.storage_tag (mem_of_getElem? (h.storages_getElem? hr))
  rw [← heq, h.state_tag] at htag
  omega

variable (hd : d.Indexable) (hn : (p.nodes none)[i]? = some n) (he : n.effect σ = .ok e)
  (hrest : AtRest d σ i n e τ)

include hd hn he hrest

/-- One pass over the sequential logic writes the registers that are loaded, and the state. -/
theorem exec_sync (hfault : d.Faultless e) :
    exec τ d.fragment.sync = .ok (d.storageWrites e τ ++
      [(d.machine.state, UInt64.ofNat (d.machine.follow i n.next e.jump))]) := by
  have hregs : exec τ (d.registers.map d.bank.loadLogic) = .ok (d.storageWrites e τ) := by
    refine exec_map_index fun id r' hr' => ?_
    have hr'' := hr'
    rw [h.getElem?_registers] at hr''
    obtain ⟨r, hr, rfl⟩ := map_eq_some_iff.mp hr''
    rw [h.exec_loadLogic hd hn he hrest hr]
    cases hl : e.loads.reverse.lookup id with
    | none => simp [storageWrite, hl]
    | some s =>
      simp only [storageWrite, hr', hl, eval, hfault id s hl, Except.map]
      rfl
  rw [h.sync_eq, exec_append, hregs, h.exec_machine_sync hd hn he hrest]
  rfl

/-- **At a clock edge** the machine goes where the effect says, and every register that is loaded
takes the value of its source. -/
theorem afterEdge (hfault : d.Faultless e) :
    ∃ υ, edge d.fragment τ = .ok υ ∧ AfterEdge d i n e τ υ := by
  have hexec := h.exec_sync hd hn he hrest hfault
  refine ⟨_, by rw [edge, hexec]; rfl, fun x hx => ?_, ?_, fun id r hr => ?_⟩
  · refine get_override_of_notMem fun o ho heq => hx (heq ▸ ?_)
    exact mem_targets.mpr (exec_caused _ hexec o ho).1
  · rw [override_append]
    simp
  · -- The registers are different signals, so the only write to this one is its own load.
    have hown : ∀ o ∈ d.storageWrites e τ ++
        [(d.machine.state, UInt64.ofNat (d.machine.follow i n.next e.jump))], o.1 = r.storage →
        ∃ s, e.loads.reverse.lookup id = some s ∧
          o.2 = truncate (denote τ (d.source s)) r.storage.bits := by
      intro o ho heq
      obtain ho | ho := mem_append.mp ho
      · obtain ⟨id', r', s, hr', hs, rfl⟩ := mem_storageWrites.mp ho
        obtain rfl := h.storage_inj hr' hr heq
        exact ⟨s, hs, by rw [← heq]⟩
      · obtain rfl := mem_singleton.mp ho
        exact absurd heq (h.state_ne_storage hr)
    cases hl : e.loads.reverse.lookup id with
    | none =>
      refine get_override_of_notMem fun o ho heq => ?_
      simpa [hl] using hown o ho heq
    | some s =>
      refine get_override_unique
        (mem_append_left _ (mem_storageWrites.mpr ⟨id, r, s, hr, hl, rfl⟩))
        fun o ho heq => ?_
      simpa [hl] using hown o ho heq

/-- If a clock edge succeeds, nothing that is loaded has a fault. -/
theorem faultless_of_edge {υ : Valuation} (hedge : edge d.fragment τ = .ok υ) : d.Faultless e := by
  intro id s hl
  obtain ⟨ws, hws, -⟩ := bind_eq_ok.mp hedge
  rw [h.sync_eq, exec_append] at hws
  obtain ⟨vs, hvs, -⟩ := bind_eq_ok.mp hws
  obtain ⟨r, hr, -⟩ := (h.recorded_of_lookup hn he hl).2
  have hmem : r.withSelector (w.supply + id) ∈ d.registers := h.mem_registers.mpr ⟨id, r, hr, rfl⟩
  obtain ⟨us, hus⟩ := exec_of_exec_map hvs _ hmem
  rw [h.exec_loadLogic hd hn he hrest hr] at hus
  cases hf : fault? (d.source s) with
  | none => rfl
  | some f => simp [hl, eval, hf, Except.map] at hus

/-- A clock edge fails with the fault of what is loaded. -/
theorem edge_error {f : Simulation.Fault} (hne : e.loads ≠ [])
    (hfault : ∀ l ∈ e.loads, fault? (d.source l.2) = some f) : edge d.fragment τ = .error f := by
  have hregs : exec τ (d.registers.map d.bank.loadLogic) = .error f := by
    refine exec_map_error (fun r' hr' => ?_) ?_
    · obtain ⟨id, r, hr, rfl⟩ := h.mem_registers.mp hr'
      rw [h.exec_loadLogic hd hn he hrest hr]
      cases hl : e.loads.reverse.lookup id with
      | none => exact .inl ⟨[], rfl⟩
      | some s =>
        right
        simp [eval, hfault (id, s) (h.recorded_of_lookup hn he hl).1, Except.map]
    · obtain ⟨l, hl⟩ := exists_mem_of_ne_nil _ hne
      obtain ⟨v, r, hr, -⟩ := h.recorded_of_effect hn he hl
      obtain ⟨s, hs⟩ : ∃ s, e.loads.reverse.lookup l.1 = some s := by
        cases hs : e.loads.reverse.lookup l.1 with
        | some s => exact ⟨s, rfl⟩
        | none =>
          rw [lookup_eq_none_iff] at hs
          simpa using hs l (mem_reverse.mpr hl)
      refine ⟨r.withSelector (w.supply + l.1), h.mem_registers.mpr ⟨l.1, r, hr, rfl⟩, ?_⟩
      rw [h.exec_loadLogic hd hn he hrest hr, hs]
      simp [eval, hfault (l.1, s) (h.recorded_of_lookup hn he hs).1, Except.map]
  rw [edge, h.sync_eq, exec_append, hregs]
  rfl

end Edge

end Design.Realizes

/-- A design about to show the state with number `i`, which runs the node `n`. -/
structure Poised (d : Design) (p : Plan) (i : Nat) (n : Node) (σ : Valuation) : Prop where
  node : (p.nodes none)[i]? = some n
  state : σ.get d.machine.state = UInt64.ofNat i
  idle : d.Idle σ

/-- A design at rest in the state with number `i`, which runs the node `n` with the effect `e`. -/
structure Resting (d : Design) (p : Plan) (i : Nat) (n : Node) (e : Effect) (τ : Valuation) : Prop
    extends Poised d p i n τ where
  effect : n.effect τ = .ok e
  atRest : AtRest d τ i n e τ

/-- Two valuations that agree on everything that combinational logic does not drive. -/
def Design.Keeps (d : Design) (σ τ : Valuation) : Prop :=
  ∀ x, x ∉ targets d.fragment.comb → τ.get x = σ.get x

namespace Lowering.Node

variable {σ τ : Valuation} {n : Node}

/-- What a node does depends on the signals it reads only. -/
theorem effect_congr (h : ∀ x ∈ n.duty.reads, σ.get x = τ.get x) : n.effect σ = n.effect τ := by
  obtain ⟨label, next, duty⟩ := n
  cases duty with
  | store loads => rfl
  | send c data tag =>
    simp only [Duty.reads, mem_append, mem_singleton] at h
    simp only [effect, Act.effect, Value.eval_congr fun s hs => h s (.inl hs), h c.ack (.inr rfl)]
  | receive c id source =>
    simp only [Duty.reads, mem_singleton] at h
    simp only [effect, Act.effect, h c.stb rfl]
  | guard test yes no =>
    simp only [effect, Value.eval_congr h]

theorem exists_effect {e : Effect} (h : n.effect σ = .ok e) (τ : Valuation) :
    ∃ e', n.effect τ = .ok e' := by
  obtain ⟨label, next, duty⟩ := n
  cases duty with
  | store loads => exact ⟨_, rfl⟩
  | send c data tag =>
    simp only [effect, Act.effect, eval] at h ⊢
    cases hf : fault? data with
    | some f => simp [hf, bind, Except.bind] at h
    | none => exact ⟨_, rfl⟩
  | receive c id source => exact ⟨_, rfl⟩
  | guard test yes no =>
    simp only [effect, eval] at h ⊢
    cases hf : fault? test with
    | some f => simp [hf, bind, Except.bind] at h
    | none => exact ⟨_, rfl⟩

end Lowering.Node

namespace Design.Realizes

variable {d : Design} {rs : List Resource} {base : Nat} {p : Plan} {w : Workshop}
  {σ τ : Valuation} {i : Nat} {n : Node} {e : Effect}

section

variable (h : d.Realizes rs base p w)

include h

theorem effect_of_keeps (hw : Wired rs base) (hn : (p.nodes none)[i]? = some n) (hk : d.Keeps σ τ) :
    n.effect τ = n.effect σ := by
  have hmem := mem_of_getElem? hn
  refine Node.effect_congr fun x hx => hk x (h.feedForward hw x ?_)
  exact h.mem_reads_comb.mpr ⟨ne_nil_of_mem hmem, .inr ⟨n, hmem, hx⟩⟩

theorem get_reset (x : Signal) :
    (empty.override (Simulator.resets (targets d.fragment.sync))).get x = 0 := by
  rw [get_resets]
  split
  · rename_i hx
    have hreset : x.reset = 0 := by
      obtain rfl | hst := h.sync_targets hx
      · rw [h.machine]
        rfl
      · obtain ⟨r, hr, rfl⟩ := mem_map.mp hst
        exact (h.tidy.plain r hr).2
    rw [Signal.resetWord, hreset]
    exact truncate_zero _
  · rfl

/-- **A state settles** unless its node fails. -/
theorem settles (hw : Wired rs base) (hd : d.Indexable) (hp : Poised d p i n σ)
    (he : n.effect σ = .ok e) :
    ∃ τ, settled d.fragment σ = .ok τ ∧ Resting d p i n e τ ∧ d.Keeps σ τ := by
  obtain ⟨τ, hτ, hrest⟩ := h.atRest hw hd hp.state hp.node hp.idle he
  have hk : d.Keeps σ τ := hrest.keeps
  refine ⟨τ, hτ, ⟨⟨hp.node, ?_, ?_⟩, ?_, ?_⟩, hk⟩
  · rw [hk _ (h.state_not_comb hw), hp.state]
  · intro x hc hs hi
    rw [hk x hc, hp.idle x hc hs hi]
  · rw [h.effect_of_keeps hw hp.node hk, he]
  · exact ⟨fun _ _ => rfl, hrest.next, hrest.selector, hrest.output⟩

theorem settles_set (hw : Wired rs base) (hd : d.Indexable) (hr : Resting d p i n e τ) {x : Signal}
    (hx : x ∈ portSignals rs .input) (v : UInt64) :
    ∃ e' τ', n.effect (τ.set x v) = .ok e' ∧ settled d.fragment (τ.set x v) = .ok τ' ∧
      Resting d p i n e' τ' ∧ d.Keeps (τ.set x v) τ' := by
  obtain ⟨e', he'⟩ := Node.exists_effect hr.effect (τ.set x v)
  obtain ⟨hcomb, hsync⟩ := h.input_undriven hw hx
  have hne : d.machine.state ≠ x := by
    rintro rfl
    refine hsync (h.mem_targets_sync.mpr (.inr ⟨?_, rfl⟩))
    exact ne_nil_of_mem (mem_of_getElem? hr.node)
  have hp : Poised d p i n (τ.set x v) := by
    refine ⟨hr.node, ?_, fun y hc hs hi => ?_⟩
    · rw [get_set, if_neg hne, hr.state]
    · have hyx : y ≠ x := by
        rintro rfl
        exact hi (h.resources ▸ hx)
      rw [get_set, if_neg hyx, hr.idle y hc hs hi]
  obtain ⟨τ', hτ', hr', hk⟩ := h.settles hw hd hp he'
  exact ⟨e', τ', he', hτ', hr', hk⟩

/-- **A clock edge leads to the state that the effect says**, unless a load fails. -/
theorem poised_of_edge (hd : d.Indexable) (hr : Resting d p i n e τ) (hfault : d.Faultless e) :
    ∃ υ n', edge d.fragment τ = .ok υ ∧
      Poised d p (d.machine.follow i n.next e.jump) n' υ ∧ AfterEdge d i n e τ υ := by
  obtain ⟨υ, hυ, hafter⟩ := h.afterEdge hd hr.node hr.effect hr.atRest hfault
  have hlt := h.length_states ▸ h.follow_lt hr.node hr.effect
  refine ⟨υ, _, hυ, ⟨getElem?_eq_getElem hlt, hafter.state, fun x hc hs hi => ?_⟩, hafter⟩
  rw [hafter.keeps x hs, hr.idle x hc hs hi]

end

/-! ### A design without states -/

variable (h : d.Realizes rs base .finish w)

include h

theorem settled_finish (σ : Valuation) : settled d.fragment σ = .ok σ := by
  rw [settled, h.comb_eq]
  rfl

theorem undriven_finish (x : Signal) :
    x ∉ targets d.fragment.comb := fun hx => (h.mem_targets_comb.mp hx).1 rfl

theorem edge_finish (hw : Wired rs base) (hd : d.Indexable) (hidle : d.Idle σ) :
    edge d.fragment σ = .ok σ := by
  have hbase := h.tidy.base_le
  have hhold : ∀ (id : Nat) r', d.registers[id]? = some r' →
      exec σ [d.bank.loadLogic r'] = .ok [] := by
    intro id r' hr'
    rw [h.getElem?_registers] at hr'
    obtain ⟨r, hr, rfl⟩ := Option.map_eq_some_iff.mp hr'
    refine h.exec_loadLogic_hold hd hr (hidle _ (h.undriven_finish _) (h.selector_not_sync hr)
      fun hin => ?_)
    have htag := h.selector_tag hr
    have hlt := hw.tag_lt (h.resources ▸ hin)
    omega
  have hregs : exec σ (d.registers.map d.bank.loadLogic) = .ok [] := by
    rw [exec_map_index hhold, flatMap_eq_nil_iff.mpr fun _ _ => rfl]
  rw [edge, h.sync_eq, exec_append, hregs]
  rfl

theorem output_finish (hw : Wired rs base) (hidle : d.Idle σ) {x : Signal}
    (hx : x ∈ portSignals rs .output) : σ.get x = 0 := by
  refine hidle x (h.undriven_finish _) (h.output_not_sync hw hx) ?_
  rw [h.resources]
  exact hw.not_input_of_output hx

end Design.Realizes

end Sequencer
