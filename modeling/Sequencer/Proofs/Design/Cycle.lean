import Sequencer.Proofs.Design.Wiring

/-!
# A design at rest

In each cycle a design is in one state, whose **effect** is what it puts on ports, what it loads and
where it goes. Here are the values of all signals once the logic has come to rest. A state is told
apart from the others only if its number fits (`Design.Indexable`).
-/

namespace Sequencer

open List
open Circuit Lowering Simulation Node Duty Act Machine Signal Simulator Valuation Except UInt64
open Option

/-! ### What a node does in one cycle -/

/-- What a state does in one cycle: what it puts on ports, what it loads, and where it goes instead
of going on. -/
structure Effect where
  outputs : List Write
  loads : List (RegisterId × SourceId)
  jump : Option StateId

namespace Lowering

/-- What an act does in the state `label`. Without an acknowledgement a sink stays where it is, and
without a strobe a source does. -/
def Act.effect (σ : Valuation) (label : StateId) : Act → Except Simulation.Fault Effect
  | .store loads => .ok ⟨[], loads, none⟩
  | .send c data _ => do
    let v ← eval σ data
    return ⟨[(c.stb, 1), (c.data, truncate v c.data.bits)], [],
      if σ.get c.ack = 0 then some label else none⟩
  | .receive c id source =>
    .ok ⟨[(c.ack, 1)], if σ.get c.stb = 0 then [] else [(id, source)],
      if σ.get c.stb = 0 then some label else none⟩

/-- What a state does in a cycle in which the signals have the values of `σ`. -/
def Node.effect (σ : Valuation) (n : Node) : Except Simulation.Fault Effect :=
  match n.duty with
  | .act a => a.effect σ n.label
  | .guard test yes no => do
    let v ← eval σ test
    return ⟨[], [], if v = 0 then no else some yes⟩

end Lowering

def Bank.loadWrite (b : Bank) (l : RegisterId × SourceId) : Write :=
  (b.selector l.1,
    truncate (Literal.sized (Int64.ofNat (b.code l.1 l.2)) (b.selector l.1).bits).word
      (b.selector l.1).bits)

namespace Simulation

variable (σ : Valuation)

theorem exec_jumpStmt (m : Machine) (l : StateId) :
    exec σ [m.jumpStmt l] = .ok [m.jumpWrite l] := rfl

theorem exec_loadStmt (b : Bank) (l : RegisterId × SourceId) :
    exec σ [b.loadStmt l.1 l.2] = .ok [b.loadWrite l] := rfl

theorem exec_assign_high {x : Signal} (hx : x.bits = 1) :
    exec σ [.assign x Resource.high] = .ok [(x, 1)] := by
  rw [exec_assign, hx]
  rfl

theorem eval_waiting (c : Channel) (tag : Nat) :
    eval σ (waiting c tag) = .ok (truth (σ.get c.ack = 0)) := by
  have hfault : fault? (waiting c tag) = none := rfl
  have hdenote : denote σ (waiting c tag) = truncate (truth (σ.get c.ack = 0)) 1 := rfl
  rw [eval, hfault, hdenote]
  by_cases h : σ.get c.ack = 0 <;> simp only [h] <;> rfl

end Simulation

/-- **The body of a state is its effect**: first the transition to what follows, then the ports, the
loads and the transition that overrides the first. -/
theorem exec_body {σ : Valuation} {rs : List Resource} {base : Nat} {w : Workshop} {n : Node}
    {m : Machine} {b : Bank} (hn : n.duty.Sound rs w) (hw : Wired rs base) :
    exec σ (n.body m.jumpStmt b.loadStmt) = (n.effect σ).map fun e =>
      n.next.toList.map m.jumpWrite ++ e.outputs ++ e.loads.map b.loadWrite ++
        e.jump.toList.map m.jumpWrite := by
  obtain ⟨label, next, duty⟩ := n
  rw [Node.body, exec_append, exec_map_ok fun l _ => exec_jumpStmt σ m l]
  cases duty with
  | store loads =>
    simp only [Duty.body, Act.body, exec_map_ok fun l _ => exec_loadStmt σ b l, Node.effect,
      Act.effect, Except.map]
    simp [bind, Except.bind, pure, Except.pure]
  | send c data tag =>
    have hbits := hw.strobes c (.inl hn.1)
    simp only [Duty.body, Act.body, Node.effect, Act.effect]
    rw [exec_cons_cons, exec_assign_high σ hbits.1, exec_cons_cons, exec_assign, exec_branch,
      eval_waiting]
    cases eval σ data with
    | error e => rfl
    | ok v =>
      by_cases hack : σ.get c.ack = 0 <;>
        simp [hack, truth, exec_jumpStmt, Except.map, bind, Except.bind, pure, Except.pure]
  | receive c id source =>
    have hbits := hw.strobes c (.inr hn.1)
    simp only [Duty.body, Act.body, Node.effect, Act.effect]
    rw [exec_cons_cons, exec_assign_high σ hbits.2, exec_branch]
    have hstb : eval σ (.signal c.stb) = .ok (σ.get c.stb) := rfl
    rw [hstb]
    have hload := exec_loadStmt σ b (id, source)
    by_cases hs : σ.get c.stb = 0 <;>
      simp [hs, hload, exec_jumpStmt, Except.map, bind, Except.bind, pure, Except.pure]
  | guard test yes no =>
    simp only [Duty.body, Node.effect, exec_branch]
    cases eval σ test with
    | error e => rfl
    | ok v =>
      by_cases hv : v = 0
      · cases no <;> simp [hv, exec_jumpStmt, Except.map, bind, Except.bind, pure, Except.pure]
      · simp [hv, exec_jumpStmt, Except.map, bind, Except.bind, pure, Except.pure]

/-- The writes of one pass over the combinational logic in the state with number `i`. -/
def Design.cycleWrites (d : Design) (i : Nat) (n : Node) (e : Effect) : List Write :=
  (d.machine.next, ofNat i) :: (n.next.toList.map d.machine.jumpWrite ++ e.outputs ++
    e.loads.map d.bank.loadWrite ++ e.jump.toList.map d.machine.jumpWrite)

/-! ### Numbers of states and codes of sources -/

/-- The numbers of the states and the codes of the sources fit in a signed word. -/
structure Design.Indexable (d : Design) : Prop where
  states : d.states.length < 2 ^ 63
  sources : ∀ r ∈ d.registers, r.sources.length < 2 ^ 63

instance (d : Design) : Decidable d.Indexable :=
  decidable_of_iff (d.states.length < 2 ^ 63 ∧ ∀ r ∈ d.registers, r.sources.length < 2 ^ 63)
    ⟨fun h => ⟨h.1, h.2⟩, fun h => ⟨h.states, h.sources⟩⟩

namespace Design.Realizes

variable {d : Design} {rs : List Resource} {base : Nat} {p : Plan} {w : Workshop}

section

variable (h : d.Realizes rs base p w)

include h

theorem length_states : d.machine.states.length = (p.nodes none).length := by
  simp [h.machine, machineOf]

theorem sized (hd : d.Indexable) : d.machine.Sized := by
  have hbits : d.machine.state.bits = clampWidth (stateBits (p.nodes none).length) ∧
      d.machine.next.bits = clampWidth (stateBits (p.nodes none).length) := by
    rw [h.machine]
    exact ⟨rfl, rfl⟩
  rw [← h.length_states] at hbits
  exact ⟨hd.states, hbits.1, hbits.2⟩

variable {i : Nat} {n : Node}

theorem number_lt (hn : (p.nodes none)[i]? = some n) : i < d.machine.states.length := by
  rw [h.length_states]
  exact (List.getElem?_eq_some_iff.mp hn).1

theorem index?_label (hn : (p.nodes none)[i]? = some n) : d.machine.index? n.label = some i := by
  have hlabels : d.machine.states.map State.label = p.labels := by
    rw [h.machine, ← Plan.map_label_nodes p none]
    simp [machineOf, resolvedState, Function.comp_def]
  have hi : p.labels[i]? = some n.label := by
    rw [← Plan.map_label_nodes p none, getElem?_map, hn]
    rfl
  have hfind : d.machine.index? n.label = p.labels.findIdx? (· = n.label) := by
    rw [← hlabels, index?, indexIn, findIdx?_map]
    rfl
  obtain ⟨hlt, hget⟩ := List.getElem?_eq_some_iff.mp hi
  rw [hfind, findIdx?_eq_some_iff_getElem]
  refine ⟨hlt, by simpa using hget, fun j hj => ?_⟩
  rw [← hget]
  simpa using fun he => absurd ((h.nodup.getElem_inj_iff).mp he) (Nat.ne_of_lt hj)

end

theorem armsFrom_eq (m : Machine) (b : Bank) (k : Nat) (nodes : List Node) :
    armsFrom m b k nodes = (nodes.map fun n => n.body m.jumpStmt b.loadStmt).mapIdx
      fun j body => (m.code (k + j), body) := by
  induction nodes generalizing k with
  | nil => rfl
  | cons n nodes ih => simp [armsFrom, ih, Nat.add_assoc, Nat.add_comm 1]

theorem machineLogic_eq {m : Machine} {b : Bank} {nodes : List Node} (h : nodes ≠ []) :
    machineLogic m b nodes = m.logic (armsFrom m b 0 nodes) := by
  rw [machineLogic, isEmpty_eq_false_iff.mpr h]
  rfl

/-- **One pass over the combinational logic** runs the body of the current state. -/
theorem exec_comb (h : d.Realizes rs base p w) (hw : Wired rs base) (hd : d.Indexable)
    {σ : Valuation} {i : Nat} {n : Node} (hi : σ.get d.machine.state = UInt64.ofNat i)
    (hn : (p.nodes none)[i]? = some n) :
    exec σ d.fragment.comb = (n.effect σ).map (d.cycleWrites i n) := by
  have hrun := (h.sized hd).visitArms_eq (σ := σ)
    ((p.nodes none).map fun n => n.body d.machine.jumpStmt d.bank.loadStmt)
    (by rw [length_map, h.length_states]) (by rw [getElem?_map, hn]; rfl)
  rw [← armsFrom_eq, exec_body (h.sound.of_mem_nodes (mem_of_getElem? hn)) hw] at hrun
  rw [h.comb_eq, machineLogic_eq (ne_nil_of_mem (mem_of_getElem? hn)),
    (h.sized hd).exec_comb hi (h.number_lt hn) hrun]
  cases n.effect σ <;> rfl

end Design.Realizes

/-! ### Values at rest -/

namespace Lowering.Node

variable {σ : Valuation} {n : Node} {e : Effect}

theorem effect_within (h : n.effect σ = .ok e) :
    e.loads ⊆ n.duty.loads ∧ (∀ o ∈ e.outputs, o.1 ∈ n.duty.outputs) ∧ e.jump.toList ⊆ n.jumps := by
  obtain ⟨label, next, duty⟩ := n
  cases duty with
  | store loads =>
    cases h
    simp [Duty.loads]
  | send c data tag =>
    obtain ⟨v, -, he⟩ := bind_eq_ok.mp h
    cases he
    by_cases hack : σ.get c.ack = 0 <;> simp [hack, Duty.outputs, Node.jumps, Duty.jumps]
  | receive c id source =>
    cases h
    by_cases hstb : σ.get c.stb = 0 <;>
      simp [hstb, Duty.outputs, Node.jumps, Duty.jumps, Duty.loads]
  | guard test yes no =>
    obtain ⟨v, -, he⟩ := bind_eq_ok.mp h
    cases he
    by_cases hv : v = 0
    · cases no <;> simp [hv, Node.jumps, Duty.jumps]
    · simp [hv, Node.jumps, Duty.jumps]

end Lowering.Node

/-- The number of the state that a machine goes to from number `i`. -/
def Machine.follow (m : Machine) (i : Nat) (next jump : Option StateId) : Nat :=
  ((jump <|> next).map fun l => (m.index? l).getD 0).getD i

/-- Signals that nobody drives are zero. -/
def Design.Idle (d : Design) (σ : Valuation) : Prop :=
  ∀ x, x ∉ targets d.fragment.comb → x ∉ targets d.fragment.sync →
    x ∉ portSignals d.resources .input → σ.get x = 0

/-- The values of all signals once the combinational logic has come to rest on `σ`, in the state
with number `i`. -/
structure AtRest (d : Design) (σ : Valuation) (i : Nat) (n : Node) (e : Effect) (τ : Valuation) :
    Prop where
  keeps : ∀ x, x ∉ targets d.fragment.comb → τ.get x = σ.get x
  next : τ.get d.machine.next = ofNat (d.machine.follow i n.next e.jump)
  selector : ∀ id < d.registers.length, τ.get (d.bank.selector id) =
    ofNat (((e.loads.reverse.lookup id).map (d.bank.code id)).getD 0)
  output : ∀ x ∈ portSignals d.resources .output, τ.get x = (e.outputs.reverse.lookup x).getD 0

namespace Design.Realizes

variable {d : Design} {rs : List Resource} {base : Nat} {p : Plan} {w : Workshop}

theorem exists_node (h : d.Realizes rs base p w) {l : StateId} (hl : l ∈ p.labels) :
    ∃ (i : Nat) (n : Node), (p.nodes none)[i]? = some n ∧ n.label = l ∧
      d.machine.index? l = some i := by
  rw [← Plan.map_label_nodes p none] at hl
  obtain ⟨n, hn, rfl⟩ := mem_map.mp hl
  obtain ⟨i, hi⟩ := mem_iff_getElem?.mp hn
  exact ⟨i, n, hi, rfl, h.index?_label hi⟩

theorem jumpWrite_eq (h : d.Realizes rs base p w) (hd : d.Indexable) {l : StateId}
    (hl : l ∈ p.labels) :
    d.machine.jumpWrite l = (d.machine.next, UInt64.ofNat ((d.machine.index? l).getD 0)) := by
  obtain ⟨i, n, hn, -, hi⟩ := h.exists_node hl
  rw [(h.sized hd).jumpWrite_eq hi, hi, getD_some]

theorem length_registers (h : d.Realizes rs base p w) :
    d.registers.length = w.bank.registers.length := by rw [h.registers, length_finalized]

variable {id : Nat} {r : Register} {x : Signal} {σ : Valuation}

theorem sources_lt (h : d.Realizes rs base p w) (hd : d.Indexable)
    (hr : w.bank.registers[id]? = some r) : r.sources.length < 2 ^ 63 :=
  hd.sources (r.withSelector (w.supply + id)) (h.mem_registers.mpr ⟨id, r, hr, rfl⟩)

theorem code_eq (h : d.Realizes rs base p w) {source : SourceId}
    (hr : w.bank.registers[id]? = some r) (hs : source ∈ r.sources) :
    ∃ k, r.sources[k]? = some source ∧ k < r.sources.length ∧ d.bank.code id source = k + 1 := by
  obtain ⟨k, hk⟩ := isSome_iff_exists.mp (isSome_idxOf?.mpr hs)
  obtain ⟨hlt, hget, -⟩ := idxOf?_eq_some_iff.mp hk
  refine ⟨k, by rw [getElem?_eq_getElem hlt, hget], hlt, ?_⟩
  simp [Bank.code, h.bank, getElem?_finalized, hr, Register.code?, Register.withSelector, hk]

section

variable (h : d.Realizes rs base p w)

include h

theorem selector_bits (hr : w.bank.registers[id]? = some r) :
    bitsFor (Int64.ofNat r.sources.length) ≤ (d.bank.selector id).bits := by
  rw [h.selector_eq hr]
  exact Int.le_max_left _ _

theorem loadWrite_eq (hd : d.Indexable) {source : SourceId} (hr : w.bank.registers[id]? = some r)
    (hs : source ∈ r.sources) :
    d.bank.loadWrite (id, source) = (d.bank.selector id, ofNat (d.bank.code id source)) := by
  obtain ⟨k, -, hlt, hcode⟩ := h.code_eq hr hs
  have hsmall := h.sources_lt hd hr
  have hbits := h.selector_bits hr
  have hle : d.bank.code id source ≤ r.sources.length := by omega
  simp only [Bank.loadWrite, word_sized hle hsmall hbits, truncate_ofNat hle hsmall hbits]

theorem next_ne_selector (hr : w.bank.registers[id]? = some r) :
    d.machine.next ≠ d.bank.selector id := by
  intro heq
  have := congrArg tag heq
  have hid := (List.getElem?_eq_some_iff.mp hr).1
  rw [h.selector_tag hr, h.next_tag] at this
  omega

end

theorem output_ne (hw : Wired rs base) {y : Signal} (hx : x ∈ portSignals rs .output)
    (hy : base ≤ y.tag) : x ≠ y := by
  rintro rfl
  have := hw.tag_lt hx
  omega

theorem lookup_map_inj {α β κ ι : Type} [DecidableEq κ] [DecidableEq ι] {l : List (ι × α)}
    {f : ι × α → κ × β} (key : ι → κ) (val : ι → α → β) {i : ι}
    (hf : ∀ a ∈ l, f a = (key a.1, val a.1 a.2)) (hinj : ∀ a ∈ l, key a.1 = key i → a.1 = i) :
    (l.map f).lookup (key i) = (l.lookup i).map (val i) := by
  induction l with
  | nil => rfl
  | cons a l ih =>
    have ih := ih (fun b hb => hf b (mem_cons_of_mem _ hb))
      (fun b hb => hinj b (mem_cons_of_mem _ hb))
    obtain ⟨j, x⟩ := a
    rw [map_cons, hf _ mem_cons_self]
    by_cases hj : j = i
    · subst hj
      simp
    · have hk : key i ≠ key j := fun hk => hj (hinj _ mem_cons_self hk.symm)
      rw [lookup_cons, lookup_cons, beq_false_of_ne hk, beq_false_of_ne (Ne.symm hj)]
      exact ih

theorem lookup_eq_none {ws : List Write} (h : ∀ o ∈ ws, o.1 ≠ x) : ws.lookup x = none := by
  rw [lookup_eq_none_iff]
  intro o ho
  simpa using (h o ho).symm

section Lookup

variable {i : Nat} {n : Node} {e : Effect}

section

variable (h : d.Realizes rs base p w) (hn : (p.nodes none)[i]? = some n) (he : n.effect σ = .ok e)

include h hn he

theorem recorded_of_effect {l : RegisterId × SourceId} (hl : l ∈ e.loads) :
    ∃ v, w.Recorded l.1 l.2 v :=
  (h.sound.of_mem_nodes (mem_of_getElem? hn)).recorded l ((effect_within he).1 hl)

theorem output_of_effect {o : Write} (ho : o ∈ e.outputs) : o.1 ∈ portSignals rs .output :=
  (h.sound.of_mem_nodes (mem_of_getElem? hn)).mem_outputs ((effect_within he).2.1 o ho)

/-- The state that comes next is one of the plan. -/
theorem label_of_follow {l : StateId} (hl : (e.jump <|> n.next) = some l) : l ∈ p.labels := by
  have hjumps : l ∈ n.jumps := by
    cases hj : e.jump with
    | some l' =>
      obtain rfl : l' = l := by simpa [hj] using hl
      exact (effect_within he).2.2 (by simp [hj])
    | none =>
      have hnext : n.next = some l := by simpa [hj] using hl
      simp [Node.jumps, hnext]
  exact (h.sound.guarded.jumps_of_mem_nodes (mem_of_getElem? hn) l hjumps).resolve_right (by simp)

variable (hw : Wired rs base)

include hw

theorem lookup_next (hd : d.Indexable) :
    (d.cycleWrites i n e).reverse.lookup d.machine.next =
      some (ofNat (d.machine.follow i n.next e.jump)) := by
  have hloads : (e.loads.map d.bank.loadWrite).reverse.lookup d.machine.next = none := by
    refine lookup_eq_none fun o ho => ?_
    obtain ⟨l, hl, rfl⟩ := mem_map.mp (mem_reverse.mp ho)
    obtain ⟨v, r, hr, -⟩ := h.recorded_of_effect hn he hl
    exact (h.next_ne_selector hr).symm
  have houtputs : e.outputs.reverse.lookup d.machine.next = none := by
    refine lookup_eq_none fun o ho => ?_
    have hbase := h.tidy.base_le
    have htag := h.next_tag
    exact output_ne hw (h.output_of_effect hn he (mem_reverse.mp ho)) (by omega)
  simp only [cycleWrites, reverse_cons, reverse_append, lookup_append, hloads,
    houtputs, Machine.follow]
  cases hj : e.jump with
  | some l => simp [h.jumpWrite_eq hd (h.label_of_follow hn he (l := l) (by simp [hj]))]
  | none =>
    cases hx : n.next with
    | some l => simp [h.jumpWrite_eq hd (h.label_of_follow hn he (l := l) (by simp [hj, hx]))]
    | none => simp

omit h hn he hw in
theorem lookup_jumps {m : Machine} (hx : x ≠ m.next) (ls : List StateId) :
    (ls.map m.jumpWrite).reverse.lookup x = none := by
  refine lookup_eq_none fun o ho => ?_
  obtain ⟨l, -, rfl⟩ := mem_map.mp (mem_reverse.mp ho)
  exact hx.symm

theorem lookup_selector (hd : d.Indexable) (hr : w.bank.registers[id]? = some r) :
    (d.cycleWrites i n e).reverse.lookup (d.bank.selector id) =
      (e.loads.reverse.lookup id).map fun s => ofNat (d.bank.code id s) := by
  have hne : d.bank.selector id ≠ d.machine.next := (h.next_ne_selector hr).symm
  have houtputs : e.outputs.reverse.lookup (d.bank.selector id) = none := by
    refine lookup_eq_none fun o ho => ?_
    have hbase := h.tidy.base_le
    have htag := h.selector_tag hr
    exact output_ne hw (h.output_of_effect hn he (mem_reverse.mp ho)) (by omega)
  have hloads : (e.loads.map d.bank.loadWrite).reverse.lookup (d.bank.selector id) =
      (e.loads.reverse.lookup id).map fun s => ofNat (d.bank.code id s) := by
    rw [← map_reverse]
    refine lookup_map_inj d.bank.selector (fun id s => ofNat (d.bank.code id s))
      (fun l hl => ?_) fun l hl heq => ?_
    · obtain ⟨v, r', hr', hs, -⟩ := h.recorded_of_effect hn he (mem_reverse.mp hl)
      exact h.loadWrite_eq hd hr' hs
    · obtain ⟨v, r', hr', -⟩ := h.recorded_of_effect hn he (mem_reverse.mp hl)
      have htag := h.selector_tag hr'
      rw [heq, h.selector_tag hr] at htag
      exact (Nat.add_left_cancel htag).symm
  have hfirst : [(d.machine.next, ofNat i)].lookup (d.bank.selector id) = none :=
    lookup_eq_none (by simpa using hne.symm)
  simp only [cycleWrites, reverse_cons, reverse_append, lookup_append, hloads,
    houtputs, lookup_jumps hne, hfirst, none_or, or_none]

theorem lookup_output (hx : x ∈ portSignals rs .output) :
    (d.cycleWrites i n e).reverse.lookup x = e.outputs.reverse.lookup x := by
  have hbase := h.tidy.base_le
  have htag := h.next_tag
  have hne : x ≠ d.machine.next := output_ne hw hx (by omega)
  have hloads : (e.loads.map d.bank.loadWrite).reverse.lookup x = none := by
    refine lookup_eq_none fun o ho => ?_
    obtain ⟨l, hl, rfl⟩ := mem_map.mp (mem_reverse.mp ho)
    obtain ⟨v, r, hr, -⟩ := h.recorded_of_effect hn he hl
    have htag := h.selector_tag hr
    exact (output_ne (y := d.bank.selector l.1) hw hx (by omega)).symm
  have hfirst : [(d.machine.next, ofNat i)].lookup x = none :=
    lookup_eq_none (by simpa using hne.symm)
  simp only [cycleWrites, reverse_cons, reverse_append, lookup_append, hloads,
    lookup_jumps hne, hfirst, none_or, or_none]

end

end Lookup

variable (h : d.Realizes rs base p w)

include h

theorem selector_not_sync (hr : w.bank.registers[id]? = some r) :
    d.bank.selector id ∉ targets d.fragment.sync := by
  intro hx
  have hid := (List.getElem?_eq_some_iff.mp hr).1
  have htag := h.selector_tag hr
  obtain hx | hx := h.sync_targets hx
  · rw [hx, h.state_tag] at htag
    omega
  · have := h.tidy.storage_tag hx
    omega

theorem output_not_sync (hw : Wired rs base) (hx : x ∈ portSignals rs .output) :
    x ∉ targets d.fragment.sync := by
  intro hsync
  have hbase := h.tidy.base_le
  obtain hst | hst := h.sync_targets hsync
  · have := h.state_tag
    exact output_ne hw hx (by omega) hst
  · exact output_ne hw hx (h.tidy.storage_tag hst).1 rfl

/-- A signal that combinational logic may drive and that is not an input port is at zero until it is
written. -/
theorem get_before (hidle : d.Idle σ) (hreset : x.reset = 0) (hsync : x ∉ targets d.fragment.sync)
    (hinput : x ∉ portSignals rs .input) :
    (σ.override (resets (targets d.fragment.comb))).get x = 0 := by
  rw [get_resets]
  split
  · rw [resetWord, hreset]
    exact truncate_zero _
  · rename_i hcomb
    exact hidle x hcomb hsync (h.resources ▸ hinput)

/-- **What the signals are once a state has settled.** -/
theorem atRest (hw : Wired rs base) (hd : d.Indexable) {i : Nat} {n : Node} {e : Effect}
    (hi : σ.get d.machine.state = ofNat i) (hn : (p.nodes none)[i]? = some n)
    (hidle : d.Idle σ) (he : n.effect σ = .ok e) :
    ∃ τ, settled d.fragment σ = .ok τ ∧ AtRest d σ i n e τ := by
  have hexec := h.exec_comb hw hd hi hn
  rw [he] at hexec
  have hget : ∀ x, (σ.override (resets (targets d.fragment.comb) ++
      d.cycleWrites i n e)).get x = ((d.cycleWrites i n e).reverse.lookup x).getD
        ((σ.override (resets (targets d.fragment.comb))).get x) := by
    intro x
    rw [override_append, get_override]
  have hbase := h.tidy.base_le
  refine ⟨_, by rw [settled, hexec]; rfl, fun x hx => ?_, ?_, fun id hid => ?_, fun x hx => ?_⟩
  · refine get_override_of_notMem fun o ho heq => hx (heq ▸ ?_)
    exact mem_targets_of_combWrites hexec o ho
  · rw [hget, h.lookup_next hn he hw hd]
    rfl
  · rw [h.length_registers] at hid
    have hr := getElem?_eq_getElem hid
    have hinput : d.bank.selector id ∉ portSignals rs .input := fun hx => by
      have := hw.tag_lt hx
      rw [h.selector_tag hr] at this
      omega
    have hzero := h.get_before hidle (by rw [h.selector_eq hr]) (h.selector_not_sync hr) hinput
    rw [hget, h.lookup_selector hn he hw hd hr, hzero]
    cases e.loads.reverse.lookup id <;> rfl
  · rw [h.resources] at hx
    have hzero := h.get_before hidle (hw.plain _ (mem_portSignals.mp hx)).2
      (h.output_not_sync hw hx) (hw.not_input_of_output hx)
    rw [hget, h.lookup_output hn he hw hx, hzero]

theorem settled_error (hw : Wired rs base) (hd : d.Indexable) {i : Nat} {n : Node}
    {f : Simulation.Fault} (hi : σ.get d.machine.state = ofNat i)
    (hn : (p.nodes none)[i]? = some n) (he : n.effect σ = .error f) :
    settled d.fragment σ = .error f := by
  rw [settled, h.exec_comb hw hd hi hn, he]
  rfl

end Design.Realizes

end Sequencer
