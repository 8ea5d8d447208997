import Sequencer.Proofs.Design.Anatomy

/-!
# Which signals a design reads and drives

The signals of a design have four roles: ports, registers, selectors and the state of the machine.
Tags tell them apart, since they were handed out in this order.
-/

namespace Sequencer

open List
open Circuit Lowering Simulation Resource Fragment Node Register Signal

/-! ### What blocks read and drive -/

namespace Circuit

theorem walk_append (ss ts : List Stmt) : walk (ss ++ ts) = walk ss ++ walk ts := by
  simp only [walk_eq_flatMap, flatMap_append]

theorem reads_append (ss ts : List Stmt) : reads (ss ++ ts) = reads ss ++ reads ts := by
  simp [reads, walk_append]

@[simp]
theorem reads_nil : reads [] = [] := rfl

@[simp]
theorem reads_cons_cons (s t : Stmt) (ss : List Stmt) :
    reads (s :: t :: ss) = reads [s] ++ reads (t :: ss) := reads_append [s] (t :: ss)

theorem mem_targets_append {ss ts : List Stmt} {x : Signal} :
    x ∈ targets (ss ++ ts) ↔ x ∈ targets ss ∨ x ∈ targets ts := by
  simp only [mem_targets, walk_append, mem_append, exists_or]

@[simp]
theorem targets_nil : targets [] = [] := rfl

variable {x : Signal} {test : Value} {arms : List (Literal × List Stmt)}

@[simp]
theorem mem_targets_cons_cons {s t : Stmt} {ss : List Stmt} :
    x ∈ targets (s :: t :: ss) ↔ x ∈ targets [s] ∨ x ∈ targets (t :: ss) :=
  @mem_targets_append [s] (t :: ss) x

@[simp]
theorem reads_assign (t : Signal) (v : Value) : reads [.assign t v] = v.reads := by
  simp [reads, walk, Stmt.walk, Stmt.ownReads]

@[simp]
theorem mem_targets_assign {t : Signal} {v : Value} : x ∈ targets [.assign t v] ↔ x = t := by
  simp [mem_targets, walk, Stmt.walk]

@[simp]
theorem reads_branch (test : Value) (yes : List Stmt) (no : Option (List Stmt)) :
    reads [.branch test yes no] = test.reads ++ reads yes ++ reads (no.getD []) := by
  cases no <;> simp [reads, walk, Stmt.walk, walkOption, Stmt.ownReads]

@[simp]
theorem mem_targets_branch {yes : List Stmt} {no : Option (List Stmt)} :
    x ∈ targets [.branch test yes no] ↔ x ∈ targets yes ∨ x ∈ targets (no.getD []) := by
  cases no <;> simp [mem_targets, walk, Stmt.walk, walkOption, exists_or]

theorem mem_reads_select :
    x ∈ reads [.select test arms none] ↔ x ∈ test.reads ∨ ∃ arm ∈ arms, x ∈ reads arm.2 := by
  simp only [mem_reads, walk, Stmt.walk, walkOption, append_nil, mem_cons, mem_walkArms]
  constructor
  · rintro ⟨s, rfl | ⟨arm, harm, hs⟩, hx⟩
    · exact .inl hx
    · exact .inr ⟨arm, harm, s, hs, hx⟩
  · rintro (hx | ⟨arm, harm, s, hs, hx⟩)
    · exact ⟨_, .inl rfl, hx⟩
    · exact ⟨s, .inr ⟨arm, harm, hs⟩, hx⟩

theorem mem_targets_select :
    x ∈ targets [.select test arms none] ↔ ∃ arm ∈ arms, x ∈ targets arm.2 := by
  simp only [mem_targets, walk, Stmt.walk, walkOption, append_nil, mem_cons, mem_walkArms,
    reduceCtorEq, false_or]
  constructor
  · rintro ⟨v, arm, harm, hv⟩
    exact ⟨arm, harm, v, hv⟩
  · rintro ⟨arm, harm, v, hv⟩
    exact ⟨v, arm, harm, hv⟩

theorem mem_targets_map {α : Type} {f : α → Stmt} {l : List α} :
    x ∈ targets (l.map f) ↔ ∃ a ∈ l, x ∈ targets [f a] := by
  induction l with
  | nil => simp
  | cons a l ih =>
    rw [map_cons, ← singleton_append, mem_targets_append, ih]
    simp

theorem mem_reads_map {α : Type} {f : α → Stmt} {l : List α} :
    x ∈ reads (l.map f) ↔ ∃ a ∈ l, x ∈ reads [f a] := by
  induction l with
  | nil => simp
  | cons a l ih =>
    rw [map_cons, ← singleton_append, reads_append, mem_append, ih]
    simp

end Circuit

/-! ### What nodes read and drive -/

namespace Lowering

/-- The signals whose values decide what a duty does. -/
def Duty.reads : Duty → List Signal
  | .act (.store _) => []
  | .act (.send c data _) => data.reads ++ [c.ack]
  | .act (.receive c _ _) => [c.stb]
  | .guard test _ _ => test.reads

/-- The ports that a duty drives. -/
def Duty.outputs : Duty → List Signal
  | .act (.send c _ _) => [c.stb, c.data]
  | .act (.receive c _ _) => [c.ack]
  | _ => []

section Bodies

variable {m : Machine} {b : Bank} {x : Signal}

@[simp]
theorem reads_jumpStmt (l : StateId) : reads [m.jumpStmt l] = [] := reads_assign _ _

@[simp]
theorem reads_loadStmt (id : RegisterId) (source : SourceId) : reads [b.loadStmt id source] = [] :=
  reads_assign _ _

@[simp]
theorem mem_targets_jumpStmt {l : StateId} : x ∈ targets [m.jumpStmt l] ↔ x = m.next :=
  mem_targets_assign

@[simp]
theorem mem_targets_loadStmt {id : RegisterId} {source : SourceId} :
    x ∈ targets [b.loadStmt id source] ↔ x = b.selector id := mem_targets_assign

theorem Node.mem_reads_body {n : Node} :
    x ∈ reads (n.body m.jumpStmt b.loadStmt) ↔ x ∈ n.duty.reads := by
  obtain ⟨label, next, duty⟩ := n
  simp only [body, reads_append, mem_append, mem_reads_map, reads_jumpStmt,
    not_mem_nil, and_false, exists_false, false_or]
  cases duty with
  | store loads => simp [Duty.body, Act.body, mem_reads_map, Duty.reads]
  | send c data tag =>
    simp [Duty.body, Act.body, Duty.reads, high, waiting, Value.ofLiteral, Value.reads]
  | receive c id source =>
    simp [Duty.body, Act.body, Duty.reads, high, Value.ofLiteral, Value.reads]
  | guard test yes no => cases no <;> simp [Duty.body, Duty.reads]

theorem Node.mem_targets_body {n : Node} :
    x ∈ targets (n.body m.jumpStmt b.loadStmt) ↔
      (n.jumps ≠ [] ∧ x = m.next) ∨ (∃ l ∈ n.duty.loads, x = b.selector l.1) ∨
        x ∈ n.duty.outputs := by
  obtain ⟨label, next, duty⟩ := n
  have hnext : (∃ l ∈ next.toList, x = m.next) ↔ next.toList ≠ [] ∧ x = m.next := by
    cases next <;> simp
  simp only [body, mem_targets_append, mem_targets_map, mem_targets_jumpStmt, hnext]
  cases duty with
  | store loads =>
    simp [Duty.body, Act.body, mem_targets_map, jumps, Duty.jumps, Duty.loads, Duty.outputs]
  | send c data tag | receive c id source =>
    simp [Duty.body, Act.body, jumps, Duty.jumps, Duty.loads, Duty.outputs]
    tauto
  | guard test yes no =>
    cases no <;> simp [Duty.body, jumps, Duty.jumps, Duty.loads, Duty.outputs]

end Bodies

end Lowering

/-! ### What a design reads and drives -/

namespace Design.Realizes

variable {d : Design} {rs : List Resource} {base : Nat} {p : Plan} {w : Workshop}

variable {r : Register} {x : Signal}

theorem isSome_selector {tag : Nat} {regs : List Register} (hr : r ∈ finalized tag regs) :
    r.selector.isSome := by
  obtain ⟨i, hi⟩ := mem_iff_getElem?.mp hr
  rw [getElem?_finalized] at hi
  obtain ⟨r', -, rfl⟩ := Option.map_eq_some_iff.mp hi
  rfl

theorem lower_eq (h : d.Realizes rs base p w) (hr : r ∈ d.registers) :
    d.bank.lower r = ⟨[], [d.bank.loadLogic r]⟩ :=
  Bank.lower_of_isSome (isSome_selector (h.registers ▸ hr))

theorem comb_eq (h : d.Realizes rs base p w) :
    d.fragment.comb = (machineLogic d.machine d.bank (p.nodes none)).comb := by
  have hnil : d.registers.flatMap (fun r => (d.bank.lower r).comb) = [] :=
    flatMap_eq_nil_iff.mpr fun r hr => by rw [h.lower_eq hr]
  rw [h.fragment]
  simp only [Fragment.merge, flatMap_append, flatMap_map, flatMap_singleton]
  rw [hnil, nil_append]

theorem sync_eq (h : d.Realizes rs base p w) :
    d.fragment.sync = d.registers.map d.bank.loadLogic ++
      (machineLogic d.machine d.bank (p.nodes none)).sync := by
  have hmap : d.registers.flatMap (fun r => (d.bank.lower r).sync) =
      d.registers.map d.bank.loadLogic := by
    rw [map_eq_flatMap]
    exact flatMap_congr fun r hr => by rw [h.lower_eq hr]
  rw [h.fragment]
  simp only [Fragment.merge, flatMap_append, flatMap_map, flatMap_singleton]
  rw [hmap]

theorem exists_mem_armsFrom {m : Machine} {b : Bank} {i : Nat} {nodes : List Node}
    {P : List Stmt → Prop} : (∃ arm ∈ armsFrom m b i nodes, P arm.2) ↔
      ∃ n ∈ nodes, P (n.body m.jumpStmt b.loadStmt) := by
  induction nodes generalizing i with
  | nil => simp [armsFrom]
  | cons n nodes ih => simp [armsFrom, ih]

/-- Exactly what combinational logic reads. -/
theorem mem_reads_comb (h : d.Realizes rs base p w) :
    x ∈ reads d.fragment.comb ↔ p.nodes none ≠ [] ∧
      (x = d.machine.state ∨ ∃ n ∈ p.nodes none, x ∈ n.duty.reads) := by
  rw [h.comb_eq]
  cases hn : p.nodes none with
  | nil => simp [machineLogic, empty]
  | cons n ns =>
    simp only [machineLogic, isEmpty_cons, Bool.false_eq_true, if_false, reads_cons_cons,
      reads_assign, mem_append, mem_reads_select, Value.reads, mem_singleton,
      exists_mem_armsFrom (P := fun ss => x ∈ reads ss), mem_reads_body]
    simp

/-- Exactly what combinational logic drives. -/
theorem mem_targets_comb (h : d.Realizes rs base p w) :
    x ∈ targets d.fragment.comb ↔ p.nodes none ≠ [] ∧ (x = d.machine.next ∨
      ∃ n ∈ p.nodes none, (∃ l ∈ n.duty.loads, x = d.bank.selector l.1) ∨ x ∈ n.duty.outputs) := by
  rw [h.comb_eq]
  cases hn : p.nodes none with
  | nil => simp [machineLogic, empty]
  | cons n ns =>
    simp only [machineLogic, isEmpty_cons, Bool.false_eq_true, if_false,
      mem_targets_cons_cons, mem_targets_assign, mem_targets_select,
      exists_mem_armsFrom (P := fun ss => x ∈ targets ss), mem_targets_body]
    constructor
    · rintro (hx | ⟨n, hn, ⟨-, hx⟩ | hx⟩)
      · exact ⟨by simp, .inl hx⟩
      · exact ⟨by simp, .inl hx⟩
      · exact ⟨by simp, .inr ⟨n, hn, hx⟩⟩
    · rintro ⟨-, hx | ⟨n, hn, hx⟩⟩
      · exact .inl hx
      · exact .inr ⟨n, hn, .inr hx⟩

theorem mem_targets_loadLogic {b : Bank} :
    x ∈ targets [b.loadLogic r] ↔ b.sourceValues r ≠ [] ∧ x = r.storage := by
  rw [Bank.loadLogic, mem_targets_select]
  constructor
  · rintro ⟨arm, harm, hx⟩
    obtain ⟨i, hi, rfl⟩ := mem_mapIdx.mp harm
    exact ⟨ne_nil_of_length_pos (Nat.lt_of_le_of_lt (Nat.zero_le _) hi), by simpa using hx⟩
  · rintro ⟨hne, rfl⟩
    have hlen := length_pos_of_ne_nil hne
    exact ⟨_, mem_mapIdx.mpr ⟨0, hlen, rfl⟩, by simp⟩

theorem mem_registers (h : d.Realizes rs base p w) {r' : Register} :
    r' ∈ d.registers ↔ ∃ (i : Nat) (r : Register), w.bank.registers[i]? = some r ∧
      r.withSelector (w.supply + i) = r' := by
  rw [h.registers, mem_iff_getElem?]
  simp only [getElem?_finalized, Option.map_eq_some_iff]

theorem map_storage_registers (h : d.Realizes rs base p w) :
    d.registers.map storage = w.storages := by
  refine ext_getElem? fun i => ?_
  rw [h.registers, getElem?_map, getElem?_finalized, Workshop.storages, getElem?_map,
    Option.map_map]
  rfl

theorem getElem?_filterMap {α β : Type} {f : α → Option β} {l : List α}
    (hl : ∀ a ∈ l, ∃ b, f a = some b) (i : Nat) : (l.filterMap f)[i]? = (l[i]?).bind f := by
  induction l generalizing i with
  | nil => simp
  | cons a l ih =>
    obtain ⟨b, hb⟩ := hl a mem_cons_self
    rw [filterMap_cons_some hb]
    cases i with
    | zero => simp [hb]
    | succ i => simpa using ih (fun x hx => hl x (mem_cons_of_mem _ hx)) i

variable (h : d.Realizes rs base p w)

include h

theorem getElem?_sourceValues {id : Nat} (hr : w.bank.registers[id]? = some r) (tag i : Nat) :
    (d.bank.sourceValues (r.withSelector tag))[i]? = (r.sources[i]?).bind w.bank.pool.value? := by
  have hmem := mem_of_getElem? hr
  have hpool : d.bank.poolOf (r.withSelector tag) = w.bank.pool := by
    simp [Bank.poolOf, withSelector, h.tidy.shared r hmem, h.bank]
  rw [Bank.sourceValues, hpool]
  exact getElem?_filterMap (h.tidy.sources r hmem).2 i

theorem sourceValues_ne_nil {id : Nat} (hr : w.bank.registers[id]? = some r) (tag : Nat) :
    d.bank.sourceValues (r.withSelector tag) ≠ [] ↔ r.sources ≠ [] := by
  have hsources := (h.tidy.sources r (mem_of_getElem? hr)).2
  have hzero := h.getElem?_sourceValues hr tag 0
  cases hs : r.sources with
  | nil => simpa [hs] using hzero
  | cons s ss =>
    obtain ⟨v, hv⟩ := hsources s (by simp [hs])
    simp only [hs, getElem?_cons_zero, Option.bind_some, hv] at hzero
    simp only [ne_eq, reduceCtorEq, not_false_eq_true, iff_true]
    intro hnil
    simp [hnil] at hzero

/-- Exactly what changes at clock edges. -/
theorem mem_targets_sync :
    x ∈ targets d.fragment.sync ↔
      (∃ r ∈ w.bank.registers, r.sources ≠ [] ∧ x = r.storage) ∨
        (p.nodes none ≠ [] ∧ x = d.machine.state) := by
  have hmachine : x ∈ targets (machineLogic d.machine d.bank (p.nodes none)).sync ↔
      p.nodes none ≠ [] ∧ x = d.machine.state := by
    cases p.nodes none <;> simp [machineLogic, empty]
  rw [h.sync_eq, mem_targets_append, mem_targets_map, hmachine]
  simp only [mem_targets_loadLogic, h.mem_registers]
  constructor
  · rintro (⟨_, ⟨i, r, hr, rfl⟩, hne, hx⟩ | hx)
    · exact .inl ⟨r, mem_of_getElem? hr, (h.sourceValues_ne_nil hr _).mp hne, hx⟩
    · exact .inr hx
  · rintro (⟨r, hmem, hne, hx⟩ | hx)
    · obtain ⟨i, hr⟩ := mem_iff_getElem?.mp hmem
      exact .inl ⟨_, ⟨i, r, hr, rfl⟩, (h.sourceValues_ne_nil hr _).mpr hne, hx⟩
    · exact .inr hx

end Design.Realizes

/-! ### Different signals -/

/-- Channels with signals of their own, whose tags were handed out before `base`. -/
structure Wired (rs : List Resource) (base : Nat) : Prop where
  channels : ∀ d, .device d ∉ rs
  distinct : ((rs.flatMap ports).map fun q => q.signal.tag).Nodup
  below : ∀ q ∈ rs.flatMap ports, q.signal.tag < base
  plain : ∀ q ∈ rs.flatMap ports, 1 ≤ q.signal.bits ∧ q.signal.reset = 0
  strobes : ∀ c, .sink c ∈ rs ∨ .source c ∈ rs → c.stb.bits = 1 ∧ c.ack.bits = 1

def portSignals (rs : List Resource) (dir : Direction) : List Signal :=
  ((rs.flatMap ports).filter fun q => q.direction = dir).map Port.signal

theorem mem_portSignals {rs : List Resource} {dir : Direction} {x : Signal} :
    x ∈ portSignals rs dir ↔ ⟨x, dir⟩ ∈ rs.flatMap ports := by
  simp only [portSignals, mem_map, mem_filter, decide_eq_true_eq]
  constructor
  · rintro ⟨q, ⟨hq, rfl⟩, rfl⟩
    exact hq
  · exact fun hq => ⟨_, ⟨hq, rfl⟩, rfl⟩

namespace Wired

variable {rs : List Resource} {base : Nat}

theorem signals_nodup (hw : Wired rs base) : ((rs.flatMap ports).map Port.signal).Nodup := by
  refine Nodup.of_map tag ?_
  rw [map_map]
  exact hw.distinct

theorem not_input_of_output (hw : Wired rs base) {x : Signal} (hx : x ∈ portSignals rs .output) :
    x ∉ portSignals rs .input := by
  intro hx'
  have := inj_on_of_nodup_map hw.distinct (mem_portSignals.mp hx) (mem_portSignals.mp hx') rfl
  cases this

theorem tag_lt (hw : Wired rs base) {dir : Direction} {x : Signal} (hx : x ∈ portSignals rs dir) :
    x.tag < base := hw.below _ (mem_portSignals.mp hx)

theorem sink_mem {c : Channel} (h : .sink c ∈ rs) :
    c.data ∈ portSignals rs .output ∧ c.stb ∈ portSignals rs .output ∧
      c.ack ∈ portSignals rs .input := by
  simp only [mem_portSignals, mem_flatMap]
  exact ⟨⟨_, h, by simp [ports]⟩, ⟨_, h, by simp [ports]⟩,
    ⟨_, h, by simp [ports]⟩⟩

theorem source_mem {c : Channel} (h : .source c ∈ rs) :
    c.data ∈ portSignals rs .input ∧ c.stb ∈ portSignals rs .input ∧
      c.ack ∈ portSignals rs .output := by
  simp only [mem_portSignals, mem_flatMap]
  exact ⟨⟨_, h, by simp [ports]⟩, ⟨_, h, by simp [ports]⟩,
    ⟨_, h, by simp [ports]⟩⟩

end Wired

namespace Lowering.Duty.Sound

variable {rs : List Resource} {w : Workshop} {n : Node}

theorem mem_reads (h : n.duty.Sound rs w) {x : Signal} (hx : x ∈ n.duty.reads) :
    x ∈ w.storages ∨ x ∈ portSignals rs .input := by
  obtain ⟨label, next, duty⟩ := n
  cases duty with
  | store loads => simp [Duty.reads] at hx
  | send c data tag =>
    simp only [Duty.reads, mem_append, mem_singleton] at hx
    obtain hx | rfl := hx
    · exact .inl (h.2.reads_subset hx)
    · exact .inr (Wired.sink_mem h.1).2.2
  | receive c id source =>
    obtain rfl := mem_singleton.mp hx
    exact .inr (Wired.source_mem h.1).2.1
  | guard test yes no => exact .inl (Value.BuiltOn.reads_subset h hx)

theorem mem_outputs (h : n.duty.Sound rs w) {x : Signal} (hx : x ∈ n.duty.outputs) :
    x ∈ portSignals rs .output := by
  obtain ⟨label, next, duty⟩ := n
  cases duty with
  | store loads => simp [Duty.outputs] at hx
  | send c data tag =>
    simp only [Duty.outputs, mem_cons, not_mem_nil, or_false] at hx
    obtain rfl | rfl := hx
    · exact (Wired.sink_mem h.1).2.1
    · exact (Wired.sink_mem h.1).1
  | receive c id source =>
    obtain rfl := mem_singleton.mp hx
    exact (Wired.source_mem h.1).2.2
  | guard test yes no => simp [Duty.outputs] at hx

end Lowering.Duty.Sound

namespace Design.Realizes

variable {d : Design} {rs : List Resource} {base : Nat} {p : Plan} {w : Workshop}
  (h : d.Realizes rs base p w)

include h

theorem selector_eq {id : Nat} {r : Register} (hr : w.bank.registers[id]? = some r) :
    d.bank.selector id = ⟨w.supply + id, "regsel_" ++ r.name, clampWidth r.selectorBits, 0⟩ := by
  simp [Bank.selector, h.bank, getElem?_finalized, hr, withSelector]

theorem selector_tag {id : Nat} {r : Register} (hr : w.bank.registers[id]? = some r) :
    (d.bank.selector id).tag = w.supply + id := by rw [h.selector_eq hr]

theorem state_tag :
    d.machine.state.tag = w.supply + w.bank.registers.length := by rw [h.machine]; rfl

theorem next_tag :
    d.machine.next.tag = w.supply + w.bank.registers.length + 1 := by rw [h.machine]; rfl

variable {x : Signal}

/-- What combinational logic drives: the next state, selectors and output ports. -/
theorem comb_targets (hx : x ∈ targets d.fragment.comb) :
    x = d.machine.next ∨
      (∃ (id : Nat) (r : Register), w.bank.registers[id]? = some r ∧ x = d.bank.selector id) ∨
        x ∈ portSignals rs .output := by
  obtain ⟨-, hx | ⟨n, hn, ⟨l, hl, hx⟩ | hx⟩⟩ := h.mem_targets_comb.mp hx
  · exact .inl hx
  · obtain ⟨v, r, hr, -⟩ := (h.sound.of_mem_nodes hn).recorded l hl
    exact .inr (.inl ⟨l.1, r, hr, hx⟩)
  · exact .inr (.inr ((h.sound.of_mem_nodes hn).mem_outputs hx))

/-- What combinational logic reads: the current state, registers and input ports. -/
theorem comb_reads (hx : x ∈ reads d.fragment.comb) :
    x = d.machine.state ∨ x ∈ w.storages ∨ x ∈ portSignals rs .input := by
  obtain ⟨-, hx | ⟨n, hn, hx⟩⟩ := h.mem_reads_comb.mp hx
  · exact .inl hx
  · exact .inr ((h.sound.of_mem_nodes hn).mem_reads hx)

/-- What changes at clock edges: the current state and registers. -/
theorem sync_targets (hx : x ∈ targets d.fragment.sync) : x = d.machine.state ∨ x ∈ w.storages := by
  obtain ⟨r, hr, -, rfl⟩ | ⟨-, hx⟩ := h.mem_targets_sync.mp hx
  · exact .inr (mem_map_of_mem hr)
  · exact .inl hx

/-- The tags tell the roles of signals apart: ports, registers, selectors, the current state and the
next one, in this order. -/
theorem comb_target_tag (hx : x ∈ targets d.fragment.comb) :
    x ∈ portSignals rs .output ∨ (w.supply ≤ x.tag ∧ x ≠ d.machine.state) := by
  obtain rfl | ⟨id, r, hr, rfl⟩ | hx := h.comb_targets hx
  · right
    have := h.next_tag
    refine ⟨by omega, fun he => ?_⟩
    have := congrArg tag he
    rw [h.state_tag] at this
    omega
  · right
    have hid := (List.getElem?_eq_some_iff.mp hr).1
    have htag := h.selector_tag hr
    refine ⟨by omega, fun he => ?_⟩
    rw [he, h.state_tag] at htag
    omega
  · exact .inl hx

variable (hw : Wired rs base)

include hw

theorem state_not_comb : d.machine.state ∉ targets d.fragment.comb := by
  intro hcomb
  obtain hout | ⟨-, hne⟩ := h.comb_target_tag hcomb
  · have hlt := hw.tag_lt hout
    have hbase := h.tidy.base_le
    rw [h.state_tag] at hlt
    omega
  · exact hne rfl

theorem storage_not_comb (hx : x ∈ w.storages) : x ∉ targets d.fragment.comb := by
  intro hcomb
  have htag := h.tidy.storage_tag hx
  obtain hout | ⟨hle, -⟩ := h.comb_target_tag hcomb
  · have hlt := hw.tag_lt hout
    omega
  · omega

/-- Nothing is driven in two ways. -/
theorem domains : ∀ x ∈ targets d.fragment.sync, x ∉ targets d.fragment.comb := by
  intro x hsync
  obtain rfl | hst := h.sync_targets hsync
  · exact h.state_not_comb hw
  · exact h.storage_not_comb hw hst

/-- Input ports are left to the environment. -/
theorem input_undriven (hx : x ∈ portSignals rs .input) :
    x ∉ targets d.fragment.comb ∧ x ∉ targets d.fragment.sync := by
  have hbase := h.tidy.base_le
  have hlt := hw.tag_lt hx
  constructor
  · intro hcomb
    obtain hout | ⟨htag, -⟩ := h.comb_target_tag hcomb
    · exact hw.not_input_of_output hout hx
    · omega
  · intro hsync
    obtain rfl | hst := h.sync_targets hsync
    · rw [h.state_tag] at hlt
      omega
    · have := h.tidy.storage_tag hst
      omega

/-- Combinational logic does not read what it drives. -/
theorem feedForward : FeedForward d.fragment := by
  intro x hread
  obtain rfl | hst | hin := h.comb_reads hread
  · exact h.state_not_comb hw
  · exact h.storage_not_comb hw hst
  · exact (h.input_undriven hw hin).1

end Design.Realizes

end Sequencer
