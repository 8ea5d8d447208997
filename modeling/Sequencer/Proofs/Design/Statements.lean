import Sequencer.Proofs.Design.Wiring

/-!
# The statements of a design

What a backend can do with a design depends on its statements only: assignments, branches, and
selections over a signal with literals of its width. No marker is among them, and output ports are
never read.
-/

namespace Sequencer

open List
open Circuit Lowering Fragment Wired

namespace Circuit

/-- A value whose operators are known and whose slices lie within what they are taken from. -/
def Value.Regular (v : Value) : Prop := ∃ ss, v.BuiltOn ss

/-- A statement as designs consist of. What a selection tests is a signal whose tag is not less than
`bound`, and its literals are as wide as the signal. -/
def Stmt.Regular (bound : Nat) : Stmt → Prop
  | .assign t v => 1 ≤ t.bits ∧ v.Regular
  | .branch test _ _ => test.Regular
  | .select test arms _ =>
    ∃ x, test = .signal x ∧ bound ≤ x.tag ∧ ∀ arm ∈ arms, arm.1.bits = x.bits
  | .hole | .marker _ => False

theorem Value.regular_signal (x : Signal) : (Value.signal x).Regular := ⟨[x], by simp [BuiltOn]⟩

theorem Value.regular_ofLiteral (l : Literal) : (Value.ofLiteral l).Regular := ⟨[], trivial⟩

theorem Stmt.Regular.mono {s : Stmt} {bound bound' : Nat} (hle : bound' ≤ bound)
    (h : s.Regular bound) : s.Regular bound' := by
  cases s with
  | hole | marker => exact h
  | assign | branch => exact h
  | select test arms other =>
    obtain ⟨x, htest, hx, harms⟩ := h
    exact ⟨x, htest, Nat.le_trans hle hx, harms⟩

theorem firstMarker?_eq_none {ss : List Stmt} {bound : Nat} (h : ∀ s ∈ walk ss, s.Regular bound) :
    firstMarker? ss = none := by
  rw [firstMarker?, findSome?_eq_none_iff]
  intro s hs
  cases s with
  | marker m => exact (h _ hs).elim
  | hole | assign | branch | select => rfl

theorem mem_walk_map {α : Type} {f : α → Stmt} {l : List α} {s : Stmt} :
    s ∈ walk (l.map f) ↔ ∃ a ∈ l, s ∈ (f a).walk := by
  induction l with
  | nil => simp [walk]
  | cons a l ih => simp [walk, ih]

end Circuit

namespace Lowering

/-- A statement that a duty brings along, other than transitions and loads. -/
inductive Duty.Holds : Duty → Stmt → Prop
  | strobe {c : Channel} {data : Value} {tag : Nat} :
      Holds (.act (.send c data tag)) (.assign c.stb Resource.high)
  | data {c : Channel} {data : Value} {tag : Nat} :
      Holds (.act (.send c data tag)) (.assign c.data data)
  | wait {c : Channel} {data : Value} {tag : Nat} {yes : List Stmt} {no : Option (List Stmt)} :
      Holds (.act (.send c data tag)) (.branch (waiting c tag) yes no)
  | ready {c : Channel} {id : RegisterId} {source : SourceId} :
      Holds (.act (.receive c id source)) (.assign c.ack Resource.high)
  | arrival {c : Channel} {id : RegisterId} {source : SourceId} {yes : List Stmt}
      {no : Option (List Stmt)} :
      Holds (.act (.receive c id source)) (.branch (.signal c.stb) yes no)
  | test {v : Value} {l : StateId} {o : Option StateId} {yes : List Stmt}
      {no : Option (List Stmt)} : Holds (.guard v l o) (.branch v yes no)

/-- The statements of a state: transitions, the loads of its duty, and what the duty brings along.
-/
theorem Node.mem_walk_body {n : Node} {jump : StateId → Stmt} {load : RegisterId → SourceId → Stmt}
    {s : Stmt} (hs : s ∈ walk (n.body jump load)) :
    (∃ l, s ∈ (jump l).walk) ∨ (∃ l ∈ n.duty.loads, s ∈ (load l.1 l.2).walk) ∨ n.duty.Holds s := by
  obtain ⟨label, next, duty⟩ := n
  rw [Node.body, walk_append, mem_append, mem_walk_map] at hs
  obtain ⟨l, -, hs⟩ | hs := hs
  · exact .inl ⟨l, hs⟩
  cases duty with
  | store loads =>
    obtain ⟨l, hl, hs⟩ := mem_walk_map.mp hs
    exact .inr (.inl ⟨l, hl, hs⟩)
  | send c data tag =>
    simp only [Duty.body, Act.body, walk, Stmt.walk, walkOption, append_nil,
      cons_append, nil_append, mem_cons] at hs
    obtain rfl | rfl | rfl | hs := hs
    · exact .inr (.inr .strobe)
    · exact .inr (.inr .data)
    · exact .inr (.inr .wait)
    · exact .inl ⟨_, hs⟩
  | receive c id source =>
    simp only [Duty.body, Act.body, walk, Stmt.walk, walkOption, append_nil,
      cons_append, nil_append, mem_cons, mem_append] at hs
    obtain rfl | rfl | hs | hs := hs
    · exact .inr (.inr .ready)
    · exact .inr (.inr .arrival)
    · exact .inr (.inl ⟨(id, source), by simp [Duty.loads], hs⟩)
    · exact .inl ⟨_, hs⟩
  | guard test yes no =>
    simp only [Duty.body, walk, Stmt.walk, append_nil, mem_cons, mem_append] at hs
    obtain rfl | hs | hs := hs
    · exact .inr (.inr .test)
    · exact .inl ⟨_, hs⟩
    · cases no with
      | none => simp [walkOption] at hs
      | some l =>
        simp only [Option.map_some, walkOption, walk, append_nil] at hs
        exact .inl ⟨_, hs⟩

end Lowering

namespace Design.Realizes

variable {d : Design} {rs : List Resource} {base : Nat} {p : Plan} {w : Workshop}

variable {r : Register} {v : Value} {x : Signal}

theorem selector_regular (h : d.Realizes rs base p w) {id : Nat}
    (hr : w.bank.registers[id]? = some r) :
    1 ≤ (d.bank.selector id).bits ∧ w.supply ≤ (d.bank.selector id).tag := by
  rw [h.selector_eq hr]
  exact ⟨Int.le_max_right _ _, Nat.le_add_right _ _⟩

theorem state_regular (h : d.Realizes rs base p w) :
    1 ≤ d.machine.state.bits ∧ 1 ≤ d.machine.next.bits ∧ w.supply ≤ d.machine.state.tag := by
  rw [h.machine]
  exact ⟨Int.le_max_right _ _, Int.le_max_right _ _, Nat.le_add_right _ _⟩

theorem regular_body (h : d.Realizes rs base p w) (hw : Wired rs base) {n : Node}
    (hn : n.duty.Sound rs w) :
    ∀ s ∈ walk (n.body d.machine.jumpStmt d.bank.loadStmt), s.Regular w.supply := by
  have hport : ∀ {dir x}, x ∈ portSignals rs dir → 1 ≤ x.bits := fun hx =>
    (hw.plain _ (mem_portSignals.mp hx)).1
  intro s hs
  obtain ⟨l, hs⟩ | ⟨l, hl, hs⟩ | hholds := Node.mem_walk_body hs
  · obtain rfl := mem_singleton.mp hs
    exact ⟨h.state_regular.2.1, Value.regular_ofLiteral _⟩
  · obtain rfl := mem_singleton.mp hs
    obtain ⟨v, r, hr, -⟩ := hn.recorded l hl
    exact ⟨(h.selector_regular hr).1, Value.regular_ofLiteral _⟩
  · obtain ⟨label, next, duty⟩ := n
    cases hholds with
    | strobe => exact ⟨hport (sink_mem hn.1).2.1, Value.regular_ofLiteral _⟩
    | data => exact ⟨hport (sink_mem hn.1).1, _, hn.2⟩
    | @wait c => exact ⟨[c.ack], by simp, by simp [Value.BuiltOn], trivial⟩
    | ready => exact ⟨hport (source_mem hn.1).2.2, Value.regular_ofLiteral _⟩
    | arrival => exact Value.regular_signal _
    | test => exact ⟨_, hn⟩

theorem bits_sized {value : Int64} {width : Int} (h : 1 ≤ width) :
    (Literal.sized value width).bits = width := Int.max_eq_left h

theorem mem_armsFrom {m : Machine} {b : Bank} {i : Nat} {nodes : List Node}
    {arm : Literal × List Stmt} (h : arm ∈ armsFrom m b i nodes) :
    (∃ k, arm.1 = m.code k) ∧ ∃ n ∈ nodes, arm.2 = n.body m.jumpStmt b.loadStmt := by
  induction nodes generalizing i with
  | nil => simp [armsFrom] at h
  | cons n nodes ih =>
    rw [armsFrom, mem_cons] at h
    obtain rfl | h := h
    · exact ⟨⟨i, rfl⟩, n, mem_cons_self, rfl⟩
    · obtain ⟨hcode, n', hn', hbody⟩ := ih h
      exact ⟨hcode, n', mem_cons_of_mem _ hn', hbody⟩

variable (h : d.Realizes rs base p w)

include h

/-- All combinational statements are regular. -/
theorem regular_comb (hw : Wired rs base) : ∀ s ∈ walk d.fragment.comb, s.Regular w.supply := by
  obtain ⟨hstate, hnext, htag⟩ := h.state_regular
  intro s hs
  rw [h.comb_eq, machineLogic] at hs
  split at hs
  · simp [empty, walk] at hs
  · simp only [walk, Stmt.walk, walkOption, append_nil, cons_append, nil_append,
      mem_cons, mem_walkArms] at hs
    obtain rfl | rfl | ⟨arm, harm, hs⟩ := hs
    · exact ⟨hnext, Value.regular_signal _⟩
    · refine ⟨_, rfl, htag, fun arm harm => ?_⟩
      obtain ⟨k, hk⟩ := (mem_armsFrom harm).1
      rw [hk]
      exact bits_sized hstate
    · obtain ⟨n, hn, hbody⟩ := (mem_armsFrom harm).2
      rw [hbody] at hs
      exact h.regular_body hw (h.sound.of_mem_nodes hn) s hs

theorem sourceValues_mem (hr : r ∈ d.registers) (hv : v ∈ d.bank.sourceValues r) :
    v ∈ w.bank.pool.values := by
  obtain ⟨i, r', hr', rfl⟩ := h.mem_registers.mp hr
  obtain ⟨k, hk⟩ := mem_iff_getElem?.mp hv
  rw [h.getElem?_sourceValues hr'] at hk
  obtain ⟨s, -, hs⟩ := Option.bind_eq_some_iff.mp hk
  unfold Pool.value? at hs
  split at hs
  · cases hs
  · exact mem_of_getElem? hs

theorem regular_sourceValues (hr : r ∈ d.registers) (hv : v ∈ d.bank.sourceValues r) :
    v.Regular := by
  obtain hbuilt | ⟨c, -, rfl⟩ := h.tidy.values v (h.sourceValues_mem hr hv)
  · exact ⟨_, hbuilt⟩
  · exact Value.regular_signal _

/-- The statements at the clock edge: the load logic of each register, the assignments in it, and
the step to the next state. -/
theorem mem_walk_sync {s : Stmt} (hs : s ∈ walk d.fragment.sync) :
    (∃ r ∈ d.registers, s = d.bank.loadLogic r ∨
      ∃ v ∈ d.bank.sourceValues r, s = .assign r.storage v) ∨
      (p.nodes none ≠ [] ∧ s = .assign d.machine.state (.signal d.machine.next)) := by
  rw [h.sync_eq, walk_append, mem_append, mem_walk_map] at hs
  obtain ⟨r, hr, hs⟩ | hs := hs
  · simp only [Bank.loadLogic, Stmt.walk, walkOption, append_nil, mem_cons, mem_walkArms] at hs
    obtain rfl | ⟨arm, harm, hs⟩ := hs
    · exact .inl ⟨r, hr, .inl rfl⟩
    · obtain ⟨k, hk, rfl⟩ := mem_mapIdx.mp harm
      simp only [walk, Stmt.walk, append_nil, mem_singleton] at hs
      exact .inl ⟨r, hr, .inr ⟨_, getElem_mem hk, hs⟩⟩
  · rw [machineLogic] at hs
    split at hs
    · simp [empty, walk] at hs
    · rename_i hnodes
      simp only [walk, Stmt.walk, append_nil, mem_singleton] at hs
      exact .inr ⟨by simpa using hnodes, hs⟩

theorem selector_of_mem {i : Nat} (hr : w.bank.registers[i]? = some r) :
    (r.withSelector (w.supply + i)).selector.getD default = d.bank.selector i := by
  rw [h.selector_eq hr]
  rfl

/-- All statements at clock edges are regular. -/
theorem regular_sync : ∀ s ∈ walk d.fragment.sync, s.Regular w.supply := by
  intro s hs
  obtain ⟨r, hr, rfl | ⟨v, hv, rfl⟩⟩ | ⟨-, rfl⟩ := h.mem_walk_sync hs
  · obtain ⟨i, r', hr', rfl⟩ := h.mem_registers.mp hr
    obtain ⟨hbits, htag⟩ := h.selector_regular hr'
    rw [Bank.loadLogic, h.selector_of_mem hr']
    refine ⟨_, rfl, htag, fun arm harm => ?_⟩
    obtain ⟨k, hk, rfl⟩ := mem_mapIdx.mp harm
    exact bits_sized hbits
  · obtain ⟨i, r', hr', rfl⟩ := h.mem_registers.mp hr
    exact ⟨(h.tidy.plain _ (mem_of_getElem? hr')).1, h.regular_sourceValues hr hv⟩
  · exact ⟨h.state_regular.1, Value.regular_signal _⟩

/-- **No marker is left in a design.** -/
theorem noMarker (hw : Wired rs base) : d.fragment.firstMarker? = none := by
  rw [Fragment.firstMarker?, firstMarker?_eq_none (h.regular_comb hw),
    firstMarker?_eq_none h.regular_sync]
  rfl

theorem sourceValues_reads (hr : r ∈ d.registers) (hv : v ∈ d.bank.sourceValues r)
    (hx : x ∈ v.reads) : x ∈ w.storages ∨ x ∈ portSignals rs .input := by
  obtain hbuilt | ⟨c, hc, rfl⟩ := h.tidy.values v (h.sourceValues_mem hr hv)
  · exact .inl (hbuilt.reads_subset hx)
  · obtain rfl := mem_singleton.mp hx
    exact .inr (source_mem hc).1

/-- What is read at clock edges: registers, input ports, selectors and the next state. -/
theorem sync_reads (hx : x ∈ reads d.fragment.sync) :
    x ∈ w.storages ∨ x ∈ portSignals rs .input ∨ 1 ≤ x.bits ∧ w.supply ≤ x.tag := by
  obtain ⟨s, hs, hx⟩ := mem_reads.mp hx
  obtain ⟨r, hr, rfl | ⟨v, hv, rfl⟩⟩ | ⟨-, rfl⟩ := h.mem_walk_sync hs
  · obtain ⟨i, r', hr', rfl⟩ := h.mem_registers.mp hr
    rw [Bank.loadLogic, h.selector_of_mem hr', Stmt.ownReads] at hx
    obtain rfl := mem_singleton.mp hx
    exact .inr (.inr (h.selector_regular hr'))
  · exact (h.sourceValues_reads hr hv hx).imp_right .inl
  · obtain rfl := mem_singleton.mp hx
    have := h.next_tag
    exact .inr (.inr ⟨h.state_regular.2.1, by omega⟩)

/-- What is read at all. -/
theorem reads_cases (hx : x ∈ reads d.fragment.comb ∨ x ∈ reads d.fragment.sync) :
    x ∈ w.storages ∨ x ∈ portSignals rs .input ∨ 1 ≤ x.bits ∧ w.supply ≤ x.tag := by
  refine hx.elim (fun hx => ?_) h.sync_reads
  obtain rfl | hst | hin := h.comb_reads hx
  · exact .inr (.inr ⟨h.state_regular.1, h.state_regular.2.2⟩)
  · exact .inl hst
  · exact .inr (.inl hin)

variable (hw : Wired rs base) (hx : x ∈ reads d.fragment.comb ∨ x ∈ reads d.fragment.sync)

include hw hx

theorem one_le_bits : 1 ≤ x.bits := by
  obtain hst | hin | hbits := h.reads_cases hx
  · obtain ⟨r, hr, rfl⟩ := mem_map.mp hst
    exact (h.tidy.plain r hr).1
  · exact (hw.plain _ (mem_portSignals.mp hin)).1
  · exact hbits.1

/-- Output ports are not read. -/
theorem output_unread : x ∉ portSignals rs .output := by
  intro hout
  have hlt := hw.tag_lt hout
  have hle := h.tidy.base_le
  obtain hst | hin | ⟨-, htag⟩ := h.reads_cases hx
  · have := h.tidy.storage_tag hst
    omega
  · exact hw.not_input_of_output hout hin
  · omega

end Design.Realizes

end Sequencer
