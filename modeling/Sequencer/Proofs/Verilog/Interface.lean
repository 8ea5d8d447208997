import Sequencer.Proofs.Project.Resources
import Sequencer.Proofs.Verilog.Writing

/-!
# The interface of a module

A module has the ports that were declared for its fragment. A signal that is used but that nothing
drives becomes an input as well: in a design, the storage of a register that is read but never
loaded.
-/

namespace Sequencer.Verilog

open List
open Circuit Simulation
open Port (signal)

/-! ### The ports of a module -/

section Ports

variable {ports : List Port} {f : Fragment}

def portDecl (n : Names) (f : Fragment) (p : Port) : PortDecl :=
  ⟨p.direction, Driven f p.signal, p.signal.bits, n.signalName p.signal⟩

/-- The input of a module that a signal becomes. -/
def inputDecl (n : Names) (x : Signal) : PortDecl := ⟨.input, false, x.bits, n.signalName x⟩

theorem portOf?_of_port (hports : (ports.map signal).Nodup) {net : Net}
    (h : net ∈ (Names.ofFragment ports f).nets) (hfault : netFault? net = none) {p : Port}
    (hp : p ∈ ports) (hsignal : net.signal = p.signal) :
    portOf? net = some (portDecl (Names.ofFragment ports f) f p) := by
  obtain ⟨-, -, hport⟩ := role_of_mem h
  have hdriven := driven_of_mem h
  rw [hsignal] at hdriven
  rw [hsignal, direction?_of_mem hports hp] at hport
  rw [portDecl, ← hsignal, signalName_of_mem h, hsignal, ← hdriven]
  cases hdir : p.direction with
  | output => simp [portOf?, Net.isInput, hport, hdir, hsignal]
  | input =>
    have hfree : net.driven = false := by
      simp only [netFault?, hport, hdir, decide_true, Bool.true_and] at hfault
      split at hfault
      · cases hfault
      · split at hfault
        · cases hfault
        · rename_i hnot
          exact Bool.not_eq_true _ ▸ hnot
    simp [portOf?, Net.isInput, hport, hdir, hsignal, hfree]

theorem portOf?_of_not_port {net : Net} (h : net ∈ (Names.ofFragment ports f).nets)
    (hsignal : net.signal ∉ ports.map signal) :
    portOf? net = if Driven f net.signal then none
      else some (inputDecl (Names.ofFragment ports f) net.signal) := by
  obtain ⟨-, -, hport⟩ := role_of_mem h
  have hnone : Names.direction? ports net.signal = none := by
    simpa [Names.direction?] using hsignal
  have hdriven := driven_of_mem h
  rw [inputDecl, signalName_of_mem h]
  by_cases hd : Driven f net.signal <;>
    simp [portOf?, Net.isInput, hport, hnone, hdriven, hd]

/-- **The ports of a module** are those that were declared, in order, and then an input for each
signal that is used but that nothing drives. -/
theorem ports_ofFragment {name digest : String} {m : Module}
    (hports : (ports.map signal).Nodup) (h : ofFragment name digest ports f = .ok m) :
    ∃ strays : List Signal, strays.Nodup ∧
      (∀ x, x ∈ strays ↔ x ∉ ports.map signal ∧
        (x ∈ mentioned f.comb ∨ x ∈ mentioned f.sync) ∧ ¬ Driven f x) ∧
      m.ports = ports.map (portDecl (Names.ofFragment ports f) f) ++
        strays.map (inputDecl (Names.ofFragment ports f)) := by
  obtain ⟨-, -, hfault, -, hm⟩ := ofFragment_eq_ok.mp h
  rw [findSome?_eq_none_iff] at hfault
  obtain ⟨rest, hrest⟩ := prefix_signals_ofFragment hports f
  have hnodup : (ports.map signal ++ rest).Nodup :=
    hrest ▸ (distinct_ofFragment ports f).signals
  obtain ⟨front, back, hnets, hfront, hback⟩ := map_eq_append_iff.mp hrest.symm
  have hmem : ∀ x, x ∈ rest ↔ x ∉ ports.map signal ∧
      (x ∈ mentioned f.comb ∨ x ∈ mentioned f.sync) := by
    intro x
    have hx := @mem_signals f ports x
    rw [← hrest, mem_append] at hx
    obtain ⟨-, -, hdisjoint⟩ := nodup_append'.mp hnodup
    constructor
    · intro hxrest
      have hnot : x ∉ ports.map signal := fun hp => hdisjoint hp hxrest
      exact ⟨hnot, (hx.mp (.inr hxrest)).resolve_left hnot⟩
    · rintro ⟨hnot, hmention⟩
      exact (hx.mpr (.inr hmention)).resolve_left hnot
  have hdeclared : ∀ (ps : List Port) (nets : List Net), nets.map Net.signal = ps.map signal →
      ps ⊆ ports → nets ⊆ (Names.ofFragment ports f).nets →
        nets.filterMap portOf? = ps.map (portDecl (Names.ofFragment ports f) f) := by
    intro ps
    induction ps with
    | nil =>
      intro nets hsignals _ _
      rw [map_eq_nil_iff.mp hsignals]
      rfl
    | cons p ps ih =>
      intro nets hsignals hps hsub
      obtain ⟨net, nets', rfl, hnet, htail⟩ := map_eq_cons_iff.mp hsignals
      have hin := hsub mem_cons_self
      rw [filterMap_cons_some
        (portOf?_of_port hports hin (hfault net hin) (hps mem_cons_self) hnet),
        ih nets' htail (subset_of_cons_subset hps) (subset_of_cons_subset hsub), map_cons]
  have hstrays : back.filterMap portOf? =
      (rest.filter fun x => ¬ Driven f x).map (inputDecl (Names.ofFragment ports f)) := by
    have hsub : back ⊆ (Names.ofFragment ports f).nets := by simp [hnets]
    have hnot : ∀ net ∈ back, net.signal ∉ ports.map signal := fun net hnet =>
      ((hmem _).mp (hback ▸ mem_map_of_mem hnet)).1
    rw [← hback, filter_map, map_map, ← filterMap_eq_map, filterMap_filter]
    refine filterMap_congr fun net hnet => ?_
    rw [portOf?_of_not_port (hsub hnet) (hnot net hnet)]
    by_cases hd : Driven f net.signal <;> simp [hd]
  have hfilter := (nodup_append'.mp hnodup).2.1.filter fun x => ¬ Driven f x
  refine ⟨rest.filter fun x => ¬ Driven f x, hfilter, fun x => ?_, ?_⟩
  · rw [mem_filter, hmem, and_assoc]
    simp
  · rw [(written_of_moduleOf hm).ports, hnets, filterMap_append, hstrays]
    rw [hdeclared ports front hfront (Subset.refl _) (by simp [hnets])]

end Ports

theorem mem_targets_or_reads {ss : List Circuit.Stmt} {x : Signal} (h : x ∈ mentioned ss) :
    x ∈ targets ss ∨ x ∈ reads ss := by
  obtain ⟨s, hs, hx⟩ := mem_flatMap.mp h
  have hread : ∀ y ∈ (values s).flatMap Value.reads, y ∈ s.ownReads := by
    cases s with
    | hole | marker => simp [values]
    | assign | branch => simp [values, Stmt.ownReads]
    | select test arms other =>
      simp only [values, Stmt.ownReads]
      split <;> simp
  obtain hx | hx := mem_append.mp hx
  · exact .inl (mem_filterMap_target.mp (mem_filterMap.mpr ⟨s, hs, by simpa using hx⟩))
  · exact .inr (mem_reads.mpr ⟨s, hs, hread x hx⟩)

theorem mem_mentioned_of_reads {ss : List Circuit.Stmt} {bound : Nat}
    (hregular : ∀ s ∈ walk ss, s.Regular bound) {x : Signal} (hx : x ∈ reads ss)
    (hbound : x.tag < bound) : x ∈ mentioned ss := by
  obtain ⟨s, hs, hx⟩ := mem_reads.mp hx
  refine mem_flatMap.mpr ⟨s, hs, mem_append.mpr (.inr ?_)⟩
  cases s with
  | hole | marker => simp [Stmt.ownReads] at hx
  | assign | branch => simpa [values, Stmt.ownReads] using hx
  | select test arms other =>
    obtain ⟨y, rfl, hy, -⟩ := hregular _ hs
    obtain rfl : x = y := by simpa [Stmt.ownReads, Value.reads] using hx
    omega

end Sequencer.Verilog

namespace Sequencer.Design.Realizes

open List
open Circuit Lowering Verilog

variable {d : Design} {rs : List Resource} {base : Nat} {p : Plan} {w : Workshop}
  (h : d.Realizes rs base p w)

include h

theorem selector_driven {id : Nat} {r : Register} (hr : w.bank.registers[id]? = some r)
    (hs : r.sources ≠ []) : d.bank.selector id ∈ targets d.fragment.comb := by
  obtain ⟨s, hs⟩ := exists_mem_of_ne_nil _ hs
  have hload := h.complete id r hr s hs
  rw [Plan.loads, ← p.map_duty_nodes none] at hload
  obtain ⟨n, hn, hl⟩ := mem_flatMap.mp (flatMap_map .. ▸ hload)
  exact h.mem_targets_comb.mpr ⟨ne_nil_of_mem hn, .inr ⟨n, hn, .inl ⟨_, hl, rfl⟩⟩⟩

theorem sync_mentioned {x : Signal} (hx : x ∈ mentioned d.fragment.sync) :
    Driven d.fragment x ∨ x ∈ w.storages ∨ x ∈ portSignals rs .input := by
  obtain ⟨s, hs, hx⟩ := mem_flatMap.mp hx
  obtain ⟨r, hr, rfl | ⟨v, hv, rfl⟩⟩ | ⟨hne, rfl⟩ := h.mem_walk_sync hs
  · -- The test is written only if the register has sources.
    obtain ⟨i, r', hr', rfl⟩ := h.mem_registers.mp hr
    rw [Bank.loadLogic, h.selector_of_mem hr'] at hx
    simp only [mentions, target?, values, Option.toList_none, nil_append] at hx
    split at hx
    · simp at hx
    · rename_i harms
      have hsources : r'.sources ≠ [] := by
        rw [← h.sourceValues_ne_nil hr' (w.supply + i)]
        rintro hnil
        simp [hnil] at harms
      obtain rfl : x = d.bank.selector i := by simpa [Value.reads] using hx
      exact .inl (.inl (h.selector_driven hr' hsources))
  · simp only [mentions, target?, values, Option.toList_some, flatMap_cons,
      flatMap_nil, append_nil, singleton_append, mem_cons] at hx
    obtain rfl | hx := hx
    · rw [← h.map_storage_registers]
      exact .inr (.inl (mem_map_of_mem hr))
    · exact .inr (h.sourceValues_reads hr hv hx)
  · obtain rfl | rfl : x = d.machine.state ∨ x = d.machine.next := by
      simpa [mentions, target?, values, Value.reads] using hx
    · exact .inl (.inr (h.mem_targets_sync.mpr (.inr ⟨hne, rfl⟩)))
    · exact .inl (.inl (h.mem_targets_comb.mpr ⟨hne, .inl rfl⟩))

theorem comb_mentioned {x : Signal} (hx : x ∈ mentioned d.fragment.comb) :
    Driven d.fragment x ∨ x ∈ w.storages ∨ x ∈ portSignals rs .input := by
  obtain hx | hx := mem_targets_or_reads hx
  · exact .inl (.inl hx)
  · obtain ⟨hne, rfl | ⟨n, hn, hx⟩⟩ := h.mem_reads_comb.mp hx
    · exact .inl (.inr (h.mem_targets_sync.mpr (.inr ⟨hne, rfl⟩)))
    · exact .inr ((h.sound.of_mem_nodes hn).mem_reads hx)

theorem storage_driven (hw : Wired rs base) {r : Register} (hr : r ∈ w.bank.registers) :
    Driven d.fragment r.storage ↔ r.sources ≠ [] := by
  have hcomb := h.storage_not_comb hw (mem_map_of_mem hr)
  simp only [Driven, hcomb, false_or, h.mem_targets_sync]
  constructor
  · rintro (⟨r', hr', hsources, heq⟩ | ⟨-, heq⟩)
    · have hmap : (w.bank.registers.map fun r => r.storage.tag).Nodup := by
        simpa [Workshop.storages, Function.comp_def] using h.tidy.distinct
      obtain rfl := inj_on_of_nodup_map hmap hr hr' (by rw [heq])
      exact hsources
    · have htag := (h.tidy.fresh r hr).2
      rw [heq, h.state_tag] at htag
      omega
  · exact fun hsources => .inl ⟨r, hr, hsources, rfl⟩

end Sequencer.Design.Realizes

namespace Sequencer

open List
open Circuit Lowering Verilog

/-- A register that is read somewhere but never loaded. -/
def Design.Unfed (d : Design) (r : Register) : Prop :=
  r.sources = [] ∧ (r.storage ∈ reads d.fragment.comb ∨ r.storage ∈ reads d.fragment.sync)

instance (d : Design) : DecidablePred d.Unfed := fun _ => inferInstanceAs (Decidable (_ ∧ _))

/-- The registers without a driver are what a module takes for inputs besides its ports. -/
theorem Design.Realizes.mem_strays {d : Design} {rs : List Resource} {base : Nat} {p : Plan}
    {w : Workshop} (h : d.Realizes rs base p w) (hw : Wired rs base) (x : Signal) :
    (x ∉ d.ports.map Port.signal ∧
      (x ∈ mentioned d.fragment.comb ∨ x ∈ mentioned d.fragment.sync) ∧ ¬ Driven d.fragment x) ↔
        x ∈ (d.registers.filter d.Unfed).map Register.storage := by
  have hports : d.ports = rs.flatMap Resource.ports := by rw [ports, h.resources]
  simp only [mem_map, mem_filter, decide_eq_true_eq, hports]
  constructor
  · rintro ⟨hport, hmentioned, hfree⟩
    have hplace : x ∈ w.storages := by
      have hcases := hmentioned.elim h.comb_mentioned h.sync_mentioned
      obtain hst | hin := hcases.resolve_left hfree
      · exact hst
      · exact absurd ⟨_, mem_portSignals.mp hin, rfl⟩ hport
    obtain ⟨r, hr, rfl⟩ := mem_map.mp hplace
    obtain ⟨i, hi⟩ := mem_iff_getElem?.mp hr
    refine ⟨r.withSelector (w.supply + i), ⟨h.mem_registers.mpr ⟨i, r, hi, rfl⟩, ?_, ?_⟩, rfl⟩
    · exact not_not.mp (mt (h.storage_driven hw hr).mpr hfree)
    · exact hmentioned.imp
        (fun hm => (mem_targets_or_reads hm).resolve_left fun ht => hfree (.inl ht))
        (fun hm => (mem_targets_or_reads hm).resolve_left fun ht => hfree (.inr ht))
  · rintro ⟨r', ⟨hr', hsources, hread⟩, rfl⟩
    obtain ⟨i, r, hr, rfl⟩ := h.mem_registers.mp hr'
    have hmem := mem_of_getElem? hr
    have htag := h.tidy.fresh r hmem
    refine ⟨?_, ?_, ?_⟩
    · rintro ⟨q, hq, heq⟩
      have hlt := hw.below q hq
      rw [heq] at hlt
      exact absurd htag.1 (Nat.not_le.mpr hlt)
    · exact hread.imp (fun hx => mem_mentioned_of_reads (h.regular_comb hw) hx htag.2)
        (fun hx => mem_mentioned_of_reads h.regular_sync hx htag.2)
    · exact mt (h.storage_driven hw hmem).mp (not_not.mpr hsources)

/-- The ports of a module as its text declares them, the clock and the reset first. -/
def Verilog.Module.interface (m : Module) : List PortDecl :=
  ⟨.input, false, 1, clockName⟩ :: ⟨.input, false, 1, resetName⟩ :: m.ports

theorem Verilog.portLines_eq (m : Module) :
    portLines m.ports = ",\n".intercalate (m.interface.map fun p => "\t" ++ p.text) ++ "\n" := by
  simp only [portLines, Module.interface, map_cons, map_map]
  rfl

theorem Verilog.nodup_interface {name digest : String} {ports : List Port} {f : Fragment}
    {m : Module} (h : ofFragment name digest ports f = .ok m) :
    (m.interface.map PortDecl.ident).Nodup := by
  have hsub : ∀ nets : List Net,
      ((nets.filterMap portOf?).map PortDecl.ident).Sublist (nets.map Net.ident) := by
    intro nets
    induction nets with
    | nil => exact .slnil
    | cons net nets ih =>
      cases hp : portOf? net with
      | none =>
        rw [filterMap_cons_none hp]
        exact ih.cons _
      | some p =>
        rw [filterMap_cons_some hp, map_cons, map_cons, (width_portOf? hp).1]
        exact ih.cons_cons _
  obtain ⟨-, -, -, -, hm⟩ := ofFragment_eq_ok.mp h
  refine (distinct_ofFragment ports f).idents.sublist ?_
  rw [Module.interface, (written_of_moduleOf hm).ports]
  exact (((hsub _).trans (sublist_append_left _ _)).cons_cons _).cons_cons _

def Design.names (d : Design) : Names := .ofFragment d.ports d.fragment

/-- The interface that a design declares: the clock, the reset and the ports of its resources. -/
def Design.interface (d : Design) : List PortDecl :=
  ⟨.input, false, 1, clockName⟩ :: ⟨.input, false, 1, resetName⟩ ::
    d.ports.map (portDecl d.names d.fragment)

/-- **The interface of a module** is the declared one, and an input for each register that is read
but never loaded. -/
theorem interface_eq_declared_iff (s : Project.Settings) (text : List Char) (d : Design)
    (h : (Command.compileText s text).result = .ok d) (name digest : String) :
    (Sized d.fragment → ∃ m, ofFragment name digest d.ports d.fragment = .ok m) ∧
    ∀ m, ofFragment name digest d.ports d.fragment = .ok m →
      (∃ strays : List Signal, strays.Perm ((d.registers.filter d.Unfed).map Register.storage) ∧
        m.interface = d.interface ++ strays.map (inputDecl d.names)) ∧
      (m.interface = d.interface ↔ ∀ r ∈ d.registers, ¬ d.Unfed r) ∧
      (m.interface.map PortDecl.ident).Nodup ∧
      portLines m.ports = ",\n".intercalate (m.interface.map fun p => "\t" ++ p.text) ++ "\n" := by
  obtain ⟨p, w, hrealizes⟩ := Project.realizes_of_compileText h
  have hw := Project.wired_options s firstTag
  refine ⟨fun hsized => (hrealizes.proper hw hsized).exists_module name digest, fun m hm => ?_⟩
  have hports : (d.ports.map Port.signal).Nodup := by
    rw [Design.ports, hrealizes.resources]
    exact hw.signals_nodup
  have hstorages : ((d.registers.filter d.Unfed).map Register.storage).Nodup := by
    have hall : (d.registers.map Register.storage).Nodup :=
      hrealizes.map_storage_registers ▸ hrealizes.tidy.distinct.of_map
    exact hall.sublist (filter_sublist.map _)
  obtain ⟨strays, hnodup, hmem, heq⟩ := ports_ofFragment hports hm
  have hperm : strays.Perm ((d.registers.filter d.Unfed).map Register.storage) :=
    (perm_ext_iff_of_nodup hnodup hstorages).mpr fun x =>
      (hmem x).trans (hrealizes.mem_strays hw x)
  have hinterface : m.interface = d.interface ++ strays.map (inputDecl d.names) := by
    rw [Module.interface, heq]
    rfl
  refine ⟨⟨strays, hperm, hinterface⟩, ?_, nodup_interface hm, portLines_eq m⟩
  rw [hinterface, append_right_eq_self, map_eq_nil_iff, ← length_eq_zero_iff,
    hperm.length_eq, length_eq_zero_iff, map_eq_nil_iff, filter_eq_nil_iff]
  simp only [decide_eq_true_eq]

/-- The relay loads its register, so its module has the declared interface. -/
theorem relay_interface : ∃ d m,
    (Command.compileText Project.relaySettings Project.relayText).result = .ok d ∧
      ofFragment d.name "" d.ports d.fragment = .ok m ∧ m.interface = d.interface := by
  obtain ⟨d, hd, hsized, hfed⟩ :
      ∃ d, (Command.compileText Project.relaySettings Project.relayText).result = .ok d ∧
        Sized d.fragment ∧ ∀ r ∈ d.registers, ¬ d.Unfed r := by
    decide +kernel
  obtain ⟨hexists, hports⟩ := interface_eq_declared_iff _ _ d hd d.name ""
  obtain ⟨m, hm⟩ := hexists hsized
  exact ⟨d, m, hd, hm, (hports m hm).2.1.mpr hfed⟩

def copyText : List Char :=
  "def copy():\n    a = Register(8)\n    b = Register(8)\n    b.store = a\n".toList

/-- **A register that is never loaded becomes an input**, although the design declares no ports. -/
theorem copy_interface : ∃ d m, (Command.compileText .empty copyText).result = .ok d ∧
    ofFragment d.name "" d.ports d.fragment = .ok m ∧ d.ports = [] ∧
      m.ports = [⟨.input, false, 8, "a"⟩] ∧ m.interface ≠ d.interface := by
  simp only [exists_and_left]
  decide +kernel

end Sequencer
