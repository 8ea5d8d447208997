import Sequencer.Proofs.Design.Acceptance
import Sequencer.Proofs.Project.Validity
import Sequencer.Proofs.Verilog.Interface

/-!
# The ports of a project

In a module a name may be changed, if it is not legal or is taken. That never happens to the ports
of a proper project: they get their names first, and their names are legal, different and not
reserved.
-/

namespace Sequencer.Verilog

open List
open Circuit

/-! ### Names that are kept -/

/-- A name that can stand in a module as it is. -/
structure Plain (name : String) : Prop where
  legal : legalName name = name
  keyword : name ∉ keywords

theorem freeName_of_notMem {used : List String} {name : String} (hkey : name ∉ keywords)
    (hfree : name ∉ used) : freeName used name = name := by
  have htaken : isTaken used name = false := by simp [isTaken, hkey, hfree]
  simp [freeName, htaken]

namespace Names

theorem addPort_new {n : Names} {p : Port} (hplain : Plain p.signal.name)
    (hnew : p.signal ∉ n.signals) (hfree : p.signal.name ∉ n.used) :
    (n.addPort p).labels = n.labels ++ [(p.signal, p.signal.name)] ∧
      (n.addPort p).used = p.signal.name :: n.used := by
  have hm : Marks fun net => { net with port := some p.direction } := fun _ => ⟨rfl, rfl⟩
  have hdeclare : n.declare p.signal = n.withNet p.signal p.signal.name := by
    rw [declare_eq, net?_eq_none.mpr hnew, hplain.legal, freeName_of_notMem hplain.keyword hfree]
    rfl
  refine ⟨?_, ?_⟩
  · rw [addPort, labels_update hm, hdeclare, labels_withNet]
  · rw [addPort, hdeclare]
    rfl

theorem labels_addPorts {n : Names} {ports : List Port}
    (hsignals : (n.signals ++ ports.map Port.signal).Nodup)
    (hplain : ∀ p ∈ ports, Plain p.signal.name) (hnames : (ports.map fun p => p.signal.name).Nodup)
    (hfree : ∀ p ∈ ports, p.signal.name ∉ n.used) :
    (ports.foldl addPort n).labels = n.labels ++ ports.map fun p => (p.signal, p.signal.name) := by
  induction ports generalizing n with
  | nil => simp
  | cons p ports ih =>
    have hnew : p.signal ∉ n.signals := fun hmem =>
      (nodup_append'.mp hsignals).2.2 hmem (by simp)
    obtain ⟨hlabels, hused⟩ := addPort_new (hplain p mem_cons_self) hnew
      (hfree p mem_cons_self)
    have hafter : (n.addPort p).signals = n.signals ++ [p.signal] := by
      rw [← map_fst_labels, hlabels, map_append, map_fst_labels]
      rfl
    rw [map_cons, nodup_cons] at hnames
    rw [foldl_cons, ih (by simpa [hafter] using hsignals)
      (fun q hq => hplain q (mem_cons_of_mem p hq)) hnames.2, hlabels]
    · simp
    · intro q hq
      rw [hused, mem_cons, not_or]
      exact ⟨fun heq => hnames.1 (heq ▸ mem_map_of_mem hq), hfree q (mem_cons_of_mem p hq)⟩

/-- Ports with plain names keep them. -/
theorem signalName_port {ports : List Port} (hsignals : (ports.map Port.signal).Nodup)
    (hplain : ∀ p ∈ ports, Plain p.signal.name) (hnames : (ports.map fun p => p.signal.name).Nodup)
    (hfree : ∀ p ∈ ports, p.signal.name ≠ clockName ∧ p.signal.name ≠ resetName) (f : Fragment)
    {p : Port} (hp : p ∈ ports) : (ofFragment ports f).signalName p.signal = p.signal.name := by
  have hlabels : (ports.foldl addPort start).labels =
      start.labels ++ ports.map fun p => (p.signal, p.signal.name) :=
    labels_addPorts (by simpa [signals, start] using hsignals) hplain hnames
      fun p hp => by simpa [start] using hfree p hp
  have hmem : (p.signal, p.signal.name) ∈ (ofFragment ports f).labels := by
    refine (prefix_labels_ofFragment ports f).subset ?_
    rw [hlabels]
    exact mem_append_right _ (mem_map.mpr ⟨p, hp, rfl⟩)
  obtain ⟨net, hnet, heq⟩ := mem_map.mp hmem
  obtain ⟨hsignal, hident⟩ := Prod.mk.inj heq
  rw [← hsignal, signalName_of_mem hnet, hident, hsignal]

end Names

end Sequencer.Verilog

namespace Sequencer.Project

open List
open Circuit Lowering Verilog

/-! ### The names of ports -/

/-- What stands behind the name of a resource in the names of its ports. -/
def portSuffixes : List String := ["_data", "_stb", "_ack"]

theorem plain_suffixed {name suffix : String} (h : GoodName name) (hs : suffix ∈ portSuffixes) :
    Plain (name ++ suffix) := by
  obtain ⟨c, cs, hname, hc, hcs⟩ := h.identifier
  have hsuffix : suffix.toList.all isNameChar = true ∧ '_' ∈ suffix.toList :=
    (by decide : ∀ s ∈ portSuffixes, s.toList.all isNameChar = true ∧ '_' ∈ s.toList) _ hs
  constructor
  · have hrest : (cs ++ suffix.toList).map (fun c => if isNameChar c then c else '_') =
        cs ++ suffix.toList := by
      refine (map_congr_left fun x hx => if_pos ?_).trans (map_id _)
      obtain hx | hx := mem_append.mp hx
      · exact isAlphanum_or_underscore.mpr (hcs x hx)
      · exact all_eq_true.mp hsuffix.1 x hx
    have hstart : isNameStart c = true := isAlpha_or_underscore.mpr hc
    have hsame : legalChars (name ++ suffix).toList = (name ++ suffix).toList := by
      rw [String.toList_append, hname, cons_append]
      exact congrArg₂ List.cons (if_pos hstart) hrest
    exact (congrArg String.ofList hsame).trans String.ofList_toList
  · -- No keyword has an underscore in it.
    intro hmem
    have hnone : ∀ k ∈ keywords, '_' ∉ k.toList := by decide
    refine hnone _ hmem ?_
    rw [String.toList_append]
    exact mem_append_right _ hsuffix.2

theorem suffixed_inj {a b s t : String} (hs : s ∈ portSuffixes) (ht : t ∈ portSuffixes)
    (h : a ++ s = b ++ t) : a = b ∧ s = t := by
  have hlast : s.toList.getLast? = t.toList.getLast? := by
    have hne : ∀ s ∈ portSuffixes, s.toList ≠ [] := by decide
    have hlists := congrArg (fun x => x.toList.getLast?) h
    simpa only [String.toList_append, getLast?_append_of_ne_nil _ (hne s hs),
      getLast?_append_of_ne_nil _ (hne t ht)] using hlists
  have heq : s = t := (by decide : ∀ s ∈ portSuffixes, ∀ t ∈ portSuffixes,
    s.toList.getLast? = t.toList.getLast? → s = t) s hs t ht hlast
  exact ⟨(String.append_left_inj t).mp (heq ▸ h), heq⟩

theorem suffixed_ne {name suffix : String} (hs : suffix ∈ portSuffixes) :
    name ++ suffix ≠ clockName ∧ name ++ suffix ≠ resetName := by
  have hneither : ∀ s ∈ portSuffixes,
      ¬ s.toList <:+ clockName.toList ∧ ¬ s.toList <:+ resetName.toList := by decide
  obtain ⟨hclock, hreset⟩ := hneither suffix hs
  have hend : suffix.toList <:+ (name ++ suffix).toList := by
    rw [String.toList_append]
    exact suffix_append _ _
  exact ⟨fun h => hclock (h ▸ hend), fun h => hreset (h ▸ hend)⟩

/-! ### The interface -/

/-- The direction, the width and the name of a port, in this order. -/
abbrev Head : Type := Direction × Int × String

def headOf (p : PortDecl) : Head := (p.direction, p.width, p.ident)

/-- The ports that an entry stands for: a sink sends its data and a source receives them. -/
def ResourceEntry.heads (e : ResourceEntry) : List Head :=
  if e.kind = "sink" then
    [(.output, e.width, e.name ++ "_data"), (.output, 1, e.name ++ "_stb"),
      (.input, 1, e.name ++ "_ack")]
  else
    [(.input, e.width, e.name ++ "_data"), (.input, 1, e.name ++ "_stb"),
      (.output, 1, e.name ++ "_ack")]

theorem ResourceEntry.names_heads (e : ResourceEntry) :
    e.heads.map (fun h => h.2.2) = portSuffixes.map (e.name ++ ·) := by
  unfold ResourceEntry.heads
  split <;> rfl

theorem ResourceEntry.Describes.heads_ports {e : ResourceEntry} {r : Resource} {c : Channel}
    (h : e.Describes r c) :
    r.ports.map (fun p => (p.direction, p.signal.bits, p.signal.name)) = e.heads := by
  obtain ⟨hdata, hwidth⟩ := h.data
  obtain ⟨hstb, hone⟩ := h.stb
  obtain ⟨hack, hone'⟩ := h.ack
  unfold ResourceEntry.heads
  obtain ⟨hkind, rfl⟩ | ⟨hkind, rfl⟩ := h.kind
  · simp [hkind, Resource.ports, hdata, hwidth, hstb, hone, hack, hone']
  · simp [hkind, Resource.ports, hdata, hwidth, hstb, hone, hack, hone']

section Proper

variable {s : Settings} (h : s.Proper)

include h

theorem heads_resources (n : Nat) :
    ((s.options n).1.resources.flatMap Resource.ports).map
      (fun p => (p.direction, p.signal.bits, p.signal.name)) =
        s.resources.flatMap ResourceEntry.heads := by
  have hall := describes_resources h n
  generalize s.resources = es at hall
  generalize (s.options n).1.resources = rs at hall
  induction hall with
  | nil => rfl
  | cons hd _ ih =>
    obtain ⟨c, hc⟩ := hd
    rw [flatMap_cons, flatMap_cons, map_append, hc.heads_ports, ih]

theorem names_ports (n : Nat) :
    ((s.options n).1.resources.flatMap Resource.ports).map (fun p => p.signal.name) =
      s.resources.flatMap fun e => portSuffixes.map (e.name ++ ·) := by
  have hheads := congrArg (List.map fun h : Head => h.2.2) (heads_resources h n)
  rw [map_map] at hheads
  exact hheads.trans (map_flatMap.trans (flatMap_congr fun e _ => e.names_heads))

theorem nodup_names_ports (n : Nat) :
    (((s.options n).1.resources.flatMap Resource.ports).map fun p => p.signal.name).Nodup := by
  rw [names_ports h, nodup_flatMap]
  have hnames := (nodup_append'.mp h.distinct).2.1
  refine ⟨fun e _ => Nodup.map_on (fun s hs t ht heq => (suffixed_inj hs ht heq).2) (by decide),
    (pairwise_map.mp hnames).imp fun hne x hx hy => ?_⟩
  obtain ⟨s, hs, rfl⟩ := mem_map.mp hx
  obtain ⟨t, ht, heq⟩ := mem_map.mp hy
  exact hne (suffixed_inj ht hs heq).1.symm

/-- **The ports of a proper project keep their names** in every module. -/
theorem signalName_resource (n : Nat) (f : Fragment) {p : Port}
    (hp : p ∈ (s.options n).1.resources.flatMap Resource.ports) :
    (Names.ofFragment ((s.options n).1.resources.flatMap Resource.ports) f).signalName p.signal =
      p.signal.name := by
  have hform : ∀ q ∈ (s.options n).1.resources.flatMap Resource.ports,
      ∃ e ∈ s.resources, ∃ suffix ∈ portSuffixes, e.name ++ suffix = q.signal.name := by
    intro q hq
    have hmem : q.signal.name ∈
        ((s.options n).1.resources.flatMap Resource.ports).map fun p => p.signal.name :=
      mem_map_of_mem hq
    rw [names_ports h, mem_flatMap] at hmem
    obtain ⟨e, he, hmem⟩ := hmem
    exact ⟨e, he, mem_map.mp hmem⟩
  refine Names.signalName_port (wired_options s n).signals_nodup (fun q hq => ?_)
    (nodup_names_ports h n) (fun q hq => ?_) f hp
  · obtain ⟨e, he, suffix, hs, heq⟩ := hform q hq
    exact heq ▸ plain_suffixed
      (h.names e.name (mem_append_right _ (mem_map_of_mem he))) hs
  · obtain ⟨e, -, suffix, hs, heq⟩ := hform q hq
    exact heq ▸ suffixed_ne hs

/-- **The interface of a module** that is compiled in a proper project: the clock, the reset and
what the entries stand for, in order. What follows are inputs for signals that nothing drives. -/
theorem heads_interface {text : List Char} {d : Design}
    (hd : (Command.compileText s text).result = .ok d) {name digest : String} {m : Module}
    (hm : ofFragment name digest d.ports d.fragment = .ok m) :
    ∃ strays : List Signal, m.interface.map headOf =
      (.input, 1, clockName) :: (.input, 1, resetName) :: s.resources.flatMap ResourceEntry.heads ++
        strays.map fun x => (.input, x.bits, d.names.signalName x) := by
  obtain ⟨p, w, hrealizes⟩ := realizes_of_compileText hd
  have hports : d.ports = (s.options firstTag).1.resources.flatMap Resource.ports := by
    rw [Design.ports, hrealizes.resources]
  have hnodup : (d.ports.map Port.signal).Nodup := by
    rw [hports]
    exact (wired_options s firstTag).signals_nodup
  obtain ⟨strays, -, -, heq⟩ := ports_ofFragment hnodup hm
  have hdeclared : (d.ports.map (portDecl (.ofFragment d.ports d.fragment) d.fragment)).map headOf =
      s.resources.flatMap ResourceEntry.heads := by
    rw [← heads_resources h firstTag, ← hports, map_map]
    refine map_congr_left fun q hq => ?_
    have hname := signalName_resource h firstTag d.fragment (hports ▸ hq)
    rw [← hports] at hname
    simp only [Function.comp_apply, headOf, portDecl, hname]
  refine ⟨strays, ?_⟩
  rw [Module.interface, heq, map_cons, map_cons, map_append, hdeclared, map_map]
  rfl

end Proper

end Sequencer.Project

namespace Sequencer

open Circuit Lowering Verilog Project

/-- **What can be relied on in a project without flaws.** It is proper, and every proper project is
without flaws. Its resources are the declared ones. Its scope has the constants, the resources and
the built-in functions, and nothing else. Whatever is compiled in it has the ports of the resources
under the names of the resources, so the interface does not depend on the program. -/
theorem validated_project (s : Settings) :
    (s.flaws = [] ↔ s.Proper) ∧
    (s.flaws = [] → ∀ n : Nat,
      List.Forall₂ (fun e r => ∃ c, e.Describes r c) s.resources (s.buildResources n).1 ∧
      ∃ env, (s.options n).1.env = .ok env ∧ env.loopVars = [] ∧
        ∀ name b, env.lookup name = some b ↔ (∃ v, (name, v) ∈ s.scope ∧ b = .int v) ∨
            (∃ r ∈ (s.buildResources n).1, r.name = name ∧ b = .resource r) ∨
              ∃ i, (name, i) ∈ intrinsics ∧ b = .intrinsic i) ∧
    (s.flaws = [] → ∀ text d, (Command.compileText s text).result = .ok d → ∀ name digest,
      ((∃ m, ofFragment name digest d.ports d.fragment = .ok m) ↔ Measured d.fragment) ∧
      ∀ m, ofFragment name digest d.ports d.fragment = .ok m →
        ∃ strays : List Signal, m.interface.map headOf =
          (.input, 1, clockName) :: (.input, 1, resetName) ::
            s.resources.flatMap ResourceEntry.heads ++
              strays.map fun x => (.input, x.bits, d.names.signalName x)) := by
  rw [s.flaws_eq_nil_iff]
  refine ⟨Iff.rfl, fun h n => ⟨describes_resources h n, _, env_eq_ok h n, rfl, fun name b => ?_⟩,
    fun h text d hd name digest => ⟨?_, fun m hm => heads_interface h hd hm⟩⟩
  · exact lookup_bindings h n
  · obtain ⟨p, w, hrealizes, hsolid, hpool⟩ := solid_of_compileText hd
    have hfinished := hrealizes.finished (wired_options s firstTag) (hrealizes.whole hsolid hpool)
    exact hfinished.exists_module_iff name digest

/-- The project of the relay has no flaws, and whatever the relay is written as has its ports. -/
theorem relay_validated : relaySettings.flaws = [] ∧ ∃ d m,
    (Command.compileText relaySettings relayText).result = .ok d ∧
      ofFragment d.name "" d.ports d.fragment = .ok m ∧
        ∃ strays : List Signal, m.interface.map headOf =
          [(.input, 1, "sys_clk"), (.input, 1, "sys_rst"), (.output, 8, "tx_data"),
            (.output, 1, "tx_stb"), (.input, 1, "tx_ack"), (.input, 8, "rx_data"),
            (.input, 1, "rx_stb"), (.output, 1, "rx_ack")] ++
              strays.map fun x => (.input, x.bits, d.names.signalName x) := by
  obtain ⟨hproper, -, hports⟩ := validated_project relaySettings
  have hflaws : relaySettings.flaws = [] := by decide +kernel
  obtain ⟨d, hd, hmeasured⟩ : ∃ d, (Command.compileText relaySettings relayText).result = .ok d ∧
      Measured d.fragment := by
    decide +kernel
  obtain ⟨hexists, hinterface⟩ := hports hflaws relayText d hd d.name ""
  obtain ⟨m, hm⟩ := hexists.mpr hmeasured
  exact ⟨hflaws, d, m, hd, hm, hinterface m hm⟩

end Sequencer
