import Sequencer.Proofs.Verilog.Reading

/-!
# Modules and simulators agree

The module of a proper fragment, at rest, shows what the simulator shows once it has settled, and a
clock edge has the same effect on both. An output that nothing drives is left out (`Live`).
-/

namespace Sequencer.Verilog

open List Function
open Circuit Simulation Names Valuation Simulator Net
open Simulator (resets)

/-- The module `m` has been written for a proper fragment, with the names `n`. -/
structure Emitted (ports : List Port) (f : Fragment) (n : Names) (m : Module) : Prop where
  proper : Proper ports f
  names : n = Names.ofFragment ports f
  written : Written n f m

/-- A signal that keeps its value between clock edges: an input, or one that changes at edges. -/
def Held (ports : List Port) (f : Fragment) (x : Signal) : Prop :=
  x ∉ targets f.comb ∧ (x ∈ targets f.sync ∨ direction? ports x ≠ some .output)

/-- A signal that a module computes or is given. Only an output that nothing drives is neither. -/
def Live (ports : List Port) (f : Fragment) (x : Signal) : Prop :=
  Driven f x ∨ direction? ports x ≠ some .output

/-- The names show the values of the signals that satisfy `P`. -/
def Names.SameOn (n : Names) (P : Signal → Prop) (ρ : Store) (σ : Valuation) : Prop :=
  ∀ x ∈ n.signals, P x → ρ (n.signalName x) = (σ.get x).toNat

/-! ### Writing under names -/

namespace Names

variable {n : Names} {ρ : Store} {σ : Valuation} {ws : List Write}

variable {x : Signal}

theorem Distinct.signalName_inj (hn : n.Distinct) {y : Signal} (hx : x ∈ n.signals)
    (hy : y ∈ n.signals) (h : n.signalName x = n.signalName y) : x = y := by
  obtain ⟨net, hnet, rfl, hname⟩ := exists_net hx
  obtain ⟨net', hnet', rfl, hname'⟩ := exists_net hy
  have hnodup := (nodup_append'.mp hn.idents.of_cons.of_cons).1
  rw [inj_on_of_nodup_map hnodup hnet hnet' (by rw [← hname, ← hname', h])]

theorem Distinct.signalName_ne_wire (hn : n.Distinct) (hx : x ∈ n.signals) {w : Wire}
    (hw : w ∈ n.wires) : n.signalName x ≠ w.ident := by
  obtain ⟨net, hnet, rfl, hname⟩ := exists_net hx
  have hdisjoint := (nodup_append'.mp hn.idents.of_cons.of_cons).2.2
  rw [hname]
  exact fun h => hdisjoint (mem_map_of_mem hnet) (h ▸ mem_map_of_mem hw)

theorem writeAll_of_notMem {y : String} (h : ∀ w ∈ ws, n.signalName w.1 ≠ y) :
    n.writeAll ρ ws y = ρ y := by
  induction ws generalizing ρ with
  | nil => rfl
  | cons w ws ih =>
    show n.writeAll (Function.update ρ _ _) ws y = ρ y
    rw [ih fun v hv => h v (mem_cons_of_mem _ hv), update_of_ne (h w mem_cons_self).symm]

theorem Distinct.writeAll_signal (hn : n.Distinct) (hws : ∀ w ∈ ws, w.1 ∈ n.signals)
    (hx : x ∈ n.signals) (h : ρ (n.signalName x) = (σ.get x).toNat ∨ ∃ w ∈ ws, w.1 = x) :
    n.writeAll ρ ws (n.signalName x) = ((σ.override ws).get x).toNat := by
  induction ws generalizing ρ σ with
  | nil => exact h.resolve_right (by simp)
  | cons w ws ih =>
    have hrest := ih (ρ := Function.update ρ (n.signalName w.1) w.2.toNat) (σ := σ.set w.1 w.2)
      (fun v hv => hws v (mem_cons_of_mem _ hv))
    refine hrest ?_
    by_cases hxw : x = w.1
    · left
      rw [hxw, update_self, get_set, if_pos rfl]
    · have hne : n.signalName x ≠ n.signalName w.1 := fun heq =>
        hxw (hn.signalName_inj hx (hws w mem_cons_self) heq)
      rw [update_of_ne hne, get_set, if_neg hxw]
      refine h.imp_right ?_
      rintro ⟨v, hv, rfl⟩
      obtain rfl | hv := mem_cons.mp hv
      · exact absurd rfl hxw
      · exact ⟨v, hv, rfl⟩

theorem Distinct.writeAll_eq_self (hn : n.Distinct) (hws : ∀ w ∈ ws, w.1 ∈ n.signals)
    (h : ∀ w ∈ ws, ρ (n.signalName w.1) = ((σ.override ws).get w.1).toNat) :
    n.writeAll ρ ws = ρ := by
  funext y
  by_cases hy : ∃ w ∈ ws, n.signalName w.1 = y
  · obtain ⟨w, hw, rfl⟩ := hy
    rw [hn.writeAll_signal hws (hws w hw) (.inr ⟨w, hw, rfl⟩), h w hw]
  · exact writeAll_of_notMem fun w hw hwy => hy ⟨w, hw, hwy⟩

theorem Displays.update {v : Value} {t : Signal} (h : n.Displays ρ σ v) (hn : n.Distinct)
    (hv : n.Spells v) (ht : t ∈ n.signals) (hread : t ∉ v.reads) (k : Nat) :
    n.Displays (Function.update ρ (n.signalName t) k) σ v := by
  refine ⟨fun x hx => ?_, fun u hu w hw => ?_⟩
  · have hne : n.signalName x ≠ n.signalName t := fun heq =>
      hread (hn.signalName_inj (hv.signals x hx) ht heq ▸ hx)
    rw [update_of_ne hne]
    exact h.signals x hx
  · have hne := hn.signalName_ne_wire ht (mem_of_find?_eq_some hw)
    rw [update_of_ne hne.symm]
    exact h.wires u hu w hw

end Names

/-! ### Values within their widths -/

namespace Ranged

variable {σ τ : Valuation} {f : Fragment}

theorem empty : Ranged .empty := fun _ _ => Nat.two_pow_pos _

variable (h : Ranged σ)

include h

theorem set {x : Signal} {v : UInt64} (hv : truncate v x.bits = v) : Ranged (σ.set x v) := by
  intro y hy
  rw [get_set]
  split
  · rename_i hyx
    subst hyx
    rw [← hv]
    exact toNat_truncate_lt hy
  · exact h y hy

theorem override {ws : List Write} (hws : ∀ w ∈ ws, truncate w.2 w.1.bits = w.2) :
    Ranged (σ.override ws) := by
  induction ws generalizing σ with
  | nil => exact h
  | cons w ws ih =>
    exact ih (h.set (hws w mem_cons_self)) fun v hv => hws v (mem_cons_of_mem _ hv)

theorem resets (xs : List Signal) : Ranged (σ.override (resets xs)) := by
  refine h.override fun w hw => ?_
  obtain ⟨x, -, rfl⟩ := mem_map.mp hw
  exact truncate_truncate _ _

theorem settled (hτ : Simulation.settled f σ = .ok τ) : Ranged τ := by
  obtain ⟨ws, hws, hτ⟩ := bind_eq_ok.mp hτ
  cases hτ
  rw [override_append]
  exact (h.resets _).override fun w hw => (exec_caused _ hws w hw).2

theorem edge (hτ : Simulation.edge f σ = .ok τ) : Ranged τ := by
  obtain ⟨ws, hws, hτ⟩ := bind_eq_ok.mp hτ
  cases hτ
  exact h.override fun w hw => (exec_caused _ hws w hw).2

end Ranged

/-! ### The values of names -/

/-- What a net shows. An output that nothing drives keeps its reset value. -/
def Net.shown (bits : String → Nat) (σ : Valuation) (net : Net) : Nat :=
  if net.driven || net.isInput then (σ.get net.signal).toNat
  else (Number.resetOf net.signal).toNat % 2 ^ bits net.ident

/-- The values of all names where the signals have the values of `σ`. -/
def storeOf (n : Names) (bits : String → Nat) (σ : Valuation) : Store := fun x =>
  match n.nets.find? (·.ident = x) with
  | some net => net.shown bits σ
  | none => ((n.wires.find? (·.ident = x)).map fun w => (denote σ (carried w.node)).toNat).getD 0

namespace Names.Distinct

variable {n : Names} {bits : String → Nat} {σ : Valuation}

theorem storeOf_net (hn : n.Distinct) {net : Net} (hnet : net ∈ n.nets) :
    storeOf n bits σ net.ident = net.shown bits σ := by
  have hnodup := (nodup_append'.mp hn.idents.of_cons.of_cons).1
  rw [storeOf, find?_of_nodup hnodup hnet]

theorem storeOf_wire (hn : n.Distinct) {w : Wire} (hw : w ∈ n.wires) :
    storeOf n bits σ w.ident = (denote σ (carried w.node)).toNat := by
  obtain ⟨-, hwires, hdisjoint⟩ := nodup_append'.mp hn.idents.of_cons.of_cons
  have hnone : n.nets.find? (·.ident = w.ident) = none := by
    refine find?_eq_none.mpr fun net hnet => ?_
    simp only [decide_eq_true_eq]
    exact fun heq => hdisjoint (mem_map_of_mem hnet) (heq ▸ mem_map_of_mem hw)
  rw [storeOf, hnone, find?_of_nodup hwires hw]
  rfl

end Names.Distinct

/-! ### What an emitted module is made of -/

namespace Emitted

variable {ports : List Port} {f : Fragment} {n : Names} {m : Module}

section

variable (h : Emitted ports f n m)

include h

theorem distinct : n.Distinct := h.names ▸ distinct_ofFragment ports f

theorem measures : n.Measures m.bits := h.written.measures h.distinct

theorem signalName_net {net : Net} (hnet : net ∈ n.nets) : n.signalName net.signal = net.ident := by
  rw [h.names] at hnet ⊢
  exact signalName_of_mem hnet

theorem mem_signals {x : Signal} : x ∈ n.signals ↔
    x ∈ ports.map Port.signal ∨ x ∈ mentioned f.comb ∨ x ∈ mentioned f.sync := by
  rw [h.names]
  exact Verilog.mem_signals

end

variable {x : Signal} {s : Circuit.Stmt} {ss : List Circuit.Stmt} {σ τ : Valuation} {ρ : Store}

theorem mem_signals_of_target (h : Emitted ports f n m) (hx : Driven f x) : x ∈ n.signals :=
  h.mem_signals.mpr (.inr (hx.imp mem_mentioned_of_target mem_mentioned_of_target))

theorem driven_of_target? (hs : s ∈ walk f.comb ∨ s ∈ walk f.sync) (hx : target? s = some x) :
    Driven f x :=
  hs.imp (fun hs => mem_filterMap_target.mp (mem_filterMap.mpr ⟨s, hs, hx⟩))
    (fun hs => mem_filterMap_target.mp (mem_filterMap.mpr ⟨s, hs, hx⟩))

theorem writes (h : Emitted ports f n m) (hs : s ∈ walk f.comb ∨ s ∈ walk f.sync) : n.Writes s := by
  have hmem := mem_append.mpr hs
  have hregular := h.proper.regular s hmem
  refine ⟨⟨hregular, h.proper.sized s hmem⟩, fun v hv => ?_, fun t ht => ?_⟩
  · have hmention : ∀ x ∈ v.reads, x ∈ mentions s := fun x hx =>
      mem_append_right _ (mem_flatMap.mpr ⟨v, hv, hx⟩)
    have hnode : ∀ u ∈ v.walk, u ∈ nodes f.comb ∨ u ∈ nodes f.sync := fun u hu =>
      hs.imp (fun hs => mem_flatMap.mpr ⟨s, hs, mem_flatMap.mpr ⟨v, hv, hu⟩⟩)
        (fun hs => mem_flatMap.mpr ⟨s, hs, mem_flatMap.mpr ⟨v, hv, hu⟩⟩)
    refine ⟨h.proper.sized s hmem v (values_subset hv), regular_of_mem_values hregular hv,
      fun x hx => ?_, fun u hu => ?_⟩
    · exact h.mem_signals.mpr (.inr (hs.imp (fun hs => mem_flatMap.mpr ⟨s, hs, hmention x hx⟩)
        (fun hs => mem_flatMap.mpr ⟨s, hs, hmention x hx⟩)))
    · rw [h.names, width?_ofFragment, if_pos (hnode u hu)]
  · exact h.mem_signals_of_target (driven_of_target? hs ht)

theorem mem_reads_of_values (hs : s ∈ walk ss) {v : Value} (hv : v ∈ values s) (hx : x ∈ v.reads) :
    x ∈ reads ss := by
  refine mem_reads.mpr ⟨s, hs, ?_⟩
  have hown := values_subset hv
  cases s with
  | hole | marker => cases hown
  | assign | branch | select =>
    obtain rfl := mem_singleton.mp hown
    exact hx

theorem live_of_values (h : Emitted ports f n m) (hs : s ∈ walk f.comb ∨ s ∈ walk f.sync)
    {v : Value} (hv : v ∈ values s) (hx : x ∈ v.reads) : Live ports f x :=
  .inr (h.proper.outputs x (mem_append.mpr
    (hs.imp (mem_reads_of_values · hv hx) (mem_reads_of_values · hv hx))))

section

variable (h : Emitted ports f n m)

include h

theorem live_iff {net : Net} (hnet : net ∈ n.nets) :
    (net.driven || net.isInput) = true ↔ Live ports f net.signal := by
  rw [h.names] at hnet
  obtain ⟨-, -, hport⟩ := role_of_mem hnet
  have hdriven := driven_of_mem hnet
  by_cases hd : Driven f net.signal
  · simp [hdriven, hd, Live]
  · cases hdir : direction? ports net.signal with
    | none => simp [Net.isInput, hport, hdir, hdriven, hd, Live]
    | some dir => cases dir <;> simp [Net.isInput, hport, hdir, hdriven, hd, Live]

theorem sameOn_storeOf (bits : String → Nat) (σ : Valuation) :
    n.SameOn (Live ports f) (storeOf n bits σ) σ := by
  intro x hx hlive
  obtain ⟨net, hnet, rfl, hname⟩ := exists_net hx
  rw [hname, h.distinct.storeOf_net hnet, Net.shown, if_pos ((h.live_iff hnet).mpr hlive)]

theorem displays_storeOf (bits : String → Nat) (σ : Valuation) {v : Value} (hv : n.Spells v)
    (hlive : ∀ x ∈ v.reads, Live ports f x) : n.Displays (storeOf n bits σ) σ v := by
  refine ⟨fun x hx => h.sameOn_storeOf bits σ x (hv.signals x hx) (hlive x hx), fun u hu w hw => ?_⟩
  obtain rfl : w.node = u := by simpa using find?_some hw
  exact h.distinct.storeOf_wire (mem_of_find?_eq_some hw)

theorem exists_exec (hσ : Ranged σ) (hss : ss = f.comb ∨ ss = f.sync) :
    ∃ ws, exec σ ss = .ok ws := by
  have hwalk : ∀ s ∈ walk ss, s ∈ walk f.comb ∨ s ∈ walk f.sync := by
    intro s hs
    obtain rfl | rfl := hss
    · exact .inl hs
    · exact .inr hs
  obtain ⟨body, hbody⟩ := exists_stmtsOf n ss fun s hs =>
    (h.writes (hwalk s hs)).writable.present.complete
  have hrun : ∀ s ∈ walk ss, InRun n (fun _ => storeOf n m.bits σ) σ (fun _ => True) s := by
    intro s hs
    have hwrites := h.writes (hwalk s hs)
    refine ⟨hwrites, fun _ _ v hv => ?_, fun _ _ _ _ _ => trivial⟩
    exact h.displays_storeOf _ _ (hwrites.values v hv) fun x hx =>
      h.live_of_values (hwalk s hs) hv hx
  obtain ⟨ws, hws, -⟩ := run_stmtsOf h.measures hσ ss hrun hbody
  exact ⟨ws, hws⟩

theorem one_le_bits (hx : Driven f x) : 1 ≤ x.bits := by
  have hassign : ∃ v, .assign x v ∈ walk f.comb ++ walk f.sync := by
    obtain hx | hx := hx
    · obtain ⟨v, hv⟩ := mem_targets.mp hx
      exact ⟨v, mem_append_left _ hv⟩
    · obtain ⟨v, hv⟩ := mem_targets.mp hx
      exact ⟨v, mem_append_right _ hv⟩
  obtain ⟨v, hv⟩ := hassign
  exact (h.proper.regular _ hv).1

theorem one_le_bits_of_mem (hx : x ∈ n.signals) : 1 ≤ x.bits := by
  have hmentions : ∀ s, s ∈ walk f.comb ∨ s ∈ walk f.sync → x ∈ mentions s → 1 ≤ x.bits := by
    intro s hs hx
    obtain hx | hx := mem_append.mp hx
    · exact h.one_le_bits (driven_of_target? hs (Option.mem_toList.mp hx))
    · obtain ⟨v, hv, hx⟩ := mem_flatMap.mp hx
      exact one_le_of_mem_reads ((h.writes hs).values v hv).sized hx
  obtain hx | hx | hx := h.mem_signals.mp hx
  · obtain ⟨p, hp, rfl⟩ := mem_map.mp hx
    exact h.proper.plain p hp
  · obtain ⟨s, hs, hx⟩ := mem_flatMap.mp hx
    exact hmentions s (.inl hs) hx
  · obtain ⟨s, hs, hx⟩ := mem_flatMap.mp hx
    exact hmentions s (.inr hs) hx

end

theorem toNat_resetOf (hone : 1 ≤ x.bits) :
    (Number.resetOf x).toNat = x.resetWord.toNat ∧ x.resetWord.toNat < 2 ^ x.bits.toNat :=
  ⟨Nat.mod_eq_of_lt (toNat_truncate_lt hone), toNat_truncate_lt hone⟩

theorem assignNumbers_eq (h : Emitted ports f n m) {driven : Net → Bool} {body : List Stmt}
    (hdriven : ∀ net ∈ n.nets, driven net = true → Driven f net.signal) (ρ : Store) :
    Block.assignNumbers m.bits
      ⟨(n.nets.filter driven).map fun net => (net.ident, Number.resetOf net.signal), body⟩ ρ =
        n.writeAll ρ (resets ((n.nets.filter driven).map Net.signal)) := by
  have hnets : ∀ (nets : List Net), nets ⊆ n.nets → (∀ net ∈ nets, Driven f net.signal) →
      ∀ ρ : Store, (nets.map fun net => (net.ident, Number.resetOf net.signal)).foldl
        (fun ρ p => Function.update ρ p.1 (p.2.toNat % 2 ^ m.bits p.1)) ρ =
          n.writeAll ρ (resets (nets.map Net.signal)) := by
    intro nets hsub hd
    induction nets with
    | nil => exact fun ρ => rfl
    | cons net nets ih =>
      intro ρ
      have hnet : net ∈ n.nets := hsub mem_cons_self
      have hone := h.one_le_bits (hd net mem_cons_self)
      have hvalue : (Number.resetOf net.signal).toNat % 2 ^ m.bits net.ident =
          net.signal.resetWord.toNat := by
        obtain ⟨hnumber, hword⟩ := toNat_resetOf hone
        rw [h.measures.nets net hnet, declaredBits_of_pos hone, hnumber, Nat.mod_eq_of_lt hword]
      have hrest := ih (subset_of_cons_subset hsub)
        (fun net' hnet' => hd net' (mem_cons_of_mem _ hnet'))
        (update ρ net.ident net.signal.resetWord.toNat)
      simp only [map_cons, foldl_cons, hvalue, hrest]
      show n.writeAll _ _ = n.writeAll (update ρ (n.signalName net.signal) _) _
      rw [h.signalName_net hnet]
      rfl
  refine hnets _ filter_sublist.subset (fun net hnet => ?_) ρ
  obtain ⟨hnet, hd⟩ := mem_filter.mp hnet
  exact hdriven net hnet hd

/-- The signals that the combinational block drives, in the order of their names. -/
def combSignals (n : Names) : List Signal := (n.nets.filter comb).map signal

theorem mem_combSignals (h : Emitted ports f n m) : x ∈ combSignals n ↔ x ∈ targets f.comb := by
  have hrole : ∀ net ∈ n.nets, (net.comb = true ↔ net.signal ∈ targets f.comb) := by
    intro net hnet
    rw [h.names] at hnet
    rw [(role_of_mem hnet).1, decide_eq_true_eq]
  simp only [combSignals, mem_map, mem_filter]
  constructor
  · rintro ⟨net, ⟨hnet, hcomb⟩, rfl⟩
    exact (hrole net hnet).mp hcomb
  · intro hx
    obtain ⟨net, hnet, rfl, -⟩ := exists_net (h.mem_signals_of_target (.inl hx))
    exact ⟨net, ⟨hnet, (hrole net hnet).mpr hx⟩, rfl⟩

theorem block_cases {driven : Net → Bool} {o : Option Block} (h : blockOf n driven ss = .ok o) :
    (o = none ∧ ss = []) ∨ ∃ body, stmtsOf n ss = .ok body ∧
      o = some ⟨(n.nets.filter driven).map fun net => (net.ident, .resetOf net.signal), body⟩ := by
  unfold blockOf at h
  split at h
  · rename_i hempty
    cases h
    exact .inl ⟨rfl, List.isEmpty_iff.mp hempty⟩
  · obtain ⟨body, hbody, h⟩ := bind_eq_ok.mp h
    cases h
    exact .inr ⟨body, hbody, rfl⟩

/-- **A pass over the combinational block** carries out the writes of a pass over the logic. -/
theorem runComb_eq (h : Emitted ports f n m) (hσ : Ranged σ) {b : Block} (hb : m.comb = some b)
    {ws : List Write} (hws : exec σ f.comb = .ok ws)
    (hshown : ∀ s ∈ walk f.comb, ∀ v ∈ values s, n.Displays ρ σ v) :
    b.runComb m.bits ρ = n.writeAll ρ (resets (combSignals n) ++ ws) := by
  obtain ⟨hnone, -⟩ | ⟨body, hbody, hblock⟩ := block_cases h.written.comb
  · rw [hb] at hnone
    cases hnone
  obtain rfl := Option.some.inj (hb.symm.trans hblock)
  -- Assignments to what the block drives do not touch what its values are written with.
  have hkept : ∀ ρ, (∀ s ∈ walk f.comb, ∀ v ∈ values s, n.Displays ρ σ v) → ∀ t ∈ targets f.comb,
      ∀ k, ∀ s ∈ walk f.comb, ∀ v ∈ values s,
        n.Displays (update ρ (n.signalName t) k) σ v := by
    intro ρ hρ t ht k s hs v hv
    refine (hρ s hs v hv).update h.distinct ((h.writes (.inl hs)).values v hv)
      (h.mem_signals_of_target (.inl ht)) (fun hread => ?_) k
    exact h.proper.feedForward t (mem_reads_of_values hs hv hread) ht
  have hrun : ∀ s ∈ walk f.comb, InRun n id σ
      (fun ρ => ∀ s ∈ walk f.comb, ∀ v ∈ values s, n.Displays ρ σ v) s := fun s hs =>
    ⟨h.writes (.inl hs), fun ρ hρ v hv => hρ s hs v hv, fun ρ hρ t ht k =>
      hkept ρ hρ t (mem_filterMap_target.mp (mem_filterMap.mpr ⟨s, hs, ht⟩)) k⟩
  obtain ⟨ws', hws', hcarries⟩ := run_stmtsOf h.measures hσ f.comb hrun hbody
  obtain rfl : ws' = ws := Except.ok.inj (hws'.symm.trans hws)
  have hresets : ∀ xs : List Signal, xs ⊆ targets f.comb → ∀ ρ,
      (∀ s ∈ walk f.comb, ∀ v ∈ values s, n.Displays ρ σ v) →
        ∀ s ∈ walk f.comb, ∀ v ∈ values s, n.Displays (n.writeAll ρ (resets xs)) σ v := by
    intro xs hxs
    induction xs with
    | nil => exact fun ρ hρ => hρ
    | cons x xs ih =>
      intro ρ hρ
      exact ih (subset_of_cons_subset hxs) _ (hkept ρ hρ x (hxs mem_cons_self) _)
  have hstart := hresets (combSignals n) (fun x hx => h.mem_combSignals.mp hx) ρ hshown
  have hdriven : ∀ net ∈ n.nets, net.comb = true → Driven f net.signal := fun _ hnet hcomb =>
    .inl (h.mem_combSignals.mp (mem_map_of_mem (mem_filter.mpr ⟨hnet, hcomb⟩)))
  rw [Block.runComb, h.assignNumbers_eq hdriven]
  exact (hcarries _ hstart).1.trans foldl_append.symm

theorem wires_of_settled (h : Emitted ports f n m) (hρ : m.Settled ρ) :
    ∀ w ∈ n.wires, ∃ e, wireValue n w = .ok e ∧ ρ w.ident = e.assigned m.bits ρ w.ident := by
  intro w hw
  obtain ⟨e, he⟩ := h.written.exists_wireValue hw
  exact ⟨e, he, hρ.decls _ (h.written.mem_decls.mpr (.inr ⟨w, hw, e, he, rfl⟩))⟩

theorem live_of_held (h : Held ports f x) : Live ports f x :=
  h.2.imp_left .inr

section

variable (h : Emitted ports f n m)

include h

theorem combWrites_mem {ws : List Write} (hws : exec σ f.comb = .ok ws) :
    ∀ w ∈ resets (combSignals n) ++ ws, w.1 ∈ targets f.comb := by
  intro w hw
  obtain hw | hw := mem_append.mp hw
  · obtain ⟨x, hx, rfl⟩ := mem_map.mp hw
    exact h.mem_combSignals.mp hx
  · exact mem_targets.mpr (exec_caused _ hws w hw).1

/-- The order of the resets does not matter. -/
theorem override_combSignals (σ : Valuation) (ws : List Write) :
    (σ.override (resets (combSignals n) ++ ws)).Same
      (σ.override (resets (targets f.comb) ++ ws)) := by
  rw [override_append, override_append]
  refine Same.override (fun x => ?_) ws
  simp only [get_resets, h.mem_combSignals]

/-- A module at rest shows the settled values. -/
theorem sameOn_of_settled (hσ : Ranged σ) (hτ : settled f σ = .ok τ) (hρ : m.Settled ρ)
    (hsame : n.SameOn (Held ports f) ρ σ) : n.SameOn (Live ports f) ρ τ := by
  obtain ⟨ws, hws, hτ⟩ := bind_eq_ok.mp hτ
  cases hτ
  have hmem := h.combWrites_mem hws
  intro x hx hlive
  rw [← h.override_combSignals σ ws x]
  by_cases hcomb : x ∈ targets f.comb
  · have hshown : ∀ s ∈ walk f.comb, ∀ v ∈ values s, n.Displays ρ σ v := by
      intro s hs v hv
      have hspell := (h.writes (.inl hs)).values v hv
      refine displays_of_wires h.measures hσ (h.wires_of_settled hρ) hspell fun y hy => ?_
      -- What combinational logic reads does not depend on combinational logic.
      have hread := mem_reads_of_values hs hv hy
      exact hsame y (hspell.signals y hy)
        ⟨h.proper.feedForward y hread, .inr (h.proper.outputs y (mem_append_left _ hread))⟩
    obtain ⟨-, hnil⟩ | ⟨body, -, hblock⟩ := block_cases h.written.comb
    · rw [hnil] at hcomb
      cases hcomb
    · have hpass := h.runComb_eq hσ hblock hws hshown
      rw [hρ.comb _ hblock] at hpass
      rw [hpass]
      refine h.distinct.writeAll_signal (fun w hw => h.mem_signals_of_target (.inl (hmem w hw))) hx
        (.inr ⟨(x, x.resetWord), ?_, rfl⟩)
      exact mem_append_left _ (mem_map_of_mem (h.mem_combSignals.mpr hcomb))
  · rw [get_override_of_notMem (x := x) fun w hw hwx => hcomb (hwx ▸ hmem w hw)]
    exact hsame x hx ⟨hcomb, hlive.imp_left fun hd => hd.resolve_left hcomb⟩

theorem spells_of_mem_wires {w : Wire} (hw : w ∈ n.wires) :
    n.Spells w.node ∧ ∀ x ∈ w.node.reads, Live ports f x := by
  obtain ⟨⟨s, hs, v, hv, hnode⟩, -⟩ := node_of_mem_wires (h.names ▸ hw)
  have hs := mem_append.mp hs
  obtain ⟨hspell, hsub⟩ := ((h.writes hs).values v hv).of_mem_walk hnode
  exact ⟨hspell, fun x hx => h.live_of_values hs hv (hsub hx)⟩

/-- A module can come to rest. -/
theorem settled_storeOf (hτ : settled f σ = .ok τ) (hranged : Ranged τ) :
    m.Settled (storeOf n m.bits τ) := by
  have hsame := h.sameOn_storeOf m.bits τ
  constructor
  · intro d hd
    obtain ⟨net, hnet, hd⟩ | ⟨w, hw, e, he, rfl⟩ := h.written.mem_decls.mp hd
    · obtain ⟨hport, hdriven, rfl⟩ | rfl := declOf?_cases hd
      · rw [Decl.Holds, h.distinct.storeOf_net hnet, Net.shown, if_neg]
        simp [hdriven, Net.isInput, hport]
      · trivial
    · obtain ⟨hspell, hlive⟩ := h.spells_of_mem_wires hw
      rw [Decl.Holds, h.distinct.storeOf_wire hw]
      refine (wireValue_spec h.measures hranged (h.distinct.wire?_of_mem hw) hspell (fun u hu => ?_)
        he).symm
      obtain ⟨hpart, hsub⟩ := hspell.of_mem_parts hu
      exact h.displays_storeOf _ _ hpart fun x hx => hlive x (hsub hx)
  · intro b hb
    obtain ⟨ws, hws, hτ'⟩ := bind_eq_ok.mp hτ
    have hτ' : σ.override (resets (targets f.comb) ++ ws) = τ := Except.ok.inj hτ'
    have hagain : exec τ f.comb = .ok ws := by
      rw [← hτ', h.proper.feedForward.exec_override (mem_targets_of_combWrites hws), hws]
    have hmem := h.combWrites_mem hws
    have hshown : ∀ s ∈ walk f.comb, ∀ v ∈ values s, n.Displays (storeOf n m.bits τ) τ v :=
      fun s hs v hv => h.displays_storeOf _ _ ((h.writes (.inl hs)).values v hv) fun x hx =>
        h.live_of_values (.inl hs) hv hx
    rw [h.runComb_eq hranged hb hagain hshown]
    refine h.distinct.writeAll_eq_self (σ := σ)
      (fun w hw => h.mem_signals_of_target (.inl (hmem w hw))) fun w hw => ?_
    rw [hsame w.1 (h.mem_signals_of_target (.inl (hmem w hw))) (.inl (.inl (hmem w hw))),
      h.override_combSignals σ ws w.1, hτ']

theorem exists_settled (hσ : Ranged σ) : ∃ τ, settled f σ = .ok τ := by
  obtain ⟨ws, hws⟩ := h.exists_exec hσ (.inl rfl)
  rw [settled, hws]
  exact ⟨_, rfl⟩

end

theorem get_settled_of_notMem (hτ : settled f σ = .ok τ) (hx : x ∉ targets f.comb) :
    τ.get x = σ.get x := by
  obtain ⟨ws, hws, hτ⟩ := bind_eq_ok.mp hτ
  cases hτ
  exact get_override_of_notMem fun w hw hwx =>
    hx (hwx ▸ mem_targets_of_combWrites hws w hw)

/-- A clock edge has the same effect on both. -/
theorem edge_eq (h : Emitted ports f n m) (hτ : Ranged τ) (hρ : m.Settled ρ)
    (hsame : n.SameOn (Live ports f) ρ τ) :
    ∃ υ, edge f τ = .ok υ ∧
      (∀ x ∈ targets f.sync, m.edge ρ (n.signalName x) = (υ.get x).toNat) ∧
      ∀ x ∉ targets f.sync, υ.get x = τ.get x := by
  obtain ⟨ws, hws⟩ := h.exists_exec hτ (.inr rfl)
  have hυ : edge f τ = .ok (τ.override ws) := by
    rw [edge, hws]
    rfl
  have htarget : ∀ w ∈ ws, w.1 ∈ targets f.sync := fun w hw =>
    mem_targets.mpr (exec_caused _ hws w hw).1
  refine ⟨_, hυ, fun x hx => ?_, fun x hx => ?_⟩
  · have hmem := h.mem_signals_of_target (.inr hx)
    obtain ⟨-, hnil⟩ | ⟨body, hbody, hblock⟩ := block_cases h.written.sync
    · rw [hnil] at hx
      cases hx
    · have hrun : ∀ s ∈ walk f.sync, InRun n (fun _ => ρ) τ (fun _ => True) s := by
        intro s hs
        have hwrites := h.writes (.inr hs)
        refine ⟨hwrites, fun _ _ v hv => ?_, fun _ _ _ _ _ => trivial⟩
        have hspell := hwrites.values v hv
        refine displays_of_wires h.measures hτ (h.wires_of_settled hρ) hspell fun y hy => ?_
        exact hsame y (hspell.signals y hy) (h.live_of_values (.inr hs) hv hy)
      obtain ⟨ws', hws', hcarries⟩ := run_stmtsOf h.measures hτ f.sync hrun hbody
      obtain rfl : ws' = ws := Except.ok.inj (hws'.symm.trans hws)
      have hedge : m.edge ρ = n.writeAll ρ ws' := by
        rw [Module.edge, hblock]
        exact (hcarries ρ trivial).1
      rw [hedge]
      exact h.distinct.writeAll_signal (fun w hw => h.mem_signals_of_target (.inr (htarget w hw)))
        hmem (.inl (hsame x hmem (.inl (.inr hx))))
  · exact get_override_of_notMem fun w hw hwx => hx (hwx ▸ htarget w hw)

end Emitted

end Sequencer.Verilog
