import Sequencer.Proofs.Verilog.Emission

/-!
# Runs of modules

The module of a design runs like its simulator, and so does what its text says. After every history
of inputs and clock edges since the reset there is a run, and all runs show what the simulator
shows.
-/

namespace Sequencer.Verilog

open List
open Circuit Simulation Net Names Valuation Simulator Project Command

/-! ### What a module is given -/

def Names.inputs (n : Names) : List Signal := (n.nets.filter isInput).map signal

namespace Emitted

variable {ports : List Port} {f : Fragment} {n : Names} {m : Module}

variable {x : Signal} {ρ : Store} {σ : Valuation}

section

variable (h : Emitted ports f n m)

include h

theorem mem_inputs :
    x ∈ n.inputs ↔ x ∈ n.signals ∧ ¬ Driven f x ∧ direction? ports x ≠ some .output := by
  have hnet : ∀ net ∈ n.nets, (net.isInput = true ↔
      ¬ Driven f net.signal ∧ direction? ports net.signal ≠ some .output) := by
    intro net hnet
    rw [h.names] at hnet
    have hdriven := driven_of_mem hnet
    have hport := (role_of_mem hnet).2.2
    cases hdir : direction? ports net.signal with
    | none => simp [isInput, hport, hdir, hdriven]
    | some dir =>
      cases dir with
      | input => simp [isInput, hport, hdir, h.proper.inputs _ hdir]
      | output => simp [isInput, hport, hdir]
  simp only [inputs, mem_map, mem_filter]
  constructor
  · rintro ⟨net, ⟨hmem, hinput⟩, rfl⟩
    exact ⟨mem_map_of_mem hmem, (hnet net hmem).mp hinput⟩
  · rintro ⟨hx, hfree⟩
    obtain ⟨net, hmem, rfl, -⟩ := exists_net hx
    exact ⟨net, ⟨hmem, (hnet net hmem).mpr hfree⟩, rfl⟩

theorem mem_moduleInputs {y : String} : y ∈ m.inputs ↔ ∃ x ∈ n.inputs, n.signalName x = y := by
  have hport : ∀ net : Net, (∃ p, portOf? net = some p ∧ p.direction = .input ∧ p.ident = y) ↔
      net.isInput = true ∧ net.ident = y := by
    intro net
    unfold portOf?
    split <;> simp_all
  simp only [Module.inputs, h.written.ports, mem_map, mem_filter, mem_filterMap,
    decide_eq_true_eq, inputs]
  constructor
  · rintro ⟨p, ⟨⟨net, hnet, hp⟩, hdir⟩, rfl⟩
    obtain ⟨hinput, hident⟩ := (hport net).mp ⟨p, hp, hdir, rfl⟩
    exact ⟨_, ⟨net, ⟨hnet, hinput⟩, rfl⟩, (h.signalName_net hnet).trans hident⟩
  · rintro ⟨_, ⟨net, ⟨hnet, hinput⟩, rfl⟩, rfl⟩
    obtain ⟨p, hp, hdir, hident⟩ := (hport net).mpr ⟨hinput, (h.signalName_net hnet).symm⟩
    exact ⟨p, ⟨⟨net, hnet, hp⟩, hdir⟩, hident⟩

theorem mem_resets {p : String × Number} :
    p ∈ m.resets ↔ ∃ x ∈ targets f.sync, p = (n.signalName x, .resetOf x) := by
  obtain ⟨hnone, hnil⟩ | ⟨body, -, hblock⟩ := block_cases h.written.sync
  · rw [Module.resets, hnone, hnil]
    exact ⟨fun hp => absurd hp not_mem_nil, fun ⟨x, hx, _⟩ => absurd hx not_mem_nil⟩
  · have hnet : ∀ net ∈ n.nets, (net.sync = true ↔ net.signal ∈ targets f.sync) := by
      intro net hnet
      rw [h.names] at hnet
      rw [(role_of_mem hnet).2.1, decide_eq_true_eq]
    simp only [Module.resets, hblock, Option.map_some, Option.getD_some, mem_map, mem_filter]
    constructor
    · rintro ⟨net, ⟨hmem, hsync⟩, rfl⟩
      exact ⟨net.signal, (hnet net hmem).mp hsync, by rw [h.signalName_net hmem]⟩
    · rintro ⟨x, hx, rfl⟩
      obtain ⟨net, hmem, rfl, hname⟩ := exists_net (h.mem_signals_of_target (.inr hx))
      exact ⟨net, ⟨hmem, (hnet net hmem).mpr hx⟩, by rw [hname]⟩

/-- What is held between clock edges are the inputs and the registers. -/
theorem sameOn_held :
    n.SameOn (Held ports f) ρ σ ↔ (∀ x ∈ n.inputs, ρ (n.signalName x) = (σ.get x).toNat) ∧
      ∀ x ∈ targets f.sync, ρ (n.signalName x) = (σ.get x).toNat := by
  constructor
  · intro hsame
    refine ⟨fun x hx => ?_, fun x hx => ?_⟩
    · obtain ⟨hmem, hfree, hdir⟩ := h.mem_inputs.mp hx
      exact hsame x hmem ⟨fun hc => hfree (.inl hc), .inr hdir⟩
    · exact hsame x (h.mem_signals_of_target (.inr hx)) ⟨h.proper.domains x hx, .inl hx⟩
  · rintro ⟨hinputs, hregs⟩ x hx ⟨hcomb, hheld⟩
    by_cases hsync : x ∈ targets f.sync
    · exact hregs x hsync
    · exact hinputs x (h.mem_inputs.mpr ⟨hx, not_or.mpr ⟨hcomb, hsync⟩, hheld.resolve_left hsync⟩)

end

/-! ### One event -/

section

variable (h : Emitted ports f n m)

include h

/-- On reset the inputs are zero and the registers have their reset values. -/
theorem plays_nil :
    m.Plays [] ρ ↔ m.Settled ρ ∧ n.SameOn (Held ports f) ρ
      (empty.override (resets (targets f.sync))) := by
  have hinput : ∀ x ∈ n.inputs, (empty.override (resets (targets f.sync))).get x = 0 := by
    intro x hx
    obtain ⟨-, hfree, -⟩ := h.mem_inputs.mp hx
    rw [get_resets, if_neg fun hs => hfree (.inr hs)]
    rfl
  have hreg : ∀ x ∈ targets f.sync, (Number.resetOf x).toNat % 2 ^ m.bits (n.signalName x) =
      ((empty.override (resets (targets f.sync))).get x).toNat := by
    intro x hx
    have hone := h.one_le_bits (.inr hx)
    obtain ⟨hnumber, hword⟩ := toNat_resetOf hone
    rw [get_resets, if_pos hx, h.measures.signal (h.mem_signals_of_target (.inr hx)) hone, hnumber,
      Nat.mod_eq_of_lt hword]
  rw [h.sameOn_held]
  constructor
  · rintro ⟨hsettled, hresets, hinputs⟩
    refine ⟨hsettled, fun x hx => ?_, fun x hx => ?_⟩
    · rw [hinputs _ (h.mem_moduleInputs.mpr ⟨x, hx, rfl⟩), hinput x hx]
      rfl
    · rw [hresets _ (h.mem_resets.mpr ⟨x, hx, rfl⟩), hreg x hx]
  · rintro ⟨hsettled, hinputs, hregs⟩
    refine .reset hsettled (fun p hp => ?_) fun y hy => ?_
    · obtain ⟨x, hx, rfl⟩ := h.mem_resets.mp hp
      rw [hregs x hx, hreg x hx]
    · obtain ⟨x, hx, rfl⟩ := h.mem_moduleInputs.mp hy
      rw [hinputs x hx, hinput x hx]
      rfl

/-- A history whose runs all show the values of `τ`. -/
structure Tracks (ports : List Port) (f : Fragment) (n : Names) (m : Module)
    (es : List (Event String Nat)) (τ : Valuation) : Prop where
  ranged : Ranged τ
  runs : ∃ ρ, m.Plays es ρ
  settled : ∀ ρ, m.Plays es ρ → m.Settled ρ
  same : ∀ ρ, m.Plays es ρ → n.SameOn (Live ports f) ρ τ

/-- **Coming to rest.** Where the inputs and the registers of a module have the values of `σ`, the
module shows the values to which `σ` settles. -/
theorem tracks_of_settled {τ : Valuation} (hσ : Ranged σ) (hτ : settled f σ = .ok τ)
    {es : List (Event String Nat)}
    (hplays : ∀ ρ, m.Plays es ρ ↔ m.Settled ρ ∧ n.SameOn (Held ports f) ρ σ) :
    Tracks ports f n m es τ := by
  have hranged := hσ.settled hτ
  refine ⟨hranged, ⟨storeOf n m.bits τ, (hplays _).mpr ⟨h.settled_storeOf hτ hranged, ?_⟩⟩,
    fun ρ hρ => ((hplays ρ).mp hρ).1, fun ρ hρ => ?_⟩
  · intro x hx hheld
    rw [h.sameOn_storeOf m.bits τ x hx (live_of_held hheld), get_settled_of_notMem hτ hheld.1]
  · obtain ⟨hsettled, hsame⟩ := (hplays ρ).mp hρ
    exact h.sameOn_of_settled hσ hτ hsettled hsame

variable {es : List (Event String Nat)} {τ : Valuation}

/-- A value on an input changes that input alone. -/
theorem plays_put (ht : Tracks ports f n m es τ) (hx : x ∈ n.inputs) (v : UInt64) :
    m.Plays (.put (n.signalName x) v.toNat :: es) ρ ↔
      m.Settled ρ ∧ n.SameOn (Held ports f) ρ (τ.set x (truncate v x.bits)) := by
  obtain ⟨hmem, hfree, hdir⟩ := h.mem_inputs.mp hx
  have hone := h.one_le_bits_of_mem hmem
  have hinput : ∀ y ∈ n.inputs, y ≠ x → n.signalName y ≠ n.signalName x := fun y hy hne heq =>
    hne (h.distinct.signalName_inj (h.mem_inputs.mp hy).1 hmem heq)
  have hreg : ∀ y ∈ targets f.sync, y ≠ x := fun y hy heq => hfree (.inr (heq ▸ hy))
  have hput : v.toNat % 2 ^ m.bits (n.signalName x) = (truncate v x.bits).toNat := by
    rw [h.measures.signal hmem hone, toNat_truncate_of_pos hone]
  rw [h.sameOn_held]
  constructor
  · intro hρ
    cases hρ with
    | put before input settled put inputs regs =>
      obtain ⟨hinputs, hregs⟩ := h.sameOn_held.mp fun y hy hheld =>
        ht.same _ before y hy (live_of_held hheld)
      refine ⟨settled, fun y hy => ?_, fun y hy => ?_⟩
      · rw [get_set]
        split
        · rename_i hyx
          rw [hyx, put, hput]
        · rename_i hyx
          rw [inputs _ (h.mem_moduleInputs.mpr ⟨y, hy, rfl⟩) (hinput y hy hyx), hinputs y hy]
      · rw [get_set, if_neg (hreg y hy), regs _ (h.mem_resets.mpr ⟨y, hy, rfl⟩), hregs y hy]
  · rintro ⟨hsettled, hinputs, hregs⟩
    obtain ⟨ρ₀, hbefore⟩ := ht.runs
    obtain ⟨hinputs₀, hregs₀⟩ := h.sameOn_held.mp fun y hy hheld =>
      ht.same _ hbefore y hy (live_of_held hheld)
    refine .put hbefore (h.mem_moduleInputs.mpr ⟨x, hx, rfl⟩) hsettled ?_ (fun y hy hne => ?_)
      fun p hp => ?_
    · rw [hinputs x hx, get_set, if_pos rfl, hput]
    · obtain ⟨z, hz, rfl⟩ := h.mem_moduleInputs.mp hy
      rw [hinputs z hz, get_set, if_neg fun heq => hne (by rw [heq]), hinputs₀ z hz]
    · obtain ⟨y, hy, rfl⟩ := h.mem_resets.mp hp
      rw [hregs y hy, get_set, if_neg (hreg y hy), hregs₀ y hy]

/-- A clock edge changes the registers alone. -/
theorem plays_tick (ht : Tracks ports f n m es τ) {υ : Valuation} (hυ : edge f τ = .ok υ) :
    m.Plays (.tick :: es) ρ ↔ m.Settled ρ ∧ n.SameOn (Held ports f) ρ υ := by
  have hedge : ∀ ρ₀, m.Plays es ρ₀ →
      (∀ x ∈ n.inputs, ρ₀ (n.signalName x) = (υ.get x).toNat) ∧
        ∀ x ∈ targets f.sync, m.edge ρ₀ (n.signalName x) = (υ.get x).toNat := by
    intro ρ₀ hρ₀
    obtain ⟨υ', hυ', hregs, hkept⟩ :=
      h.edge_eq ht.ranged (ht.settled _ hρ₀) (ht.same _ hρ₀)
    obtain rfl : υ' = υ := Except.ok.inj (hυ'.symm.trans hυ)
    refine ⟨fun x hx => ?_, hregs⟩
    obtain ⟨hmem, hfree, hdir⟩ := h.mem_inputs.mp hx
    rw [hkept x fun hs => hfree (.inr hs)]
    exact ht.same _ hρ₀ x hmem (.inr hdir)
  rw [h.sameOn_held]
  constructor
  · intro hρ
    cases hρ with
    | tick before settled inputs regs =>
      obtain ⟨hinputs, hregs⟩ := hedge _ before
      refine ⟨settled, fun x hx => ?_, fun x hx => ?_⟩
      · rw [inputs _ (h.mem_moduleInputs.mpr ⟨x, hx, rfl⟩), hinputs x hx]
      · rw [regs _ (h.mem_resets.mpr ⟨x, hx, rfl⟩), hregs x hx]
  · rintro ⟨hsettled, hinputs, hregs⟩
    obtain ⟨ρ₀, hbefore⟩ := ht.runs
    obtain ⟨hinputs₀, hregs₀⟩ := hedge _ hbefore
    refine .tick hbefore hsettled (fun y hy => ?_) fun p hp => ?_
    · obtain ⟨x, hx, rfl⟩ := h.mem_moduleInputs.mp hy
      rw [hinputs x hx, hinputs₀ x hx]
    · obtain ⟨x, hx, rfl⟩ := h.mem_resets.mp hp
      rw [hregs x hx, hregs₀ x hx]

end

/-! ### Histories -/

theorem exists_tracks_of_agree (h : Emitted ports f n m) {x : Except Simulation.Fault Simulator}
    (hx : Agree (Shows f) x (settled f σ)) (hσ : Ranged σ)
    (hplays : ∀ ρ, m.Plays es ρ ↔ m.Settled ρ ∧ n.SameOn (Held ports f) ρ σ) :
    ∃ sim τ, x = .ok sim ∧ Shows f sim τ ∧ Tracks ports f n m es τ := by
  obtain ⟨τ, hτ⟩ := h.exists_settled hσ
  rw [hτ] at hx
  cases hx with
  | ok hshows => exact ⟨_, τ, rfl, hshows, h.tracks_of_settled hσ hτ hplays⟩

/-- **After every history** the simulator and the runs of the module show the same values. -/
theorem exists_tracks (h : Emitted ports f n m) (es : List (Event Signal UInt64))
    (hes : ∀ x v, .put x v ∈ es → x ∈ n.inputs) : ∃ sim τ, play f es = .ok sim ∧
      Shows f sim τ ∧ Tracks ports f n m (es.map (.map n.signalName UInt64.toNat)) τ := by
  induction es with
  | nil =>
    have hnew := shows_new h.proper.feedForward h.proper.noMarker h.proper.domains
    exact h.exists_tracks_of_agree hnew (Ranged.empty.resets _) fun ρ => h.plays_nil
  | cons e es ih =>
    obtain ⟨sim, τ, hsim, hshows, ht⟩ := ih fun x v hx => hes x v (mem_cons_of_mem _ hx)
    cases e with
    | put x v =>
      have hx := hes x v mem_cons_self
      obtain ⟨-, hfree, -⟩ := h.mem_inputs.mp hx
      have hset := hshows.set h.proper.feedForward (fun hc => hfree (.inl hc))
        (fun hs => hfree (.inr hs)) v
      rw [play, hsim]
      exact h.exists_tracks_of_agree hset (ht.ranged.set (truncate_truncate _ _)) fun ρ =>
        h.plays_put ht hx v
    | tick =>
      obtain ⟨ρ, hρ⟩ := ht.runs
      obtain ⟨υ, hυ, -⟩ := h.edge_eq ht.ranged (ht.settled _ hρ) (ht.same _ hρ)
      have hstep := hshows.step h.proper.feedForward
      rw [hυ] at hstep
      rw [play, hsim]
      exact h.exists_tracks_of_agree hstep (ht.ranged.edge hυ) fun ρ => h.plays_tick ht hυ

end Emitted

end Sequencer.Verilog

namespace Sequencer

open Circuit Simulation Verilog Project

/-- **The text of a design runs like its simulator.** It is read by the grammar of the language. The
module that it says and the simulator start from reset and are given the same inputs and clock
edges; then each signal that something drives has the same value in both. -/
theorem module_eq_simulator (s : Settings) (text : List Char) (d : Design)
    (h : (Command.compileText s text).result = .ok d) (hsized : Sized d.fragment)
    (name digest : String) (hdigest : '\n' ∉ digest.toList) :
    ∃ m read, ofFragment name digest d.ports d.fragment = .ok m ∧
      Module.read m.render = some read ∧
      ∀ es : List (Event Signal UInt64), (∀ x v, .put x v ∈ es → x ∈ d.names.inputs) →
        ∃ sim, Simulator.play d.fragment es = .ok sim ∧
          (∃ ρ, read.Plays (es.map (.map d.names.signalName UInt64.toNat)) ρ) ∧
          ∀ ρ, read.Plays (es.map (.map d.names.signalName UInt64.toNat)) ρ →
            ∀ x, Driven d.fragment x → ρ (d.names.signalName x) = (sim.get x).toNat := by
  obtain ⟨p, w, hrealizes⟩ := realizes_of_compileText h
  have hproper := hrealizes.proper (wired_options s firstTag) hsized
  obtain ⟨m, hm⟩ := hproper.exists_module name digest
  obtain ⟨-, -, -, -, hmodule⟩ := ofFragment_eq_ok.mp hm
  have hemitted : Emitted d.ports d.fragment d.names m :=
    ⟨hproper, rfl, written_of_moduleOf hmodule⟩
  obtain ⟨hident, rfl⟩ := head_of_moduleOf hmodule
  have hlegible := hemitted.legible (hident ▸ legal_moduleName name) hdigest
  refine ⟨m, m.plain, hm, read_render hlegible, fun es hes => ?_⟩
  obtain ⟨sim, τ, hsim, hshows, ht⟩ := hemitted.exists_tracks es hes
  simp only [plays_plain]
  refine ⟨sim, hsim, ht.runs, fun ρ hρ x hx => ?_⟩
  rw [ht.same ρ hρ x (hemitted.mem_signals_of_target hx) (.inl hx), Simulator.get, hshows.values x]

/-- The text of the relay takes a value and offers the next one. -/
theorem relay_module_eq_simulator : ∃ d m read ρ,
    (Command.compileText relaySettings relayText).result = .ok d ∧ Sized d.fragment ∧
      ofFragment d.name "" d.ports d.fragment = .ok m ∧ Module.read m.render = some read ∧
        read.Plays [.tick, .tick, .tick, .put "rx_data" 200, .put "rx_stb" 1] ρ ∧
          ρ "tx_stb" = 1 ∧ ρ "tx_data" = 201 := by
  obtain ⟨d, hd, hsized, ⟨hdata, hdataName⟩, ⟨hstb, hstbName⟩, ⟨hstbDriven, hstbOut⟩,
      ⟨hdataDriven, hdataOut⟩, sim, hsim, hstbValue, hdataValue⟩ :
      ∃ d, (Command.compileText relaySettings relayText).result = .ok d ∧ Sized d.fragment ∧
        (relaySource.data ∈ d.names.inputs ∧ d.names.signalName relaySource.data = "rx_data") ∧
        (relaySource.stb ∈ d.names.inputs ∧ d.names.signalName relaySource.stb = "rx_stb") ∧
        (Driven d.fragment relaySink.stb ∧ d.names.signalName relaySink.stb = "tx_stb") ∧
        (Driven d.fragment relaySink.data ∧ d.names.signalName relaySink.data = "tx_data") ∧
        ∃ sim, Simulator.play d.fragment relayHistory = .ok sim ∧
          sim.get relaySink.stb = 1 ∧ sim.get relaySink.data = 201 := by
    decide +kernel
  obtain ⟨m, read, hm, hread, hrun⟩ := module_eq_simulator _ _ d hd hsized d.name "" (by decide)
  have hinputs : ∀ x v, .put x v ∈ relayHistory → x ∈ d.names.inputs := by
    intro x v hx
    simp only [relayHistory, List.mem_cons, reduceCtorEq, Event.put.injEq, List.not_mem_nil,
      or_false, false_or] at hx
    obtain ⟨rfl, -⟩ | ⟨rfl, -⟩ := hx
    · exact hdata
    · exact hstb
  obtain ⟨sim', hsim', ⟨ρ, hρ⟩, hsame⟩ := hrun relayHistory hinputs
  obtain rfl : sim' = sim := Except.ok.inj (hsim'.symm.trans hsim)
  refine ⟨d, m, read, ρ, hd, hsized, hm, hread, ?_, ?_, ?_⟩
  · simp only [relayHistory, List.map_cons, List.map_nil, Event.map, hdataName,
      hstbName] at hρ
    exact hρ
  · rw [← hstbOut, hsame ρ hρ _ hstbDriven, hstbValue]
    rfl
  · rw [← hdataOut, hsame ρ hρ _ hdataDriven, hdataValue]
    rfl

end Sequencer
