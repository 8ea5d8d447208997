import Sequencer.Proofs.Design.Statements
import Sequencer.Proofs.Verilog.Naming

/-!
# Which fragments can be written

A fragment is written as a module if nothing is missing in it, no signal has two kinds of drivers,
no input is driven, and all widths are known. A `Finished` fragment has all but the last; a `Proper`
one can always be written.
-/

namespace Sequencer.Verilog

open List
open Circuit Simulation Names

/-! ### What is written -/

def wireDecl (n : Names) (w : Wire) : Except Fault Decl := do
  let value ← wireValue n w
  return .wire w.width w.ident value

/-- What a module with the names `n` consists of. -/
structure Written (n : Names) (f : Fragment) (m : Module) : Prop where
  ports : m.ports = n.nets.filterMap portOf?
  decls : ∃ wires, n.wires.reverse.mapM (wireDecl n) = .ok wires ∧
    m.decls = n.nets.filterMap declOf? ++ wires
  comb : blockOf n Net.comb f.comb = .ok m.comb
  sync : blockOf n Net.sync f.sync = .ok m.sync

variable {name digest : String} {f : Fragment} {m : Module} {ports : List Port} {s : Circuit.Stmt}
  {v : Value}

theorem written_of_moduleOf {n : Names} (h : moduleOf name digest n f = .ok m) : Written n f m := by
  obtain ⟨wires, hwires, h⟩ := bind_eq_ok.mp h
  obtain ⟨comb, sync, hcomb, hsync, rfl⟩ := bind₂_eq_ok.mp h
  exact ⟨rfl, ⟨wires, hwires, rfl⟩, hcomb, hsync⟩

theorem head_of_moduleOf {n : Names} (h : moduleOf name digest n f = .ok m) :
    m.ident = moduleName name ∧ m.digest = digest := by
  obtain ⟨_, -, h⟩ := bind_eq_ok.mp h
  obtain ⟨_, _, -, -, rfl⟩ := bind₂_eq_ok.mp h
  exact ⟨rfl, rfl⟩

theorem ofFragment_eq_ok :
    ofFragment name digest ports f = .ok m ↔
      f.firstMarker? = none ∧ everywhere stmtMeasurable f = true ∧
        (Names.ofFragment ports f).nets.findSome? netFault? = none ∧
          everywhere armsMeasurable f = true ∧
            moduleOf name digest (Names.ofFragment ports f) f = .ok m := by
  unfold ofFragment
  cases f.firstMarker? with
  | some e => simp
  | none =>
    by_cases hs : everywhere stmtMeasurable f = true
    · by_cases ha : everywhere armsMeasurable f = true <;>
        cases hn : (Names.ofFragment ports f).nets.findSome? netFault? <;> simp [hs, ha, hn]
    · simp [hs]

/-! ### The nets of a module -/

section Nets

variable {net : Net}

theorem role_of_mem (h : net ∈ (Names.ofFragment ports f).nets) :
    net.comb = decide (net.signal ∈ targets f.comb) ∧
      net.sync = decide (net.signal ∈ targets f.sync) ∧
        net.port = direction? ports net.signal := by
  have hrole : (Names.ofFragment ports f).role net.signal = some net.role := by
    rw [Names.role, (distinct_ofFragment ports f).net?_of_mem h, Option.map_some]
  rw [role_ofFragment] at hrole
  split at hrole
  · have := Option.some.inj hrole
    simp only [Net.role, Role.mk.injEq] at this
    exact ⟨this.1.symm, this.2.1.symm, this.2.2.symm⟩
  · cases hrole

theorem signalName_of_mem (h : net ∈ (Names.ofFragment ports f).nets) :
    (Names.ofFragment ports f).signalName net.signal = net.ident := by
  rw [Names.signalName, (distinct_ofFragment ports f).net?_of_mem h]
  rfl

theorem mem_signals {x : Signal} : x ∈ (Names.ofFragment ports f).signals ↔
    x ∈ ports.map Port.signal ∨ x ∈ mentioned f.comb ∨ x ∈ mentioned f.sync := by
  have hrole := role_ofFragment ports f x
  have hport : (direction? ports x).isSome ↔ x ∈ ports.map Port.signal := by
    simp [direction?]
  rw [← not_iff_not, Names.signals, ← net?_eq_none, ← hport]
  rw [Names.role] at hrole
  split at hrole
  · rename_i h
    rw [Option.map_eq_some_iff] at hrole
    obtain ⟨net, hnet, -⟩ := hrole
    simp [hnet, h]
  · rename_i h
    rw [Option.map_eq_none_iff] at hrole
    simp only [hrole, true_iff]
    exact h

theorem direction?_of_mem (hports : (ports.map Port.signal).Nodup) {p : Port} (hp : p ∈ ports) :
    direction? ports p.signal = some p.direction := by
  have hnodup : (ports.reverse.map Port.signal).Nodup := by
    rw [map_reverse]
    exact nodup_reverse.mpr hports
  rw [direction?, find?_of_nodup hnodup (mem_reverse.mpr hp), Option.map_some]

theorem mem_of_direction? {x : Signal} {dir : Direction}
    (h : direction? ports x = some dir) : ⟨x, dir⟩ ∈ ports := by
  obtain ⟨p, hp, rfl⟩ := Option.map_eq_some_iff.mp h
  obtain rfl : p.signal = x := by simpa using find?_some hp
  exact mem_reverse.mp (mem_of_find?_eq_some hp)

/-- Whether something in a fragment drives a signal. -/
def Driven (f : Fragment) (x : Signal) : Prop := x ∈ targets f.comb ∨ x ∈ targets f.sync

instance (f : Fragment) : DecidablePred (Driven f) := fun _ => inferInstanceAs (Decidable (_ ∨ _))

theorem driven_of_mem (h : net ∈ (Names.ofFragment ports f).nets) :
    net.driven = decide (Driven f net.signal) := by
  obtain ⟨hcomb, hsync, -⟩ := role_of_mem h
  rw [Net.driven, hcomb, hsync, Bool.eq_iff_iff]
  simp only [Bool.or_eq_true, decide_eq_true_eq]
  rfl

theorem width_portOf? {p : PortDecl} (h : portOf? net = some p) :
    p.ident = net.ident ∧ p.width = net.signal.bits := by
  unfold portOf? at h
  split at h
  · cases h
    exact ⟨rfl, rfl⟩
  · obtain ⟨_, -, rfl⟩ := Option.map_eq_some_iff.mp h
    exact ⟨rfl, rfl⟩

end Nets

/-! ### Widths -/

/-- A width between 1 and 64. -/
def fits (width : Int) : Bool := 1 ≤ width && width ≤ 64

/-- Whether all nodes of a value are there and have widths between 1 and 64. -/
def isSized : Value → Bool
  | .hole => false
  | .signal s => fits s.bits
  | .const _ l => fits l.bits
  | .binary tag op l r => fits (Value.binary tag op l r).width && (isSized l && isSized r)
  | .slice tag x lo hi => fits (Value.slice tag x lo hi).width && isSized x

/-- The values that a statement holds itself. -/
def ownValues : Circuit.Stmt → List Value
  | .assign _ v => [v]
  | .branch test _ _ => [test]
  | .select test _ _ => [test]
  | _ => []

theorem values_subset (h : v ∈ values s) : v ∈ ownValues s := by
  cases s with
  | hole | marker => simp [values] at h
  | assign | branch => exact h
  | select test arms other =>
    simp only [values] at h
    split at h
    · cases h
    · exact h

theorem regular_of_mem_values {bound : Nat} (hs : s.Regular bound) (h : v ∈ values s) :
    v.Regular := by
  have hown := values_subset h
  cases s with
  | hole | marker => exact hs.elim
  | assign t u =>
    obtain rfl := mem_singleton.mp hown
    exact hs.2
  | branch test yes no =>
    obtain rfl := mem_singleton.mp hown
    exact hs
  | select test arms other =>
    obtain rfl := mem_singleton.mp hown
    obtain ⟨x, rfl, -⟩ := hs
    exact Value.regular_signal x

/-- A fragment in which every value node has a width between 1 and 64. -/
def Sized (f : Fragment) : Prop :=
  ∀ s ∈ walk f.comb ++ walk f.sync, ∀ v ∈ ownValues s, isSized v = true

instance (f : Fragment) : Decidable (Sized f) := inferInstanceAs (Decidable (∀ s ∈ _, _))

/-- A fragment in which no left shift has an amount of negative width. -/
def Measured (f : Fragment) : Prop :=
  ∀ s ∈ walk f.comb ++ walk f.sync, ∀ v ∈ ownValues s, v.Measured

instance (f : Fragment) : Decidable (Measured f) := inferInstanceAs (Decidable (∀ s ∈ _, _))

theorem fits_iff {width : Int} : fits width = true ↔ 1 ≤ width ∧ width ≤ 64 := by simp [fits]

section

variable (h : isSized v = true)

include h

theorem width_of_isSized : 1 ≤ v.width ∧ v.width ≤ 64 := by
  cases v with
  | hole => cases h
  | signal | const => exact fits_iff.mp h
  | binary | slice =>
    simp only [isSized, Bool.and_eq_true] at h
    exact fits_iff.mp h.1

theorem isSized_of_mem_walk {u : Value} (hu : u ∈ v.walk) : isSized u = true := by
  refine Value.of_mem_walk (P := fun u => isSized u = true) hu h (fun h => ?_) fun h => ?_ <;>
  · simp only [isSized, Bool.and_eq_true] at h
    exact h.2

theorem whole_of_isSized : v.Whole := by
  induction v with
  | hole => cases h
  | signal | const => trivial
  | binary tag op l r ihl ihr =>
    simp only [isSized, Bool.and_eq_true] at h
    exact ⟨ihl h.2.1, ihr h.2.2⟩
  | slice tag x lo hi ih =>
    simp only [isSized, Bool.and_eq_true] at h
    exact ih h.2

theorem measured_of_isSized : v.Measured := by
  intro u hu
  have hsized := isSized_of_mem_walk h hu
  unfold Value.shiftFits
  split
  · simp only [isSized, Bool.and_eq_true] at hsized
    have hwidth := width_of_isSized hsized.2.2
    simp only [Bool.or_eq_true, decide_eq_true_eq]
    omega
  · rfl

end

theorem eval_total (hregular : v.Regular) (hwhole : v.Whole) (hmeasured : v.Measured)
    (σ : Valuation) : eval σ v = .ok (denote σ v) := by
  obtain ⟨ss, hbuilt⟩ := hregular
  rw [eval, (Value.fault?_eq_none_iff hbuilt hwhole).mpr hmeasured]

theorem one_le_of_mem_reads {x : Signal} (h : isSized v = true) (hx : x ∈ v.reads) : 1 ≤ x.bits :=
  (fits_iff.mp (isSized_of_mem_walk h (Value.signal_mem_walk.mpr hx))).1

/-! ### What can be written -/

theorem exists_mapM_iff {ε α β : Type} {f : α → Except ε β} {l : List α} :
    (∃ bs, l.mapM f = .ok bs) ↔ ∀ a ∈ l, ∃ b, f a = .ok b := by
  induction l with
  | nil => exact ⟨fun _ => nofun, fun _ => ⟨[], rfl⟩⟩
  | cons a l ih =>
    rw [forall_mem_cons, ← ih, mapM_cons]
    constructor
    · rintro ⟨bs, h⟩
      obtain ⟨b, bs', hb, hbs, -⟩ := bind₂_eq_ok.mp h
      exact ⟨⟨b, hb⟩, bs', hbs⟩
    · rintro ⟨⟨b, hb⟩, bs, hbs⟩
      rw [hb, hbs]
      exact ⟨_, rfl⟩

/-- A fragment as designs have them, to be written as a module with the given ports. -/
structure Proper (ports : List Port) (f : Fragment) : Prop where
  noMarker : f.firstMarker? = none
  regular : ∀ s ∈ walk f.comb ++ walk f.sync, s.Regular 0
  sized : Sized f
  feedForward : FeedForward f
  domains : ∀ x ∈ targets f.sync, x ∉ targets f.comb
  inputs : ∀ x, direction? ports x = some .input → ¬ Driven f x
  outputs : ∀ x ∈ reads f.comb ++ reads f.sync, direction? ports x ≠ some .output
  plain : ∀ p ∈ ports, 1 ≤ p.signal.bits

theorem exists_exprOf (n : Names) (h : v.Whole) : ∃ e, exprOf n v = .ok e := by
  induction v with
  | hole => exact h.elim
  | signal | const | slice => exact ⟨_, rfl⟩
  | binary tag op l r ihl ihr =>
    obtain ⟨left, hleft⟩ := ihl h.1
    obtain ⟨right, hright⟩ := ihr h.2
    rw [exprOf]
    split
    · exact ⟨_, rfl⟩
    · rw [hleft, hright]
      exact ⟨_, rfl⟩

/-- A statement that is neither missing nor a marker, and no part of its values is missing. -/
structure Complete (s : Circuit.Stmt) : Prop where
  there : s ≠ .hole
  resolved : ∀ m, s ≠ .marker m
  whole : ∀ v ∈ ownValues s, v.Whole

/-- A statement that is there with all its values. -/
def Present (s : Circuit.Stmt) : Prop := s.Regular 0 ∧ ∀ v ∈ ownValues s, v.Whole

theorem Present.complete (h : Present s) : Complete s where
  there := by
    rintro rfl
    exact h.1
  resolved := by
    rintro m rfl
    exact h.1
  whole := h.2

/-- A statement that can be written: it is there, and its values are sized. -/
def Writable (s : Circuit.Stmt) : Prop := s.Regular 0 ∧ ∀ v ∈ ownValues s, isSized v = true

theorem Writable.present (h : Writable s) : Present s :=
  ⟨h.1, fun v hv => whole_of_isSized (h.2 v hv)⟩

theorem exists_stmtsOfOption (n : Names) {o : Option (List Circuit.Stmt)}
    (h : ∀ ss ∈ o.toList, ∃ body, stmtsOf n ss = .ok body) :
    ∃ body, stmtsOfOption n o = .ok body := by
  match o with
  | none | some [] => exact ⟨_, rfl⟩
  | some (s :: ss) =>
    obtain ⟨body, hbody⟩ := h (s :: ss) mem_cons_self
    obtain ⟨a, b, ha, hb, -⟩ := bind₂_eq_ok.mp hbody
    rw [stmtsOfOption, ha, hb]
    exact ⟨_, rfl⟩

theorem exists_armsOf (n : Names) (width : Int) {arms : List (Literal × List Circuit.Stmt)}
    (h : ∀ ss ∈ arms.map Prod.snd, ∃ body, stmtsOf n ss = .ok body) :
    ∃ body, armsOf n width arms = .ok body := by
  induction arms with
  | nil => exact ⟨_, rfl⟩
  | cons arm arms ih =>
    obtain ⟨⟨a, ha⟩, harms⟩ := forall_mem_cons.mp h
    obtain ⟨b, hb⟩ := ih harms
    rw [armsOf, ha, hb]
    exact ⟨_, rfl⟩

theorem exists_stmtsOf (n : Names) (ss : List Circuit.Stmt) (h : ∀ t ∈ walk ss, Complete t) :
    ∃ body, stmtsOf n ss = .ok body := by
  induction ss using blocks_induct with
  | nil => exact ⟨_, rfl⟩
  | cons s ss ihs ih =>
    simp only [walk, s.walk_eq_cons, cons_append, forall_mem_cons, forall_mem_append] at h
    obtain ⟨hself, hblocks, hrest⟩ := h
    have hvalue : ∀ v ∈ ownValues s, ∃ e, exprOf n v = .ok e := fun v hv =>
      exists_exprOf n (hself.whole v hv)
    have hblock : ∀ body ∈ s.blocks, ∃ b, stmtsOf n body = .ok b := fun body hbody =>
      ihs body hbody fun t ht => hblocks t (mem_flatMap_of_mem hbody ht)
    have hstmt : ∃ a, stmtOf n s = .ok a := by
      cases s with
      | hole => exact absurd rfl hself.there
      | marker m => exact absurd rfl (hself.resolved m)
      | assign t v =>
        obtain ⟨e, he⟩ := hvalue v mem_cons_self
        rw [stmtOf, he]
        exact ⟨_, rfl⟩
      | branch test yes no =>
        obtain ⟨e, he⟩ := hvalue test mem_cons_self
        obtain ⟨⟨a, ha⟩, hno⟩ := forall_mem_cons.mp hblock
        obtain ⟨b, hb⟩ := exists_stmtsOfOption n hno
        rw [stmtOf, he, ha, hb]
        exact ⟨_, rfl⟩
      | select test arms other =>
        obtain ⟨e, he⟩ := hvalue test mem_cons_self
        obtain ⟨harms, hother⟩ := forall_mem_append.mp hblock
        obtain ⟨a, ha⟩ := exists_armsOf n test.width harms
        obtain ⟨b, hb⟩ := exists_stmtsOfOption n hother
        rw [stmtOf, he, ha, hb]
        split <;> exact ⟨_, rfl⟩
    obtain ⟨a, ha⟩ := hstmt
    obtain ⟨b, hb⟩ := ih hrest
    rw [stmtsOf, ha, hb]
    exact ⟨_, rfl⟩

theorem node_of_mem_wires {w : Wire} (hw : w ∈ (Names.ofFragment ports f).wires) :
    (∃ s ∈ walk f.comb ++ walk f.sync, ∃ v ∈ values s, w.node ∈ v.walk) ∧
      wireWidth? w.node = some w.width := by
  have hwidth : (Names.ofFragment ports f).width? w.node = some w.width := by
    rw [Names.width?, (distinct_ofFragment ports f).wire?_of_mem hw, Option.map_some]
  rw [width?_ofFragment] at hwidth
  split at hwidth
  · rename_i hnode
    exact ⟨by simpa only [nodes, mem_flatMap, mem_append, or_and_right, exists_or] using hnode,
      hwidth⟩
  · cases hwidth

/-- Only a missing part or a marker keeps a fragment with names from being written. -/
theorem exists_moduleOf (h : ∀ s ∈ walk f.comb ++ walk f.sync, Complete s) (name digest : String) :
    ∃ m, moduleOf name digest (Names.ofFragment ports f) f = .ok m := by
  have hwire : ∀ w ∈ (Names.ofFragment ports f).wires,
      ∃ decl, wireDecl (Names.ofFragment ports f) w = .ok decl := by
    intro w hw
    obtain ⟨⟨s, hs, v, hv, hnode⟩, -⟩ := node_of_mem_wires hw
    have hwhole := ((h s hs).whole v (values_subset hv)).of_mem_walk hnode
    have hvalue : ∃ e, wireValue (Names.ofFragment ports f) w = .ok e := by
      unfold wireValue
      split
      · rename_i hnode
        rw [hnode] at hwhole
        obtain ⟨l, hl⟩ := exists_exprOf (Names.ofFragment ports f) hwhole.1
        obtain ⟨r, hr⟩ := exists_exprOf (Names.ofFragment ports f) hwhole.2
        rw [hl, hr]
        exact ⟨_, rfl⟩
      · rename_i hnode
        rw [hnode] at hwhole
        exact exists_exprOf _ hwhole
      · exact exists_exprOf _ hwhole
    obtain ⟨e, he⟩ := hvalue
    rw [wireDecl, he]
    exact ⟨_, rfl⟩
  have hblock : ∀ driven ss, (∀ s ∈ walk ss, Complete s) →
      ∃ b, blockOf (Names.ofFragment ports f) driven ss = .ok b := by
    intro driven ss hss
    obtain ⟨body, hbody⟩ := exists_stmtsOf (Names.ofFragment ports f) ss hss
    rw [blockOf, hbody]
    split <;> exact ⟨_, rfl⟩
  obtain ⟨wires, hwires⟩ := exists_mapM_iff.mpr fun w hw => hwire w (mem_reverse.mp hw)
  obtain ⟨hcomb, hsync⟩ := forall_mem_append.mp h
  obtain ⟨comb, hcomb⟩ := hblock Net.comb f.comb hcomb
  obtain ⟨sync, hsync⟩ := hblock Net.sync f.sync hsync
  unfold moduleOf
  rw [show (fun w => do
    let value ← wireValue (Names.ofFragment ports f) w
    return Decl.wire w.width w.ident value) = wireDecl (Names.ofFragment ports f) from rfl, hwires,
    hcomb, hsync]
  exact ⟨_, rfl⟩

/-- A fragment that is finished: nothing in it is missing, no signal has two kinds of drivers, and
no input is driven. -/
structure Finished (ports : List Port) (f : Fragment) : Prop where
  noMarker : f.firstMarker? = none
  regular : ∀ s ∈ walk f.comb ++ walk f.sync, s.Regular 0
  whole : ∀ s ∈ walk f.comb ++ walk f.sync, ∀ v ∈ ownValues s, v.Whole
  domains : ∀ x ∈ targets f.sync, x ∉ targets f.comb
  inputs : ∀ x, direction? ports x = some .input → ¬ Driven f x

namespace Finished

theorem present (h : Finished ports f) : ∀ s ∈ walk f.comb ++ walk f.sync, Present s := fun s hs =>
  ⟨h.regular s hs, h.whole s hs⟩

theorem netFault?_eq_none (h : Finished ports f) {net : Net}
    (hnet : net ∈ (Names.ofFragment ports f).nets) : netFault? net = none := by
  obtain ⟨hcomb, hsync, hport⟩ := role_of_mem hnet
  have hdomains : (net.comb && net.sync) = false := by
    rw [hcomb, hsync, Bool.and_eq_false_iff]
    by_cases hs : net.signal ∈ targets f.sync
    · exact .inl (decide_eq_false (h.domains _ hs))
    · exact .inr (decide_eq_false hs)
  have hinput : (decide (net.port = some .input) && net.driven) = false := by
    rw [driven_of_mem hnet, hport, Bool.and_eq_false_iff]
    by_cases hp : direction? ports net.signal = some .input
    · exact .inr (decide_eq_false (h.inputs _ hp))
    · exact .inl (decide_eq_false hp)
  simp [netFault?, hdomains, hinput]

/-- The widths that a module needs are known where no left shift has an amount of negative width. -/
theorem valueMeasurable_iff (h : v.Whole) : valueMeasurable v = true ↔ v.Measured := by
  rw [valueMeasurable, all_eq_true]
  constructor
  · intro hall u hu
    have hnode := hall u hu
    unfold Value.shiftFits
    split
    · rename_i tag l r
      have hmeasurable : (Value.binary tag .shl l r).measurable = true := hnode
      exact (Value.measurable_binary.mp hmeasurable).2
    · rfl
  · intro hmeasured u hu
    have hwhole := h.of_mem_walk hu
    have hu' := Value.Measured.of_mem_walk hmeasured hu
    cases u with
    | hole | signal | const => rfl
    | binary tag op l r => simp [nodeMeasurable, Value.measurable_of_measured hwhole hu']
    | slice tag x lo hi =>
      simp [nodeMeasurable, Value.measurable_of_measured (v := x) hwhole
        (Value.measured_slice.mp hu')]

/-- The tests of selections are signals, and so have widths. -/
theorem stmtMeasurable_iff (h : Present s) :
    stmtMeasurable s = true ↔ ∀ v ∈ ownValues s, v.Measured := by
  obtain ⟨hregular, hwhole⟩ := h
  cases s with
  | hole | marker => simp [stmtMeasurable, ownValues]
  | assign t v =>
    simpa [stmtMeasurable, ownValues] using valueMeasurable_iff (hwhole v (by simp [ownValues]))
  | branch test yes no =>
    simpa [stmtMeasurable, ownValues] using
      valueMeasurable_iff (hwhole test (by simp [ownValues]))
  | select test arms other =>
    obtain ⟨x, rfl, -⟩ := hregular
    simp [stmtMeasurable, ownValues, valueMeasurable, nodeMeasurable, Value.walk, Value.Measured,
      Value.shiftFits]

theorem everywhere_iff (h : Finished ports f) :
    everywhere stmtMeasurable f = true ↔ Measured f := by
  rw [everywhere, ← all_append, all_eq_true]
  exact forall₂_congr fun s hs => stmtMeasurable_iff (h.present s hs)

theorem everywhere_arms (h : Finished ports f) : everywhere armsMeasurable f = true := by
  rw [everywhere, ← all_append, all_eq_true]
  intro s hs
  cases s with
  | hole | marker | assign | branch => rfl
  | select test arms other =>
    obtain ⟨x, rfl, -⟩ := h.regular _ hs
    simp [armsMeasurable, Value.measurable]

/-- **A finished fragment can be written exactly if no left shift in it has an amount of negative
width.** -/
theorem exists_module_iff (h : Finished ports f) (name digest : String) :
    (∃ m, ofFragment name digest ports f = .ok m) ↔ Measured f := by
  constructor
  · rintro ⟨m, hm⟩
    exact h.everywhere_iff.mp (ofFragment_eq_ok.mp hm).2.1
  · intro hmeasured
    obtain ⟨m, hm⟩ := exists_moduleOf (fun s hs => (h.present s hs).complete) name digest
    exact ⟨m, ofFragment_eq_ok.mpr ⟨h.noMarker, h.everywhere_iff.mpr hmeasured,
      findSome?_eq_none_iff.mpr fun net hnet => h.netFault?_eq_none hnet, h.everywhere_arms, hm⟩⟩

end Finished

namespace Proper

theorem finished (h : Proper ports f) : Finished ports f where
  noMarker := h.noMarker
  regular := h.regular
  whole := fun s hs v hv => whole_of_isSized (h.sized s hs v hv)
  domains := h.domains
  inputs := h.inputs

/-- **A proper fragment can be written.** -/
theorem exists_module (h : Proper ports f) (name digest : String) :
    ∃ m, ofFragment name digest ports f = .ok m :=
  (h.finished.exists_module_iff name digest).mpr fun s hs v hv =>
    measured_of_isSized (h.sized s hs v hv)

end Proper

end Sequencer.Verilog

namespace Sequencer

open Circuit Lowering Verilog

section Realizes

variable {d : Design} {rs : List Resource} {base : Nat} {p : Plan} {w : Workshop}

variable (h : d.Realizes rs base p w)

include h

theorem mem_portSignals_of_direction? {x : Signal} {dir : Direction}
    (hx : Names.direction? d.ports x = some dir) : x ∈ portSignals rs dir := by
  rw [Design.ports, h.resources] at hx
  exact mem_portSignals.mpr (mem_of_direction? hx)

/-- **Designs are finished**, where no part of their values is missing. -/
theorem Design.Realizes.finished (hw : Wired rs base)
    (hwhole : ∀ s ∈ walk d.fragment.comb ++ walk d.fragment.sync, ∀ v ∈ ownValues s, v.Whole) :
    Finished d.ports d.fragment where
  noMarker := h.noMarker hw
  regular := by
    intro s hs
    obtain hs | hs := List.mem_append.mp hs
    · exact (h.regular_comb hw s hs).mono (Nat.zero_le _)
    · exact (h.regular_sync s hs).mono (Nat.zero_le _)
  whole := hwhole
  domains := h.domains hw
  inputs := fun x hx => not_or.mpr (h.input_undriven hw (mem_portSignals_of_direction? h hx))

/-- **Designs are proper**, where all their values have widths that fit. -/
theorem Design.Realizes.proper (hw : Wired rs base) (hsized : Sized d.fragment) :
    Proper d.ports d.fragment := by
  have hfinished := h.finished hw fun s hs v hv => whole_of_isSized (hsized s hs v hv)
  exact {
    noMarker := hfinished.noMarker
    regular := hfinished.regular
    sized := hsized
    feedForward := h.feedForward hw
    domains := hfinished.domains
    inputs := hfinished.inputs
    outputs := fun x hx hout =>
      h.output_unread hw (List.mem_append.mp hx) (mem_portSignals_of_direction? h hout)
    plain := by
      rw [ports, h.resources]
      exact fun q hq => (hw.plain q hq).1 }

end Realizes

end Sequencer
