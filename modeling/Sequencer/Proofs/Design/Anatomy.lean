import Sequencer.Proofs.Lowering.Growth
import Sequencer.Proofs.Machine.Realization

/-!
# What a design is made of

At the end of a compilation the registers are finalized, the loads become assignments to selectors,
and the states become the arms of one `case`. None of these passes fails for a sound plan, and
`Design.Realizes` is what they come to.
-/

namespace Sequencer

open List
open Circuit Lowering Workshop Machine Bank Duty Build

/-! ### Finalized registers -/

/-- A register whose selector is the signal with the given tag. -/
def Register.withSelector (r : Register) (tag : Nat) : Register :=
  { r with selector := some ⟨tag, "regsel_" ++ r.name, clampWidth r.selectorBits, 0⟩ }

/-- Registers with selectors, whose tags count on from `tag`. -/
def finalized (tag : Nat) : List Register → List Register
  | [] => []
  | r :: rs => r.withSelector tag :: finalized (tag + 1) rs

@[simp]
theorem length_finalized (tag : Nat) (rs : List Register) :
    (finalized tag rs).length = rs.length := by
  induction rs generalizing tag with
  | nil => rfl
  | cons r rs ih => simp [finalized, ih]

theorem getElem?_finalized (tag : Nat) (rs : List Register) (i : Nat) :
    (finalized tag rs)[i]? = (rs[i]?).map fun r => r.withSelector (tag + i) := by
  induction rs generalizing tag i with
  | nil => simp [finalized]
  | cons r rs ih =>
    cases i with
    | zero => simp [finalized]
    | succ i => simp [finalized, ih, Nat.add_assoc, Nat.add_comm 1 i]

/-- A workshop with all its registers finalized. -/
def Lowering.Workshop.finish (w : Workshop) : Workshop :=
  { w with
    supply := w.supply + w.bank.registers.length
    bank := ⟨w.bank.pool, finalized w.supply w.bank.registers⟩ }

theorem Bank.gives_finalize {b : Bank} {id : Nat} {r : Register} (w : Workshop)
    (hr : b.registers[id]? = some r) (hsel : r.selector = none) :
    Gives (ofFresh (b.finalize id)) w (.ok (b.set id (r.withSelector w.supply))) w.tick := by
  have hfin : b.finalize id = (do
      let sel ← Signal.new ("regsel_" ++ r.name) r.selectorBits
      return .ok (b.set id { r with selector := some sel })) := by
    simp only [finalize, get, hr, Register.finalize, hsel, bind_assoc, pure_bind]
  rw [hfin, gives_ofFresh]
  exact ⟨rfl, rfl⟩

namespace Design

theorem gives_finalizeAll (front rest : List Register) {w : Workshop}
    (hw : w.bank.registers = front ++ rest) (hsel : ∀ r ∈ rest, r.selector = none) :
    Gives (finalizeAll (List.range' front.length rest.length)) w () { w with
      supply := w.supply + rest.length
      bank := ⟨w.bank.pool, front ++ finalized w.supply rest⟩ } := by
  induction rest generalizing front w with
  | nil =>
    refine gives_pure.mpr ⟨rfl, ?_⟩
    simp [finalized, ← hw]
  | cons r rest ih =>
    have hr : w.bank.registers[front.length]? = some r := by simp [hw]
    refine gives_bind.mpr ⟨_, _, gives_get.mpr ⟨rfl, rfl⟩, gives_bind.mpr
      ⟨_, _, gives_finalize w hr (hsel r mem_cons_self), ?_⟩⟩
    refine gives_bind.mpr ⟨⟨⟩, _, gives_modify.mpr rfl, ?_⟩
    have hrest := ih (front ++ [r.withSelector w.supply])
      (w := { w.tick with bank := w.bank.set front.length (r.withSelector w.supply) })
      (by simp [Bank.set, hw]) fun x hx => hsel x (mem_cons_of_mem _ hx)
    simpa [Bank.set, finalized, Workshop.tick, Nat.add_assoc, Nat.add_comm 1] using hrest

end Design

/-! ### Bodies of states -/

namespace Lowering

/-- The states that a duty may go to, other than the one that follows. -/
def Duty.jumps (label : StateId) : Duty → List StateId
  | .act (.store _) => []
  | .act (.send ..) => [label]
  | .act (.receive ..) => [label]
  | .guard _ yes no => yes :: no.toList

/-- The states that a node may go to. -/
def Node.jumps (n : Node) : List StateId := n.next.toList ++ n.duty.jumps n.label

section Leaves

variable {ε : Type} {f : Stmt → Except ε Stmt}

theorem mapLeaves_map_ok {α : Type} {g h : α → Stmt} {l : List α}
    (hl : ∀ a ∈ l, (g a).mapLeaves f = .ok (h a)) : mapLeaves f (l.map g) = .ok (l.map h) := by
  rw [mapLeaves_eq_ok, forall₂_map_left_iff, forall₂_map_right_iff, forall₂_same]
  exact fun a ha => (mapLeavesStmt_eq_ok _).mp (hl a ha)

theorem mapLeaves_append_ok {ss ts ss' ts' : List Stmt} (hs : mapLeaves f ss = .ok ss')
    (ht : mapLeaves f ts = .ok ts') : mapLeaves f (ss ++ ts) = .ok (ss' ++ ts') := by
  rw [mapLeaves_eq_ok] at *
  exact rel_append hs ht

variable {jump jump' : StateId → Stmt} {load load' : RegisterId → SourceId → Stmt}

theorem Node.mapLeaves_body {n : Node} (hassign : ∀ t v, f (.assign t v) = .ok (.assign t v))
    (hjump : ∀ l ∈ n.jumps, (jump l).mapLeaves f = .ok (jump' l))
    (hload : ∀ x ∈ n.duty.loads, (load x.1 x.2).mapLeaves f = .ok (load' x.1 x.2)) :
    mapLeaves f (n.body jump load) = .ok (n.body jump' load') := by
  obtain ⟨label, next, duty⟩ := n
  have hnext : mapLeaves f (next.toList.map jump) = .ok (next.toList.map jump') :=
    mapLeaves_map_ok fun l hl => hjump l (by simp [Node.jumps] at hl ⊢; exact .inl hl)
  refine mapLeaves_append_ok hnext ?_
  have hduty : ∀ l ∈ duty.jumps label, (jump l).mapLeaves f = .ok (jump' l) :=
    fun l hl => hjump l (mem_append_right _ hl)
  cases duty with
  | store loads => exact mapLeaves_map_ok fun l hl => hload l hl
  | send c data tag =>
    have hlabel := hduty label (by simp [Duty.jumps])
    simp [Duty.body, Act.body, mapLeaves, Stmt.mapLeaves, mapLeavesOption, hassign, hlabel,
      bind, Except.bind, pure, Except.pure]
  | receive c id source =>
    have hlabel := hduty label (by simp [Duty.jumps])
    have hx := hload (id, source) (by simp [Duty.loads])
    simp [Duty.body, Act.body, mapLeaves, Stmt.mapLeaves, mapLeavesOption, hassign, hlabel,
      hx, bind, Except.bind, pure, Except.pure]
  | guard test yes no =>
    have hyes := hduty yes (by simp [Duty.jumps])
    cases no with
    | none =>
      simp [Duty.body, mapLeaves, Stmt.mapLeaves, mapLeavesOption, hyes, bind, Except.bind,
        pure, Except.pure]
    | some l =>
      have hno := hduty l (by simp [Duty.jumps])
      simp [Duty.body, mapLeaves, Stmt.mapLeaves, mapLeavesOption, hyes, hno, bind,
        Except.bind, pure, Except.pure]

end Leaves

/-! ### Nodes of a plan -/

variable {rs : List Resource}

theorem Duty.Sound.recorded {w : Workshop} {d : Duty} (h : d.Sound rs w) :
    ∀ x ∈ d.loads, ∃ v, w.Recorded x.1 x.2 v := by
  cases d with
  | store loads => exact fun l hl => (h l hl).imp fun _ hv => hv.1
  | receive c id source => exact forall_mem_singleton.mpr ⟨_, h.2⟩
  | send c data tag | guard test yes no => exact nofun

namespace Plan

variable {p : Plan} {after : Option StateId}

theorem Sound.of_mem_nodes {w : Workshop} (hp : p.Sound rs w) {n : Node} (hn : n ∈ p.nodes after) :
    n.duty.Sound rs w :=
  hp.duties _ (duty_mem_duties hn)

theorem entry_cases {l : StateId} (h : p.entry after = some l) : l ∈ p.labels ∨ after = some l := by
  cases p <;> simp_all [entry, labels]

theorem entry_mem (h : p ≠ finish) : ∃ l ∈ p.labels, ∀ after, p.entry after = some l := by
  cases p <;> simp_all [entry, labels]

/-- **Control stays within the plan** until it goes on to what follows. -/
theorem Guarded.jumps_of_mem_nodes (hp : p.Guarded) {n : Node} (hn : n ∈ p.nodes after) :
    ∀ l ∈ n.jumps, l ∈ p.labels ∨ after = some l := by
  induction p generalizing after with
  | finish => simp [nodes] at hn
  | act label a rest ih =>
    simp only [nodes, mem_cons] at hn
    obtain rfl | hn := hn
    · intro l hl
      obtain hl | hl := mem_append.mp hl
      · exact (entry_cases (Option.mem_toList.mp hl)).imp_left fun h => by simp [labels, h]
      · left
        cases a <;> simp_all [jumps, labels]
    · exact fun l hl => (ih hp hn l hl).imp_left fun h => by simp [labels, h]
  | cond label test yes no rest ihy ihn ih =>
    obtain ⟨hne, hy, hno, hr⟩ := hp
    have hrest : ∀ l, rest.entry after = some l →
        l ∈ (cond label test yes no rest).labels ∨ after = some l :=
      fun l hl => (entry_cases hl).imp_left fun h => by simp [labels, h]
    simp only [nodes, mem_cons, mem_append] at hn
    obtain rfl | (hn | hn) | hn := hn
    · intro l hl
      simp only [Node.jumps, jumps, mem_append, mem_cons, Option.mem_toList] at hl
      obtain hl | rfl | hl := hl
      · split at hl
        · exact hrest l hl
        · cases hl
      · obtain ⟨m, hmem, hm⟩ := entry_mem hne
        exact .inl (by simp [hm, labels, hmem])
      · obtain h | h := entry_cases hl
        · exact .inl (by simp [labels, h])
        · cases h
    · intro l hl
      obtain h | h := ihy hy hn l hl
      · exact .inl (by simp [labels, h])
      · exact hrest l h
    · intro l hl
      obtain h | h := ihn hno hn l hl
      · exact .inl (by simp [labels, h])
      · exact hrest l h
    · exact fun l hl => (ih hr hn l hl).imp_left fun h => by simp [labels, h]
  | loop label test body rest ihb ih =>
    obtain ⟨hne, hb, hr⟩ := hp
    simp only [nodes, mem_cons, mem_append] at hn
    obtain rfl | hn | hn := hn
    · intro l hl
      simp only [Node.jumps, jumps, mem_append, mem_cons, Option.mem_toList,
        reduceCtorEq, or_false] at hl
      obtain hl | rfl := hl
      · exact (entry_cases hl).imp_left fun h => by simp [labels, h]
      · obtain ⟨m, hmem, hm⟩ := entry_mem hne
        exact .inl (by simp [hm, labels, hmem])
    · -- What follows the body is the test of the loop.
      intro l hl
      obtain h | h := ihb hb hn l hl
      · exact .inl (by simp [labels, h])
      · cases h
        exact .inl (by simp [labels])
    · exact fun l hl => (ih hr hn l hl).imp_left fun h => by simp [labels, h]

end Plan

end Lowering

/-! ### Loads and transitions in hardware -/

namespace Bank

def selector (b : Bank) (id : RegisterId) : Signal :=
  ((b.registers[id]?).bind Register.selector).getD default

/-- The code of a source of the register at a place. -/
def code (b : Bank) (id : RegisterId) (source : SourceId) : Nat :=
  ((b.registers[id]?).bind fun r => r.code? source).getD 0

def loadStmt (b : Bank) (id : RegisterId) (source : SourceId) : Stmt :=
  .assign (b.selector id)
    (.ofLiteral (.sized (Int64.ofNat (b.code id source)) (b.selector id).bits))

def loadLogic (b : Bank) (r : Register) : Stmt :=
  .select (.signal (r.selector.getD default))
    ((b.sourceValues r).mapIdx fun i v =>
      (Literal.sized (Int64.ofNat (i + 1)) (r.selector.getD default).bits,
        [Stmt.assign r.storage v])) none

variable {b : Bank} {id : RegisterId} {source : SourceId}

theorem lower_of_isSome {r : Register} (h : r.selector.isSome) :
    b.lower r = ⟨[], [b.loadLogic r]⟩ := by
  obtain ⟨sel, hsel⟩ := Option.isSome_iff_exists.mp h
  simp [lower, loadLogic, hsel]

theorem resolveLoad_eq {r : Register} (hr : b.registers[id]? = some r) (hsel : r.selector.isSome)
    (hs : source ∈ r.sources) :
    b.resolveLoad (loadMarker id source) = .ok (b.loadStmt id source) := by
  obtain ⟨sel, hsel⟩ := Option.isSome_iff_exists.mp hsel
  obtain ⟨i, hi⟩ := Option.isSome_iff_exists.mp (isSome_idxOf?.mpr hs)
  simp [resolveLoad, loadMarker, get, hr, Register.resolve, hsel, Register.code?, hi, loadStmt,
    selector, code, bind, Except.bind]

theorem resolveLoad_eq_ok {s' : Stmt} (h : b.resolveLoad (.marker (.load id source)) = .ok s') :
    ∃ r sel code, b.registers[id]? = some r ∧ r.selector = some sel ∧
      r.code? source = some code ∧
        s' = .assign sel (.ofLiteral (.sized (Int64.ofNat code) sel.bits)) := by
  obtain ⟨r, hr, h⟩ := Simulation.bind_eq_ok.mp h
  unfold get at hr
  unfold Register.resolve at h
  split at hr
  · cases hr
    split at h
    · cases h
    · split at h
      · cases h
      · cases h
        exact ⟨_, _, _, ‹_›, ‹_›, ‹_›, rfl⟩
  · cases hr

theorem loadStmt_of_resolveLoad {s' : Stmt} (h : b.resolveLoad (loadMarker id source) = .ok s') :
    s' = b.loadStmt id source := by
  obtain ⟨r, sel, code, hr, hsel, hcode, rfl⟩ := resolveLoad_eq_ok h
  simp [loadStmt, selector, Bank.code, hr, hsel, hcode]

end Bank

namespace Machine

theorem lowerTransition_goto {m : Machine} {l : StateId} (h : l ∈ m.states.map State.label)
    (i : Nat) : (goto l).mapLeaves (m.lowerTransition i) = .ok (m.jumpStmt l) := by
  obtain ⟨k, hk⟩ := Option.isSome_iff_exists.mp (indexIn_isSome_iff.mpr h)
  simp [goto, Stmt.mapLeaves, lowerTransition, jumpStmt, index?, hk]

end Machine

namespace Design

/-- The arms for the nodes from number `i` on. -/
def armsFrom (m : Machine) (b : Bank) (i : Nat) : List Node → List (Literal × List Stmt)
  | [] => []
  | n :: ns => (m.code i, n.body m.jumpStmt b.loadStmt) :: armsFrom m b (i + 1) ns

/-- The machine of some nodes as hardware. -/
def machineLogic (m : Machine) (b : Bank) (nodes : List Node) : Fragment :=
  if nodes.isEmpty then .empty
  else {
    comb :=
      [.assign m.next (.signal m.state), .select (.signal m.state) (armsFrom m b 0 nodes) none]
    sync := [.assign m.state (.signal m.next)] }

def resolvedState (b : Bank) (n : Node) : State := ⟨n.label, n.body goto b.loadStmt⟩

theorem resolveAll_ok {b : Bank} {nodes : List Node} (i : Nat)
    (h : ∀ n ∈ nodes, ∀ x ∈ n.duty.loads,
      b.resolveLoad (loadMarker x.1 x.2) = .ok (b.loadStmt x.1 x.2)) :
    resolveAll b i (nodes.map Node.state) = .ok (nodes.map (resolvedState b)) := by
  induction nodes generalizing i with
  | nil => rfl
  | cons n nodes ih =>
    have hbody : mapLeaves b.resolveLoad n.state.body = .ok (n.body goto b.loadStmt) := by
      refine Node.mapLeaves_body (fun _ _ => rfl) (fun _ _ => rfl) fun x hx => ?_
      exact h n mem_cons_self x hx
    rw [map_cons, resolveAll, hbody]
    simp only [ih (i + 1) fun m hm => h m (mem_cons_of_mem _ hm), bind, Except.bind]
    rfl

theorem arms_ok {m : Machine} {b : Bank} {nodes : List Node} (i : Nat)
    (h : ∀ n ∈ nodes, ∀ l ∈ n.jumps, l ∈ m.states.map State.label) :
    m.arms i (nodes.map (resolvedState b)) = .ok (armsFrom m b i nodes) := by
  induction nodes generalizing i with
  | nil => rfl
  | cons n nodes ih =>
    have hbody : mapLeaves (m.lowerTransition i) (resolvedState b n).body =
        .ok (n.body m.jumpStmt b.loadStmt) :=
      Node.mapLeaves_body (fun _ _ => rfl)
        (fun l hl => lowerTransition_goto (h n mem_cons_self l hl) i)
        (fun _ _ => rfl)
    rw [map_cons, arms, hbody, ih (i + 1) fun m hm => h m (mem_cons_of_mem _ hm)]
    rfl

/-- The machine that a list of resolved nodes is realized as. -/
def machineOf (tag : Nat) (b : Bank) (nodes : List Node) : Machine where
  states := nodes.map (resolvedState b)
  state := ⟨tag, "state", clampWidth (stateBits nodes.length), 0⟩
  next := ⟨tag + 1, "next_state", clampWidth (stateBits nodes.length), 0⟩

theorem gives_realize (b : Bank) (nodes : List Node) (w : Workshop)
    (hnodup : (nodes.map Node.label).Nodup)
    (hjumps : ∀ n ∈ nodes, ∀ l ∈ n.jumps, l ∈ nodes.map Node.label) :
    Gives (realize (nodes.map (resolvedState b))) w
      (machineOf w.supply b nodes, machineLogic (machineOf w.supply b nodes) b nodes)
      { w with supply := w.supply + 2 } := by
  have hlabels : (nodes.map (resolvedState b)).map State.label = nodes.map Node.label := by
    simp [resolvedState, Function.comp_def]
  have hcollect : Machine.collect [] ((nodes.map (resolvedState b)).map some) =
      .ok (nodes.map (resolvedState b)) := by
    refine collect_ok (show (([] ++ nodes.map (resolvedState b)).map _).Nodup from ?_)
    rw [nil_append, hlabels]
    exact hnodup
  have hmachine : Gives (ofFresh (Machine.realize ((nodes.map (resolvedState b)).map some))) w
      (.ok (machineOf w.supply b nodes)) { w with supply := w.supply + 2 } := by
    unfold Machine.realize
    rw [hcollect, gives_ofFresh]
    simp only [length_map]
    exact ⟨rfl, rfl⟩
  have hfragment : (machineOf w.supply b nodes).fragment =
      .ok (machineLogic (machineOf w.supply b nodes) b nodes) := by
    have harms : (machineOf w.supply b nodes).arms 0 (machineOf w.supply b nodes).states =
        .ok (armsFrom (machineOf w.supply b nodes) b 0 nodes) :=
      arms_ok 0 fun n hn l hl => by
        show l ∈ (nodes.map (resolvedState b)).map State.label
        rw [hlabels]
        exact hjumps n hn l hl
    unfold Machine.fragment machineLogic
    rw [harms]
    cases nodes with
    | nil => rfl
    | cons n nodes => rfl
  refine gives_bind.mpr ⟨_, _, hmachine, ?_⟩
  simp only [hfragment]
  exact gives_pure.mpr ⟨rfl, rfl⟩

theorem filterMap_getElem?_range {α : Type} (l : List α) :
    (List.range l.length).filterMap (fun i => l[i]?) = l := by
  induction l with
  | nil => rfl
  | cons a l ih =>
    rw [length_cons, range_succ_eq_map, filterMap_cons]
    simpa [filterMap_map, Function.comp_def] using ih

/-- **What a compiled design is made of**: the plan `p` of its function, with the registers and the
sources that the workshop `w` holds. -/
structure Realizes (d : Design) (rs : List Resource) (base : Nat) (p : Plan) (w : Workshop) :
    Prop where
  tidy : w.Tidy rs base
  sound : p.Sound rs w
  nodup : p.labels.Nodup
  /-- Every source of a register comes from a load in some state. -/
  complete : ∀ (id : Nat) r, w.bank.registers[id]? = some r → ∀ s ∈ r.sources, (id, s) ∈ p.loads
  resources : d.resources = rs
  registers : d.registers = finalized w.supply w.bank.registers
  bank : d.bank = ⟨w.bank.pool, finalized w.supply w.bank.registers⟩
  machine : d.machine =
    machineOf (w.supply + w.bank.registers.length) d.bank (p.nodes none)
  fragment : d.fragment = .merge
    (d.registers.map d.bank.lower ++ [machineLogic d.machine d.bank (p.nodes none)])

def ofPlan (name : String) (p : Plan) (rs : List Resource) (w : Workshop) : Design :=
  let bank := w.finish.bank
  let machine := machineOf w.finish.supply bank (p.nodes none)
  { name, machine, bank
    registers := bank.registers
    fragment := .merge (bank.registers.map bank.lower ++ [machineLogic machine bank (p.nodes none)])
    resources := rs }

variable {w : Workshop} {o : Options} {env : Env}

/-- A sound plan is assembled, and what it becomes is known part by part. -/
theorem realizes_ofPlan (name : String) {p : Plan} {base : Nat} (htidy : w.Tidy rs base)
    (hsound : p.Sound rs w) (hnodup : p.labels.Nodup)
    (hcomplete : ∀ (id : Nat) r, w.bank.registers[id]? = some r →
      ∀ s ∈ r.sources, (id, s) ∈ p.loads) : (ofPlan name p rs w).Realizes rs base p w :=
  ⟨htidy, hsound, hnodup, hcomplete, rfl, rfl, rfl, rfl, rfl⟩

/-- A sound plan is assembled, if no marker is left in what it becomes. -/
theorem gives_assemble {name : String} {p : Plan} {base : Nat} (htidy : w.Tidy rs base)
    (hsound : p.Sound rs w) (hnodup : p.labels.Nodup)
    (hmarker : (ofPlan name p rs w).fragment.firstMarker? = none) :
    ∃ w', Gives (assemble name p.block.states rs) w (ofPlan name p rs w) w' := by
  have hresolve : resolveAll w.finish.bank 0 p.block.states =
      .ok ((p.nodes none).map (resolvedState w.finish.bank)) := by
    refine resolveAll_ok 0 fun n hn x hx => ?_
    obtain ⟨v, r, hr, hs, -⟩ := (hsound.of_mem_nodes hn).recorded x hx
    have hr' : w.finish.bank.registers[x.1]? = some (r.withSelector (w.supply + x.1)) := by
      rw [finish, getElem?_finalized, hr]
      rfl
    exact resolveLoad_eq hr' rfl hs
  have hlabels := Plan.map_label_nodes p none
  have hregisters : w.declared.filterMap (fun id => w.finish.bank.registers[id]?) =
      w.finish.bank.registers := by
    rw [htidy.declared, ← length_finalized w.supply w.bank.registers]
    exact filterMap_getElem?_range _
  obtain ⟨log, hlog⟩ : ∃ log, log =
      s!"{name}: {p.block.states.length} states, {w.declared.length} registers" :: w.log :=
    ⟨_, rfl⟩
  refine ⟨{ w.finish with supply := w.finish.supply + 2, log }, ?_⟩
  refine gives_bind.mpr ⟨w, w, gives_get.mpr ⟨rfl, rfl⟩, ?_⟩
  refine gives_bind.mpr ⟨⟨⟩, { w with log }, gives_note.mpr (by rw [hlog]), ?_⟩
  refine gives_bind.mpr ⟨⟨⟩, { w.finish with log }, ?_, ?_⟩
  · have hfinalize :=
      gives_finalizeAll [] w.bank.registers (w := { w with log }) rfl htidy.unfinished
    rwa [length_nil, ← range_eq_range', ← htidy.declared] at hfinalize
  refine gives_bind.mpr ⟨_, _, gives_get.mpr ⟨rfl, rfl⟩, ?_⟩
  refine gives_bind.mpr ⟨_, _, gives_ofExcept.mpr ⟨hresolve, rfl⟩, ?_⟩
  refine gives_bind.mpr ⟨_, _, gives_realize _ _ _ (hlabels ▸ hnodup) fun n hn l hl => ?_, ?_⟩
  · rw [hlabels]
    exact (hsound.guarded.jumps_of_mem_nodes hn l hl).resolve_right (by simp)
  · simp only [show w.finish.declared = w.declared from rfl, hregisters]
    split
    · rename_i m hm
      cases hmarker.symm.trans hm
    · exact gives_pure.mpr ⟨rfl, rfl⟩

theorem tidy_new (rs : List Resource) (supply : Nat) : (new supply).Tidy rs supply where
  base_le := Nat.le_refl _
  shared := by simp [new, empty]
  unfinished := by simp [new, empty]
  fresh := by simp [new, empty]
  distinct := .nil
  plain := by simp [new, empty]
  sources := by simp [new, empty]
  values := by simp [new, empty, Pool.empty]
  declared := rfl

theorem all_bindAll {P : Binding → Prop} {l : List (String × Binding)} {e e' : Env}
    (he : e.All P) (hl : ∀ p ∈ l, P p.2) (h : bindAll e l = .ok e') : e'.All P := by
  induction l generalizing e with
  | nil =>
    cases h
    exact he
  | cons p l ih =>
    rw [bindAll] at h
    split at h
    · cases h
    · exact ih (he.set (hl _ mem_cons_self)) (fun q hq => hl q (mem_cons_of_mem _ hq)) h

/-- What holds of intrinsics, integers, values and resources holds of all that names stand for at
first. -/
theorem all_env {P : Binding → Prop} (hvalue : ∀ q ∈ o.values, P (.value q.2))
    (hintrinsic : ∀ i, P (.intrinsic i)) (hint : ∀ v, P (.int v))
    (hresource : ∀ r ∈ o.resources, P (.resource r)) (h : o.env = .ok env) : env.All P := by
  refine all_bindAll ?_ ?_ h
  · simp only [Env.All, intrinsics, map_cons, map_nil, mem_cons, not_mem_nil,
      or_false, forall_eq_or_imp, forall_eq]
    exact ⟨hintrinsic _, hintrinsic _⟩
  · intro p hp
    simp only [mem_append, mem_map] at hp
    obtain (⟨q, -, rfl⟩ | ⟨q, hq, rfl⟩) | ⟨r, hr, rfl⟩ := hp
    · exact hint _
    · exact hvalue q (mem_mergeSort.mp hq)
    · exact hresource r hr

theorem plain_env (hvalues : o.values = []) (hchannels : ∀ d, .device d ∉ o.resources)
    (h : o.env = .ok env) : env.Plain o.resources :=
  all_env (by simp [hvalues]) (fun _ => trivial) (fun _ => trivial)
    (fun _ hr => ⟨hr, fun d hd => hchannels d (hd ▸ hr)⟩) h

theorem deviceless_env (hchannels : ∀ d, .device d ∉ o.resources) (h : o.env = .ok env) :
    env.All Binding.Deviceless := by
  refine all_env (fun _ _ => trivial) (fun _ => trivial) (fun _ => trivial) (fun r hr => ?_) h
  cases r with
  | device d => exact hchannels d hr
  | sink | source => trivial

/-- What happens when a text is compiled: its function is lowered in the scope of the options, and a
design is put together from the states. -/
theorem gives_compile {text : List Char} {d : Design} {w' : Workshop} :
    Gives (compile text o) w d w' ↔ ∃ m name body env block s, readProgram text = .ok m ∧
      onlyFunction m = .ok (name, body) ∧ o.env = .ok env ∧
      Gives (lowerStmts .empty body) ⟨env, w⟩ block s ∧
      Gives (assemble name block.states o.resources) s.shop d w' := by
  unfold compile ofModule
  simp only [gives_ofExcept_bind]
  constructor
  · rintro ⟨m, hm, ⟨name, body⟩, hbody, env, henv, h⟩
    obtain ⟨block, w₁, hlower, hassemble⟩ := gives_bind.mp h
    obtain ⟨env', hlower⟩ := Lower.gives_within.mp hlower
    exact ⟨m, name, body, env, block, ⟨env', w₁⟩, hm, hbody, henv, hlower, hassemble⟩
  · rintro ⟨m, name, body, env, block, s, hm, hbody, henv, hlower, hassemble⟩
    exact ⟨m, hm, (name, body), hbody, env, henv, gives_bind.mpr
      ⟨block, s.shop, Lower.gives_within.mpr ⟨s.env, hlower⟩, hassemble⟩⟩

end Design

end Sequencer
