import Mathlib.Data.List.Induction
import Sequencer.Machine
import Sequencer.Proofs.Circuit.Rewriting
import Sequencer.Proofs.Simulation.Actions

/-!
# The transitions of a state

`executed` lists the leaves that a cycle carries out, where some may still be markers. Changing the
leaves changes what is written leaf by leaf, and never which leaves are reached.

In one cycle the body of a state writes signals and names successors, which `Machine.deeds` lists in
order. In the hardware a transition is one more write, to the `next` signal.
-/

namespace Sequencer

open List
open Circuit Simulation

namespace Simulation

/-- The leaves that a block carries out in a cycle, in order. -/
def executed (σ : Valuation) : List Stmt → Except Fault (List Stmt) := visit (fun s => .ok [s]) σ

def WritesAs {ε : Type} (f : Stmt → Except ε Stmt) (σ : Valuation) (ls : List Stmt)
    (ws : List Write) : Prop :=
  ∃ ms, List.Forall₂ (fun s s' => s.isLeaf ∧ f s = .ok s') ls ms ∧ exec σ ms = .ok ws

section Leaves

variable {ε : Type} {f : Stmt → Except ε Stmt} {σ : Valuation}

theorem WritesAs.append {ls ms : List Stmt} {us ws : List Write} (hl : WritesAs f σ ls us)
    (hm : WritesAs f σ ms ws) : WritesAs f σ (ls ++ ms) (us ++ ws) := by
  obtain ⟨ls', hls, hus⟩ := hl
  obtain ⟨ms', hms, hws⟩ := hm
  refine ⟨ls' ++ ms', rel_append hls hms, ?_⟩
  rw [exec_append, hus, hws]
  rfl

theorem writesAs_leaf {s s' : Stmt} {ws : List Write} (hleaf : s.isLeaf) (h : f s = .ok s')
    (hexec : execStmt σ s' = .ok ws) : WritesAs f σ [s] ws := by
  exact ⟨[s'], .cons ⟨hleaf, h⟩ .nil, (exec_singleton σ s').trans hexec⟩

theorem mapLeaves_find? {arms arms' : List (Literal × List Stmt)} {ss ss' : List Stmt}
    (harms : mapLeavesArms f arms = .ok arms') (hss : mapLeaves f ss = .ok ss') (v : UInt64) :
    mapLeaves f (((arms.find? fun arm => v = arm.1.word).map Prod.snd).getD ss) =
      .ok (((arms'.find? fun arm => v = arm.1.word).map Prod.snd).getD ss') := by
  induction arms generalizing arms' with
  | nil =>
    cases harms
    exact hss
  | cons arm arms ih =>
    obtain ⟨body, arms', hbody, hrest, rfl⟩ := bind₂_eq_ok.mp harms
    by_cases hv : v = arm.1.word
    · simpa [find?_cons, hv] using hbody
    · simpa [find?_cons, hv] using ih hrest

theorem mapLeaves_chosen {s s' : Stmt} (hs : s.isLeaf = false) (h : s.mapLeaves f = .ok s') :
    s'.isLeaf = false ∧ s'.test = s.test ∧ ∀ v, mapLeaves f (s.chosen v) = .ok (s'.chosen v) := by
  have hoption : ∀ {o o' : Option (List Stmt)}, mapLeavesOption f o = .ok o' →
      mapLeaves f (o.getD []) = .ok (o'.getD []) := by
    intro o o' ho
    cases o with
    | none =>
      cases ho
      rfl
    | some ss =>
      obtain ⟨ss', hss, ho⟩ := bind_eq_ok.mp ho
      cases ho
      exact hss
  cases s with
  | hole | assign _ _ | marker _ => cases hs
  | branch test yes no =>
    obtain ⟨yes', no', hyes, hno, rfl⟩ := bind₂_eq_ok.mp h
    refine ⟨rfl, rfl, fun v => ?_⟩
    rw [Stmt.chosen, Stmt.chosen]
    split
    · exact hyes
    · exact hoption hno
  | select test arms other =>
    obtain ⟨arms', other', harms, hother, rfl⟩ := bind₂_eq_ok.mp h
    exact ⟨rfl, rfl, fun v => mapLeaves_find? harms (hoption hother) v⟩

/-- **Changing the leaves of a block** changes what is carried out leaf by leaf. -/
theorem exec_of_mapLeaves (ss : List Stmt) {ss' : List Stmt} {ws : List Write}
    (h : mapLeaves f ss = .ok ss') (hexec : exec σ ss' = .ok ws) :
    ∃ ls, executed σ ss = .ok ls ∧ WritesAs f σ ls ws := by
  induction ss using block_induct generalizing ss' ws with
  | nil =>
    cases h
    cases hexec
    exact ⟨[], rfl, [], .nil, rfl⟩
  | cons s ss ihs ih =>
    obtain ⟨s', ss', hs, hss, rfl⟩ := bind₂_eq_ok.mp h
    obtain ⟨us, vs, hus, hvs, rfl⟩ := bind₂_eq_ok.mp hexec
    obtain ⟨ms, hms, hm⟩ := ih hss hvs
    have hstmt : ∃ ls, visitStmt (fun s => .ok [s]) σ s = .ok ls ∧ WritesAs f σ ls us := by
      cases hleaf : s.isLeaf with
      | true =>
        cases s with
        | hole | assign _ _ | marker _ => exact ⟨_, rfl, writesAs_leaf rfl hs hus⟩
        | branch _ _ _ | select _ _ _ => cases hleaf
      | false =>
        obtain ⟨hleaf', htest, hchosen⟩ := mapLeaves_chosen hleaf hs
        rw [visitStmt_chosen hleaf', htest] at hus
        obtain ⟨v, hv, hus⟩ := bind_eq_ok.mp hus
        rw [visitStmt_chosen hleaf, hv]
        exact ihs v (hchosen v) hus
    obtain ⟨ls, hls, hl⟩ := hstmt
    refine ⟨ls ++ ms, ?_, hl.append hm⟩
    exact bind₂_eq_ok.mpr ⟨ls, ms, hls, hms, rfl⟩

end Leaves

end Simulation

theorem Simulation.visitArms_unmatched {σ : Valuation} {v : UInt64}
    {arms : List (Literal × List Stmt)} (h : ∀ arm ∈ arms, v ≠ arm.1.word) :
    visitArms (execLeaf σ) σ v arms = .ok none := by
  induction arms with
  | nil => rfl
  | cons arm arms ih =>
    obtain ⟨harm, harms⟩ := forall_mem_cons.mp h
    rw [visitArms, if_neg harm, ih harms]

/-- Of arms whose literals count on from `k`, a number runs the one at its place. -/
theorem Simulation.visitArms_numbered {σ : Valuation} (code : Nat → Literal)
    (bodies : List (List Stmt)) {k i : Nat} {body : List Stmt}
    (hcode : ∀ j < k + bodies.length, (code j).word = UInt64.ofNat j)
    (hlt : k + bodies.length ≤ 2 ^ 63) (hi : bodies[i]? = some body) :
    visitArms (execLeaf σ) σ (UInt64.ofNat (k + i)) (bodies.mapIdx fun j b => (code (k + j), b)) =
      (exec σ body).map some := by
  induction bodies generalizing k i with
  | nil => simp at hi
  | cons b bodies ih =>
    simp only [length_cons] at hcode hlt
    rw [mapIdx_cons, visitArms, Nat.add_zero, hcode k (by omega)]
    cases i with
    | zero =>
      obtain rfl : b = body := by simpa using hi
      rw [Nat.add_zero, if_pos rfl, ← exec]
      cases exec σ b <;> rfl
    | succ i =>
      have hi : bodies[i]? = some body := by simpa using hi
      have hlen := (List.getElem?_eq_some_iff.mp hi).1
      have hne : UInt64.ofNat (k + (i + 1)) ≠ UInt64.ofNat k := fun he => by
        have := ofNat_inj (Nat.le_refl (k + (i + 1))) (by omega) (by omega) he
        omega
      rw [if_neg hne]
      simp only [← Nat.add_assoc, Nat.add_right_comm k _ 1]
      exact ih (fun j hj => hcode j (by omega)) (by omega) hi

namespace Machine

/-! ### What the body of a state does -/

/-- Something that the body of a state does in a cycle. -/
inductive Deed where
  | write (w : Write)
  | go (target : StateId)

def Deed.target? : Deed → Option StateId
  | write _ => none
  | go target => some target

def Deed.write? : Deed → Option Write
  | write w => some w
  | go _ => none

def deedLeaf (σ : Valuation) : Stmt → Except Fault (List Deed)
  | .marker (.goto target) => .ok [.go target]
  | s => do
    let ws ← execLeaf σ s
    return ws.map .write

/-- What a block does in a cycle, in order. -/
def deeds (σ : Valuation) : List Stmt → Except Fault (List Deed) := visit (deedLeaf σ) σ

/-- A deed that some statement of `ss` may have done. -/
def Deed.Of (ss : List Stmt) : Deed → Prop
  | write w => ∃ v, .assign w.1 v ∈ ss
  | go target => goto target ∈ ss

theorem deeds_of {σ : Valuation} (ss : List Stmt) {ds : List Deed} (h : deeds σ ss = .ok ds) :
    ∀ d ∈ ds, d.Of (walk ss) := by
  intro d hd
  obtain ⟨s, hs, hleaf, es, hes, hd⟩ := exists_leaf h d hd
  match s with
  | .hole | .marker (.load _ _) => cases hes
  | .branch _ _ _ | .select _ _ _ => cases hleaf
  | .marker (.goto target) =>
    cases hes
    obtain rfl := mem_singleton.mp hd
    exact hs
  | .assign target value =>
    obtain ⟨ws, hws, hes⟩ := bind_eq_ok.mp hes
    obtain ⟨v, -, hws⟩ := bind_eq_ok.mp hws
    cases hws
    cases hes
    obtain rfl := mem_singleton.mp hd
    exact ⟨value, hs⟩

/-! ### Transitions as writes -/

def jumpStmt (m : Machine) (l : StateId) : Stmt :=
  .assign m.next (.ofLiteral (m.code ((m.index? l).getD 0)))

def jumpWrite (m : Machine) (l : StateId) : Write :=
  (m.next, truncate (m.code ((m.index? l).getD 0)).word m.next.bits)

/-- The write that a deed is in hardware. -/
def writeOf (m : Machine) : Deed → Write
  | .write w => w
  | .go target => m.jumpWrite target

/-- The transitions of a block lead to states of the machine. -/
def Closed (m : Machine) (ss : List Stmt) : Prop := ∀ l, goto l ∈ ss → (m.index? l).isSome

section Lowering

variable {m : Machine} {i : Nat}

/-- Where the transitions have been replaced, the deeds of a block are writes. -/
theorem exec_lowered {ss ss' : List Stmt} (h : mapLeaves (m.lowerTransition i) ss = .ok ss')
    (σ : Valuation) : exec σ ss' = (deeds σ ss).map (List.map m.writeOf) := by
  induction ss using block_induct generalizing ss' with
  | nil =>
    cases h
    rfl
  | cons s ss ihs ih =>
    obtain ⟨s', ss', hs, hss, rfl⟩ := bind₂_eq_ok.mp h
    have hstmt : execStmt σ s' = (visitStmt (deedLeaf σ) σ s).map (List.map m.writeOf) := by
      cases hleaf : s.isLeaf with
      | true =>
        match s with
        | .hole | .marker (.load _ _) =>
          cases hs
          rfl
        | .branch _ _ _ | .select _ _ _ => cases hleaf
        | .assign target value =>
          cases hs
          show execLeaf σ (.assign target value) = (do
            let ws ← execLeaf σ (.assign target value)
            return ws.map Deed.write).map (List.map m.writeOf)
          rw [execLeaf]
          cases eval σ value <;> rfl
        | .marker (.goto target) =>
          rw [Stmt.mapLeaves, lowerTransition] at hs
          split at hs
          · rename_i j hindex
            cases hs
            show _ = Except.ok [m.jumpWrite target]
            rw [jumpWrite, hindex]
            rfl
          · cases hs
      | false =>
        obtain ⟨hleaf', htest, hchosen⟩ := mapLeaves_chosen hleaf hs
        rw [execStmt_chosen hleaf', visitStmt_chosen hleaf, htest]
        cases eval σ s.test with
        | error e => rfl
        | ok v => exact ihs v (hchosen v)
    have hdeeds : deeds σ (s :: ss) = (do
      let ds ← visitStmt (deedLeaf σ) σ s
      let es ← deeds σ ss
      return ds ++ es) := rfl
    rw [exec_cons, hdeeds, hstmt, ih hss]
    cases visitStmt (deedLeaf σ) σ s with
    | error e => rfl
    | ok ds =>
      cases deeds σ ss with
      | error e => rfl
      | ok es => simp [Except.map, bind, Except.bind, pure, Except.pure]

/-- The transitions of a block can be replaced by writes exactly if all lead to states of the
machine. -/
theorem lowered_cases (ss : List Stmt) :
    (m.Closed (walk ss) ∧ ∃ ss', mapLeaves (m.lowerTransition i) ss = .ok ss') ∨
      (¬ m.Closed (walk ss) ∧ mapLeaves (m.lowerTransition i) ss = .error (.unknownState i)) := by
  cases hlowered : mapLeaves (m.lowerTransition i) ss with
  | ok ss' =>
    refine .inl ⟨fun l hl => ?_, ss', rfl⟩
    obtain ⟨t', ht'⟩ := (exists_mapLeaves_iff ss).mp ⟨ss', hlowered⟩ (goto l)
      (mem_filter.mpr ⟨hl, rfl⟩)
    rw [goto, lowerTransition] at ht'
    split at ht'
    · simp [*]
    · cases ht'
  | error e =>
    obtain ⟨before, t, after, hleaves, -, he⟩ := mapLeaves_eq_error.mp hlowered
    have ht : t ∈ leaves ss := by simp [hleaves]
    match t with
    | .hole | .assign _ _ | .branch _ _ _ | .select _ _ _ | .marker (.load _ _) => cases he
    | .marker (.goto target) =>
      rw [lowerTransition] at he
      split at he
      · cases he
      · cases he
        refine .inr ⟨fun h => ?_, rfl⟩
        have := h target (mem_filter.mp ht).1
        simp_all

/-- The arms of a machine can be made exactly when all transitions lead to its states, and then each
of them writes what the body of its state does. -/
theorem arms_cases (states : List State) (i : Nat) :
    ((∀ s ∈ states, m.Closed (walk s.body)) ∧ ∃ bodies : List (List Stmt),
      m.arms i states = .ok (bodies.mapIdx fun j b => (m.code (i + j), b)) ∧
        Forall₂ (fun s b => ∀ σ, exec σ b = (deeds σ s.body).map (List.map m.writeOf))
          states bodies) ∨
    ((∃ s ∈ states, ¬ m.Closed (walk s.body)) ∧
      ∃ j, m.arms i states = .error (.unknownState j)) := by
  induction states generalizing i with
  | nil => exact .inl ⟨by simp, [], rfl, .nil⟩
  | cons s states ih =>
    rw [arms]
    obtain ⟨hclosed, body, hbody⟩ | ⟨hopen, hbody⟩ := lowered_cases s.body
    · obtain ⟨hall, bodies, harms, hexec⟩ | ⟨⟨t, ht, hopen⟩, j, hj⟩ := ih (i + 1)
      · refine .inl ⟨forall_mem_cons.mpr ⟨hclosed, hall⟩, body :: bodies, ?_,
          .cons (exec_lowered hbody) hexec⟩
        rw [hbody, harms, mapIdx_cons]
        simp only [← Nat.add_assoc, Nat.add_right_comm i _ 1]
        rfl
      · refine .inr ⟨⟨t, mem_cons_of_mem _ ht, hopen⟩, j, ?_⟩
        rw [hbody, hj]
        rfl
    · refine .inr ⟨⟨s, mem_cons_self, hopen⟩, i, ?_⟩
      rw [hbody]
      rfl

end Lowering

end Machine

end Sequencer
