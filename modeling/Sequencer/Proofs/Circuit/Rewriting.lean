import Mathlib.Data.List.Forall2
import Sequencer.Proofs.Simulation.Settling

/-!
# Changing the leaves of a block

Walking a block and changing its leaves are two recursions over the same nesting. They agree: a
change visits the leaves that walking comes to, in the same order, and keeps everything else.
-/

namespace Sequencer.Circuit

open List Stmt
open Simulation (bind_eq_ok bind_eq_error)

/-- The leaves of a block, in the order of walking. -/
def leaves (ss : List Stmt) : List Stmt := (walk ss).filter isLeaf

/-! ### The order of the visits -/

section Visits

variable {m : Type → Type} [Monad m] {α : Type} (f : Stmt → m Stmt)

/-- Apply `f` to the leaves among `ss`, one after another, and then go on with `k`. -/
def visits (ss : List Stmt) (k : m α) : m α :=
  (ss.filter isLeaf).foldr (fun s k => f s >>= fun _ => k) k

theorem visits_append (ss ts : List Stmt) (k : m α) :
    visits f (ss ++ ts) k = visits f ss (visits f ts k) := by
  simp [visits]

variable [LawfulMonad m]

mutual

theorem mapLeavesStmt_visits (s : Stmt) (k : m α) :
    (s.mapLeaves f >>= fun _ => k) = visits f s.walk k := by
  match s with
  | .hole | .assign _ _ | .marker _ => rfl
  | .branch test yes no =>
    simp only [Stmt.mapLeaves, bind_assoc, pure_bind]
    rw [mapLeavesOption_visits no, mapLeaves_visits yes, ← visits_append]
    rfl
  | .select test arms other =>
    simp only [Stmt.mapLeaves, bind_assoc, pure_bind]
    rw [mapLeavesOption_visits other, mapLeavesArms_visits arms, ← visits_append]
    rfl

/-- A change does its work on the leaves in the order of walking. -/
theorem mapLeaves_visits (ss : List Stmt) (k : m α) :
    (mapLeaves f ss >>= fun _ => k) = visits f (walk ss) k := by
  match ss with
  | [] => exact pure_bind _ _
  | s :: ss =>
    simp only [mapLeaves, bind_assoc, pure_bind]
    rw [mapLeaves_visits ss, mapLeavesStmt_visits s, walk, visits_append]

theorem mapLeavesOption_visits (o : Option (List Stmt)) (k : m α) :
    (mapLeavesOption f o >>= fun _ => k) = visits f (walkOption o) k := by
  match o with
  | none => exact pure_bind _ _
  | some ss =>
    simp only [mapLeavesOption, bind_assoc, pure_bind]
    exact mapLeaves_visits ss k

theorem mapLeavesArms_visits (arms : List (Literal × List Stmt)) (k : m α) :
    (mapLeavesArms f arms >>= fun _ => k) = visits f (walkArms arms) k := by
  match arms with
  | [] => exact pure_bind _ _
  | (l, body) :: arms =>
    simp only [mapLeavesArms, bind_assoc, pure_bind]
    rw [mapLeavesArms_visits arms, mapLeaves_visits body, walkArms, visits_append]

end

end Visits

/-! ### The outcomes of a change -/

/-- The statements have the same containers, and where the first one has a leaf, the second one has
a statement that `R` relates to it. Only for the alternative of a branch or selection is a missing
block told from an empty one; every other block is a list, which is empty where there is none. -/
inductive Refit (R : Stmt → Stmt → Prop) : Stmt → Stmt → Prop
  | leaf {s s' : Stmt} : s.isLeaf → R s s' → Refit R s s'
  | branch {test : Value} {yes yes' : List Stmt} {no no' : Option (List Stmt)} :
      Forall₂ (Refit R) yes yes' → Option.Rel (Forall₂ (Refit R)) no no' →
      Refit R (.branch test yes no) (.branch test yes' no')
  | select {test : Value} {arms arms' : List (Literal × List Stmt)}
      {other other' : Option (List Stmt)} :
      arms'.map Prod.fst = arms.map Prod.fst →
      Forall₂ (Forall₂ (Refit R)) (arms.map Prod.snd) (arms'.map Prod.snd) →
      Option.Rel (Forall₂ (Refit R)) other other' →
      Refit R (.select test arms other) (.select test arms' other')

section Outcomes

variable {ε : Type} {f : Stmt → Except ε Stmt} {ss : List Stmt}

mutual

theorem mapLeavesStmt_eq_ok (s : Stmt) {s' : Stmt} :
    s.mapLeaves f = .ok s' ↔ Refit (f · = .ok ·) s s' := by
  match s with
  | .hole | .assign _ _ | .marker _ =>
    refine ⟨fun h => .leaf rfl h, fun h => ?_⟩
    cases h with
    | leaf _ h => exact h
  | .branch test yes no =>
    simp only [Stmt.mapLeaves, bind_eq_ok, mapLeaves_eq_ok yes, mapLeavesOption_eq_ok no]
    constructor
    · rintro ⟨yes', hyes, no', hno, h⟩
      cases h
      exact .branch hyes hno
    · intro h
      cases h with
      | leaf hs => cases hs
      | branch hyes hno => exact ⟨_, hyes, _, hno, rfl⟩
  | .select test arms other =>
    simp only [Stmt.mapLeaves, bind_eq_ok, mapLeavesArms_eq_ok arms, mapLeavesOption_eq_ok other]
    constructor
    · rintro ⟨arms', ⟨hkeys, hbodies⟩, other', hother, h⟩
      cases h
      exact .select hkeys hbodies hother
    · intro h
      cases h with
      | leaf hs => cases hs
      | select hkeys hbodies hother => exact ⟨_, ⟨hkeys, hbodies⟩, _, hother, rfl⟩

/-- A change succeeds if it does on every leaf, and its result has the same shape. -/
theorem mapLeaves_eq_ok (ss : List Stmt) {ss' : List Stmt} :
    mapLeaves f ss = .ok ss' ↔ Forall₂ (Refit (f · = .ok ·)) ss ss' := by
  match ss with
  | [] => simp [mapLeaves, pure, Except.pure, eq_comm]
  | s :: ss =>
    simp only [mapLeaves, bind_eq_ok, mapLeavesStmt_eq_ok s, mapLeaves_eq_ok ss,
      forall₂_cons_left_iff]
    simp [pure, Except.pure, eq_comm]

theorem mapLeavesOption_eq_ok (o : Option (List Stmt)) {o' : Option (List Stmt)} :
    mapLeavesOption f o = .ok o' ↔ Option.Rel (Forall₂ (Refit (f · = .ok ·))) o o' := by
  match o, o' with
  | none, none | none, some _ => simp [mapLeavesOption, pure, Except.pure]
  | some ss, none | some ss, some _ =>
    simp [mapLeavesOption, bind_eq_ok, mapLeaves_eq_ok ss, pure, Except.pure]

theorem mapLeavesArms_eq_ok (arms : List (Literal × List Stmt))
    {arms' : List (Literal × List Stmt)} :
    mapLeavesArms f arms = .ok arms' ↔ arms'.map Prod.fst = arms.map Prod.fst ∧
      Forall₂ (Forall₂ (Refit (f · = .ok ·))) (arms.map Prod.snd) (arms'.map Prod.snd) := by
  match arms, arms' with
  | [], [] | [], _ :: _ => simp [mapLeavesArms, pure, Except.pure]
  | (l, body) :: arms, [] => simp [mapLeavesArms, bind_eq_ok, pure, Except.pure]
  | (l, body) :: arms, (l', body') :: arms' =>
    simp only [mapLeavesArms, bind_eq_ok, mapLeaves_eq_ok body, mapLeavesArms_eq_ok arms]
    simp [pure, Except.pure]
    tauto

end

theorem exists_mapLeaves_iff (ss : List Stmt) :
    (∃ ss', mapLeaves f ss = .ok ss') ↔ ∀ s ∈ leaves ss, ∃ s', f s = .ok s' := by
  have hvisits : (∃ ss', mapLeaves f ss = .ok ss') ↔ visits f (walk ss) (.ok ()) = .ok () := by
    rw [← mapLeaves_visits, bind_eq_ok]
    simp
  rw [hvisits, leaves, visits]
  induction (walk ss).filter isLeaf with
  | nil => simp
  | cons s ls ih => simp only [foldr_cons, bind_eq_ok, ih, exists_and_right, forall_mem_cons]

/-- A change fails with the failure of the first leaf on which it does. -/
theorem mapLeaves_eq_error {e : ε} : mapLeaves f ss = .error e ↔
    ∃ before s after, leaves ss = before ++ s :: after ∧
      (∀ t ∈ before, ∃ t', f t = .ok t') ∧ f s = .error e := by
  have hvisits : mapLeaves f ss = .error e ↔ visits f (walk ss) (.ok ()) = .error e := by
    rw [← mapLeaves_visits, bind_eq_error]
    simp
  rw [hvisits, leaves, visits]
  induction (walk ss).filter isLeaf with
  | nil => simp
  | cons s ls ih =>
    simp only [foldr_cons, bind_eq_error, ih]
    constructor
    · rintro (hs | ⟨s', hs, before, t, after, rfl, hbefore, ht⟩)
      · exact ⟨[], s, ls, rfl, by simp, hs⟩
      · exact ⟨s :: before, t, after, rfl, forall_mem_cons.mpr ⟨⟨s', hs⟩, hbefore⟩, ht⟩
    · rintro ⟨before, t, after, h, hbefore, ht⟩
      obtain ⟨rfl, h⟩ | ⟨before, rfl, rfl⟩ := cons_eq_append_iff.mp h
      · cases h
        exact .inl ht
      · obtain ⟨⟨s', hs⟩, hbefore⟩ := forall_mem_cons.mp hbefore
        exact .inr ⟨s', hs, before, t, after, rfl, hbefore, ht⟩

end Outcomes

/-! ### Statements at some depth -/

/-- The statement stands in the block, or in a block inside it, at any depth. -/
inductive Within (s : Stmt) : List Stmt → Prop
  | here {ss : List Stmt} : s ∈ ss → Within s ss
  | inside {t : Stmt} {body ss : List Stmt} :
      t ∈ ss → body ∈ t.blocks → Within s body → Within s ss

section Depth

variable {s t : Stmt} {ss ss' : List Stmt} {R : Stmt → Stmt → Prop}

theorem Within.mono {ts : List Stmt} (h : Within s ss) (hsub : ss ⊆ ts) : Within s ts := by
  cases h with
  | here hs => exact .here (hsub hs)
  | inside ht hbody h => exact .inside (hsub ht) hbody h

theorem walk_eq_flatMap (ss : List Stmt) : walk ss = ss.flatMap Stmt.walk := by
  induction ss with
  | nil => rfl
  | cons s ss ih => rw [walk, ih, flatMap_cons]

/-- Walking comes to the statements at all depths, and to no others. -/
theorem mem_walk : s ∈ walk ss ↔ Within s ss := by
  constructor
  · intro h
    induction ss using blocks_induct with
    | nil => cases h
    | cons t ss ihs ih =>
      rw [walk, t.walk_eq_cons, cons_append, mem_cons, mem_append, mem_flatMap] at h
      obtain rfl | ⟨body, hbody, h⟩ | h := h
      · exact .here mem_cons_self
      · exact .inside mem_cons_self hbody (ihs body hbody h)
      · exact (ih h).mono (subset_cons_self t ss)
  · intro h
    induction h with
    | here hs =>
      rw [walk_eq_flatMap]
      exact mem_flatMap_of_mem hs s.self_mem_walk
    | inside ht hbody _ ih =>
      rw [walk_eq_flatMap]
      refine mem_flatMap_of_mem ht ?_
      rw [walk_eq_cons]
      exact mem_cons_of_mem _ (mem_flatMap_of_mem hbody ih)

theorem mem_leaves : s ∈ leaves ss ↔ Within s ss ∧ s.isLeaf := by
  rw [leaves, mem_filter, mem_walk]

theorem firstMarker?_eq_none_iff : firstMarker? ss = none ↔ ∀ m, ¬ Within (.marker m) ss := by
  simp only [firstMarker?, findSome?_eq_none_iff, mem_walk]
  constructor
  · intro h m hm
    cases h _ hm
  · intro h s hs
    cases s with
    | marker m => exact (h m hs).elim
    | hole | assign _ _ | branch _ _ _ | select _ _ _ => rfl

theorem exists_of_forall₂ {α β : Type} {R : α → β → Prop} {as : List α} {bs : List β} {b : β}
    (h : Forall₂ R as bs) (hb : b ∈ bs) : ∃ a ∈ as, R a b := by
  induction h with
  | nil => cases hb
  | cons hab _ ih =>
    obtain rfl | hb := mem_cons.mp hb
    · exact ⟨_, mem_cons_self, hab⟩
    · obtain ⟨a, ha, hab⟩ := ih hb
      exact ⟨a, mem_cons_of_mem _ ha, hab⟩

theorem Refit.cases_blocks (h : Refit R s t) :
    s.isLeaf ∧ R s t ∨ t.isLeaf = false ∧ Forall₂ (Forall₂ (Refit R)) s.blocks t.blocks := by
  have hoption : ∀ {o o'}, Option.Rel (Forall₂ (Refit R)) o o' →
      Forall₂ (Forall₂ (Refit R)) o.toList o'.toList := by
    intro o o' ho
    cases ho with
    | none => exact .nil
    | some h => exact .cons h .nil
  cases h with
  | leaf hs h => exact .inl ⟨hs, h⟩
  | branch hyes hno => exact .inr ⟨rfl, .cons hyes (hoption hno)⟩
  | select _ hbodies hother => exact .inr ⟨rfl, rel_append hbodies (hoption hother)⟩

/-- A leaf of a changed block stands in what one of the leaves was changed to. -/
theorem Within.of_refit (h : Within t ss') (hleaf : t.isLeaf) (hss : Forall₂ (Refit R) ss ss') :
    ∃ s ∈ leaves ss, ∃ s', R s s' ∧ Within t [s'] := by
  simp only [mem_leaves]
  induction h generalizing ss with
  | here ht =>
    obtain ⟨s, hs, hfit⟩ := exists_of_forall₂ hss ht
    obtain ⟨hleaf', hR⟩ | ⟨hleaf', -⟩ := hfit.cases_blocks
    · exact ⟨s, ⟨.here hs, hleaf'⟩, t, hR, .here mem_cons_self⟩
    · cases hleaf.symm.trans hleaf'
  | inside ht hbody h ih =>
    obtain ⟨s, hs, hfit⟩ := exists_of_forall₂ hss ht
    obtain ⟨hleaf', hR⟩ | ⟨-, hblocks⟩ := hfit.cases_blocks
    · exact ⟨s, ⟨.here hs, hleaf'⟩, _, hR, .inside mem_cons_self hbody h⟩
    · obtain ⟨body', hbody', hfit⟩ := exists_of_forall₂ hblocks hbody
      obtain ⟨u, ⟨hu, hleaf'⟩, hfound⟩ := ih hfit
      exact ⟨u, ⟨.inside hs hbody' hu, hleaf'⟩, hfound⟩

end Depth

/-- **Changing leaves maps them and nothing else.** Whatever a change does besides, it does to the
leaves in the order of walking. A change that may fail gives a block exactly if it gives a statement
for each leaf, and then the block with these in the places of the leaves; otherwise it fails as the
first leaf does for which it fails. No marker is left if none is in what the leaves were changed to,
and walking finds a marker exactly if there is one at some depth. -/
theorem mapLeaves_leafwise (ss : List Stmt) :
    (∀ (ε σ : Type) (fn : Stmt → ExceptT ε (StateM σ) Stmt) (k : ExceptT ε (StateM σ) Unit),
      (mapLeaves fn ss >>= fun _ => k) = (leaves ss).foldr (fun s k => fn s >>= fun _ => k) k) ∧
    (∀ (ε : Type) (fn : Stmt → Except ε Stmt),
      ((∃ ss', mapLeaves fn ss = .ok ss') ↔ ∀ s ∈ leaves ss, ∃ s', fn s = .ok s') ∧
      (∀ ss', mapLeaves fn ss = .ok ss' ↔ Forall₂ (Refit (fn · = .ok ·)) ss ss') ∧
      (∀ e, mapLeaves fn ss = .error e ↔ ∃ before s after, leaves ss = before ++ s :: after ∧
          (∀ t ∈ before, ∃ t', fn t = .ok t') ∧ fn s = .error e) ∧
      ((∀ s ∈ leaves ss, ∀ s', fn s = .ok s' → firstMarker? [s'] = none) →
        ∀ ss', mapLeaves fn ss = .ok ss' → firstMarker? ss' = none)) ∧
    ((firstMarker? ss).isSome ↔ ∃ m, Within (.marker m) ss) := by
  refine ⟨fun ε σ fn k => mapLeaves_visits fn ss k, fun ε fn => ⟨exists_mapLeaves_iff ss,
    fun ss' => mapLeaves_eq_ok ss, fun e => mapLeaves_eq_error, fun hfn ss' hss => ?_⟩, ?_⟩
  · refine firstMarker?_eq_none_iff.mpr fun m hm => ?_
    obtain ⟨s, hs, s', hs', hm⟩ := hm.of_refit rfl ((mapLeaves_eq_ok ss).mp hss)
    exact firstMarker?_eq_none_iff.mp (hfn s hs s' hs') m hm
  · rw [← Option.ne_none_iff_isSome, Ne, firstMarker?_eq_none_iff]
    simp

end Sequencer.Circuit
