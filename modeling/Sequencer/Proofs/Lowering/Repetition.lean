import Sequencer.Proofs.Lowering.Ranges
import Sequencer.Proofs.Lowering.Values

/-!
# Steps that do the same

`Repeats x y` says that whatever the step `x` gives `y` gives as well, where the workshops may
differ in their progress messages. Names that stand for integers can be written out without any
difference.
-/

namespace Sequencer.Lowering

open List
open Circuit Program Simulation Build Env Lowering

/-! ### What holds of all names -/

namespace Env.All

variable {P : Binding → Prop} {e e' : Env} {name : String} {b : Binding}

/-- What holds of all that names stand for still holds after a name is bound to such a thing. -/
theorem set (h : e.All P) (hb : P b) : (e.set name b).All P := by
  unfold Env.set
  split
  · intro p hp
    simp only [mem_map] at hp
    obtain ⟨q, hq, rfl⟩ := hp
    split
    · exact hb
    · exact h q hq
  · intro p hp
    simp only [mem_append, mem_singleton] at hp
    obtain hp | rfl := hp
    · exact h p hp
    · exact hb

theorem bind (h : e.All P) (hb : P b) (he : e.bind name b = some e') : e'.All P := by
  unfold Env.bind at he
  split at he
  · cases he
  · cases he
    exact h.set hb

theorem push (h : e.All P) (hb : P b) : ((e.push name b).getD e).All P := by
  unfold Env.push
  split
  · exact h
  · exact h.set hb

/-- It also holds after a loop variable is unbound. -/
theorem pop (h : e.All P) (he : e.pop name = some e') : e'.All P := by
  unfold Env.pop at he
  split at he
  · cases he
  · split at he
    · cases he
      exact fun p hp => h p (mem_filter.mp hp).1
    · cases he

end Env.All

namespace Env.Plain

variable {rs : List Resource} {e e' : Env} {name : String}

theorem push (h : e.Plain rs) (name : String) (v : Int64) :
    ((e.push name (.int v)).getD e).Plain rs :=
  All.push h trivial

theorem pop (h : e.Plain rs) (hp : e.pop name = some e') : e'.Plain rs :=
  All.pop h hp

end Env.Plain

/-! ### Binding and unbinding -/

namespace Env

variable {e e' f : Env} {m n name : String} {b : Binding}

/-- The bindings of all other names. -/
def without (name : String) (l : List (String × Binding)) : List (String × Binding) :=
  l.filter fun p => p.1 ≠ name

/-- Unbinding a name leaves the others alone. -/
theorem lookup_without (h : n ≠ name) (l : List (String × Binding)) :
    (without name l).lookup n = l.lookup n := by
  induction l with
  | nil => rfl
  | cons p l ih =>
    rw [without, filter_cons]
    split
    · rw [lookup_cons, lookup_cons, ← ih, without]
    · rename_i hp
      have hp : p.1 = name := by simpa using hp
      have hne : (n == p.1) = false := by simpa [hp] using h
      rw [lookup_cons, hne]
      exact ih

theorem without_of_lookup (h : e.lookup name = none) : without name e.bindings = e.bindings := by
  rw [without, filter_eq_self]
  intro p hp
  have hne := lookup_eq_none_iff.mp h p hp
  simpa using Ne.symm (by simpa using hne)

theorem without_comm (l : List (String × Binding)) :
    without m (without n l) = without n (without m l) := by
  simp only [without, filter_filter, Bool.and_comm]

/-- Binding a name leaves the others alone. -/
theorem lookup_set_of_ne (h : n ≠ m) : (e.set m b).lookup n = e.lookup n := by
  unfold set
  split
  · simp only [lookup]
    induction e.bindings with
    | nil => rfl
    | cons p l ih =>
      rw [map_cons, lookup_cons, lookup_cons, ih]
      split <;> rename_i hp <;> grind
  · have hne : (n == m) = false := by simpa using h
    simp [lookup, lookup_append, lookup_cons, hne]

theorem lookup_set_self (e : Env) (n : String) (b : Binding) : (e.set n b).lookup n = some b := by
  unfold set
  split
  · rename_i hn
    obtain ⟨bindings, loopVars⟩ := e
    simp only [lookup] at hn ⊢
    induction bindings with
    | nil => simp at hn
    | cons p l ih =>
      obtain ⟨k, old⟩ := p
      rw [map_cons]
      by_cases hk : k = n
      · rw [if_pos hk, hk, lookup_cons_self]
      · have hne : (n == k) = false := by simpa using Ne.symm hk
        rw [lookup_cons, hne] at hn
        rw [if_neg hk, lookup_cons, hne]
        exact ih hn
  · rename_i hn
    rw [lookup] at hn
    simp [lookup, lookup_append, Option.not_isSome_iff_eq_none.mp hn]

theorem without_set (h : m ≠ name) (he : e'.bindings = without name e.bindings) :
    (e'.set m b).bindings = without name (e.set m b).bindings := by
  have hlookup : e'.lookup m = e.lookup m := by rw [lookup, he, lookup_without h, lookup]
  unfold set
  rw [hlookup]
  split
  · simp only [he, without, filter_map]
    congr 2
    funext p
    simp only [Function.comp]
    split <;> simp_all
  · simp [he, without, h]

theorem push_of_lookup (h : e.lookup n = none) (b : Binding) :
    (e.push n b).getD e = ⟨e.bindings ++ [(n, b)], n :: e.loopVars⟩ := by
  simp [push, set, h]

/-- What unbinding a loop variable leaves behind. -/
theorem pop_eq_some : e.pop name = some f ↔
    ∃ vs, e.loopVars = name :: vs ∧ f = ⟨without name e.bindings, vs⟩ := by
  unfold pop
  cases e.loopVars with
  | nil => simp
  | cons v vs =>
    by_cases hv : v = name
    · simp [hv, without, eq_comm]
    · simp [hv]

theorem lookup_of_pop (h : e.pop name = some f) : f.lookup name = none := by
  obtain ⟨vs, -, rfl⟩ := pop_eq_some.mp h
  simp only [lookup, without, lookup_eq_none_iff, mem_filter]
  rintro p ⟨-, hne⟩
  have hne : p.1 ≠ name := by simpa using hne
  simpa using Ne.symm hne

/-! ### Loop variables -/

@[simp]
theorem loopVars_set (e : Env) (name : String) (b : Binding) :
    (e.set name b).loopVars = e.loopVars := by
  unfold set
  split <;> rfl

theorem loopVars_bind (h : e.bind name b = some e') : e'.loopVars = e.loopVars := by
  unfold bind at h
  split at h
  · cases h
  · cases h
    exact loopVars_set e name b

end Env

theorem loopTarget_eq_ok {env : Env} {target : Expr} {name : String} :
    loopTarget env target = .ok name ↔
      ∃ pos, target = .name pos name ∧ env.lookup name = none := by
  constructor
  · intro h
    unfold loopTarget at h
    split at h
    · split at h
      · cases h
      · rename_i hfree
        cases h
        exact ⟨_, rfl, by simpa using hfree⟩
    · cases h
  · rintro ⟨pos, rfl, hfree⟩
    simp [loopTarget, hfree]

theorem lookup_of_loopTarget {env : Env} {target : Expr} {name : String}
    (h : loopTarget env target = .ok name) : env.lookup name = none := by
  obtain ⟨-, -, hfree⟩ := loopTarget_eq_ok.mp h
  exact hfree

/-! ### Steps that do the same -/

/-- Two workshops that differ in their progress messages only. -/
structure Workshop.UpToLog (w w' : Workshop) : Prop where
  supply : w'.supply = w.supply
  bank : w'.bank = w.bank
  declared : w'.declared = w.declared

theorem Workshop.UpToLog.refl (w : Workshop) : w.UpToLog w := ⟨rfl, rfl, rfl⟩

/-- Whatever `x` gives `y` gives as well, and leaves the same workshop behind up to the progress
messages. Tags are only ever taken. -/
def Repeats {α : Type} (x y : Build α) : Prop :=
  ∀ w w' : Workshop, w.UpToLog w' → ∀ a u, Gives x w a u →
    w.supply ≤ u.supply ∧ ∃ u', Gives y w' a u' ∧ u.UpToLog u'

section Repeats

variable {α β : Type}

theorem Repeats.bind {x y : Build α} {f g : α → Build β} (h : Repeats x y)
    (hfg : ∀ a, Repeats (f a) (g a)) : Repeats (x >>= f) (y >>= g) := by
  intro w w' hw b u hb
  obtain ⟨a, w₁, ha, hb⟩ := gives_bind.mp hb
  obtain ⟨hle, w₁', ha', hw₁⟩ := h w w' hw a w₁ ha
  obtain ⟨hle', u', hb', hu⟩ := hfg a w₁ w₁' hw₁ b u hb
  exact ⟨Nat.le_trans hle hle', u', gives_bind.mpr ⟨a, w₁', ha', hb'⟩, hu⟩

theorem repeats_pure (a : α) : Repeats (pure a) (pure a) := by
  intro w w' hw b u hb
  obtain ⟨rfl, rfl⟩ := gives_pure.mp hb
  exact ⟨Nat.le_refl _, w', gives_pure.mpr ⟨rfl, rfl⟩, hw⟩

theorem repeats_throw (e : Fault) (y : Build α) : Repeats (throw e) y :=
  fun _ _ _ _ _ hb => (not_gives_throw hb).elim

theorem repeats_ofExcept {x y : Except Fault α} (h : ∀ a, x = .ok a → y = .ok a) :
    Repeats (Build.ofExcept x) (Build.ofExcept y) := by
  intro w w' hw a u ha
  obtain ⟨hok, rfl⟩ := gives_ofExcept.mp ha
  exact ⟨Nat.le_refl _, w', gives_ofExcept.mpr ⟨h a hok, rfl⟩, hw⟩

theorem repeats_ofFresh {x : Fresh α} (hx : ∀ n, n ≤ (show α × Nat from x n).2) :
    Repeats (ofFresh x) (ofFresh x) := by
  intro w w' hw a u ha
  obtain ⟨rfl, rfl⟩ := gives_ofFresh.mp ha
  refine ⟨hx w.supply, _, gives_ofFresh.mpr ⟨?_, rfl⟩, ?_⟩
  · rw [hw.supply]
  · exact ⟨by rw [hw.supply], hw.bank, hw.declared⟩

theorem repeats_onBank (f : Bank → Except Register.Error (α × Bank)) :
    Repeats (onBank f) (onBank f) := by
  intro w w' hw a u ha
  obtain ⟨bank, hbank, rfl⟩ := gives_onBank.mp ha
  refine ⟨Nat.le_refl _, _, gives_onBank.mpr ⟨bank, ?_, rfl⟩, ?_⟩
  · rw [hw.bank, hbank]
  · exact ⟨hw.supply, rfl, hw.declared⟩

theorem repeats_newState (body : List Circuit.Stmt) : Repeats (newState body) (newState body) :=
  (repeats_ofFresh fun n => Nat.le_succ n).bind fun _ => repeats_pure _

theorem repeats_load (id : RegisterId) (v : Value) : Repeats (load id v) (load id v) :=
  (repeats_onBank _).bind fun _ => repeats_pure _

theorem repeats_extend (v : Value) (width : Int) :
    Repeats (ofFresh (v.extend width)) (ofFresh (v.extend width)) := by
  refine repeats_ofFresh fun n => ?_
  unfold Value.extend
  split
  · split
    · exact Nat.le_succ n
    · exact Nat.le_refl n
  · exact Nat.le_refl n

end Repeats

/-! ### Scopes -/

namespace Env.Knows

variable {σ : String → Option Int64} {e e' : Env}

theorem mapM_constInt (h : Env.Knows σ e e') {xs : List Expr} {vs : List Int64}
    (hxs : xs.mapM (Lowering.constInt e) = .ok vs) :
    (substExprs σ xs).mapM (Lowering.constInt e') = .ok vs := by
  rw [mapM_eq_ok_iff] at hxs ⊢
  rw [substExprs_eq_map, List.forall₂_map_left_iff]
  exact hxs.imp fun x v hx => h.constInt x hx

/-- The values of a loop stay the same with names written out. -/
theorem iterValues (h : Env.Knows σ e e') {x : Expr} {vs : List Int64}
    (hvs : iterValues e x = .ok vs) : iterValues e' (x.subst σ) = .ok vs := by
  unfold Lowering.iterValues at hvs
  split at hvs
  · rw [Expr.subst, Lowering.iterValues]
    exact h.mapM_constInt hvs
  · rename_i pos lparen args rparen
    have hlength : (substExprs σ args).length = args.length := by simp [substExprs_eq_map]
    rw [Expr.subst, Lowering.iterValues, hlength]
    split at hvs
    · cases hvs
    · rename_i hcount
      rw [if_neg hcount]
      obtain ⟨values, hvalues, hvs⟩ := bind_eq_ok.mp hvs
      refine bind_eq_ok.mpr ⟨values, h.mapM_constInt hvalues, ?_⟩
      dsimp only at hvs ⊢
      split at hvs
      · cases hvs
      · rename_i hstep
        rwa [if_neg hstep]
  · cases hvs

end Env.Knows

namespace Env.Reads

variable {σ : String → Option Int64} {e e' : Env} {n : String} (h : Reads σ e e')

include h

theorem lookupRegister {pos : Position} {id : RegisterId} (hid : lookupRegister e pos n = .ok id) :
    lookupRegister e' pos n = .ok id ∧ σ n = none := by
  have hn : ∀ v, e.lookup n ≠ some (.int v) := by
    rintro v hv
    simp [Lowering.lookupRegister, hv] at hid
  exact ⟨by rwa [Lowering.lookupRegister, h.lookup_eq hn], h.eq_none hn⟩

theorem registerArg {x : Expr} {id : RegisterId} (hid : registerArg e x = .ok id) :
    registerArg e' (x.subst σ) = .ok id := by
  unfold Lowering.registerArg at hid
  split at hid
  · obtain ⟨hid, hσ⟩ := h.lookupRegister hid
    simp only [Expr.subst, hσ]
    exact hid
  · cases hid

theorem storeTarget {t : Expr} {id : RegisterId} (hid : storeTarget e t = .ok id) :
    storeTarget e' t = .ok id := by
  unfold Lowering.storeTarget at hid ⊢
  split at hid
  · split at hid
    · rename_i hfield
      rw [if_pos hfield]
      split at hid
      · exact (h.lookupRegister hid).1
      · cases hid
    · cases hid
  · cases hid

theorem loopTarget {t : Expr} (hn : loopTarget e t = .ok n) : loopTarget e' t = .ok n := by
  obtain ⟨pos, rfl, hnone⟩ := loopTarget_eq_ok.mp hn
  exact loopTarget_eq_ok.mpr ⟨pos, rfl, by rw [h.lookup_eq (by simp [hnone]), hnone]⟩

end Env.Reads

/-! ### Expressions -/

section Expressions

variable {σ : String → Option Int64} {e e' : Env}

theorem Repeats.of_lockstep {α : Type} {x y : Build α} (h : ∀ n, Lockstep
      (fun w t => n ≤ w.supply ∧ w.UpToLog t) (fun _ => True) Eq x y) : Repeats x y := by
  intro w w' hw a u ha
  obtain ⟨b, u', hb, ⟨hle, hlog⟩, rfl⟩ := (h w.supply).gives ⟨Nat.le_refl _, hw⟩ ha
  exact ⟨hle, u', hb, hlog⟩

section

variable (h : Reads σ e e')

include h

/-- With its names written out an expression is lowered in lockstep. -/
theorem Env.Reads.coupling (n : Nat) :
    Coupling (fun w t => n ≤ w.supply ∧ w.UpToLog t) (fun _ => True) Eq σ e e' where
  reads := h
  expected _ := trivial
  tick hw := ⟨Nat.le_succ_of_le hw.1, congrArg (· + 1) hw.2.supply, hw.2.bank, hw.2.declared⟩
  value _ := rfl
  register _ hw := ⟨fun _ => trivial, fun hr => ⟨_, hw.2.bank ▸ hr, rfl⟩⟩
  const _ hw := by rw [hw.2.supply]
  binary hw _ hl hr := by rw [hw.2.supply, hl, hr]
  slice hw hv _ := by rw [hw.2.supply, hv]
  measure hv := by rw [hv]; exact ⟨rfl, rfl⟩

/-- **An expression is made in the same way with its names written out.** -/
theorem repeats_lowerExpr (x : Expr) : Repeats (lowerExpr e x) (lowerExpr e' (x.subst σ)) :=
  .of_lockstep fun n => (h.coupling n).lowerExpr x (.inl rfl)

theorem repeats_lowerOperand (x : Expr) (allow : Bool) :
    Repeats (lowerOperand e x allow) (lowerOperand e' (x.subst σ) allow) := by
  refine .of_lockstep fun n => ?_
  have hlock := (h.coupling n).lowerOperand x (.inl rfl) allow
  refine ⟨fun hw ha => ?_, hlock.fails⟩
  obtain ⟨b, t', hb, hI, hrel⟩ := hlock.gives hw ha
  refine ⟨b, t', hb, hI, ?_⟩
  cases hrel with
  | value hv => rw [hv]
  | register => rfl

theorem repeats_store (v : Value) (t : Expr) : Repeats (store e v t) (store e' v t) :=
  (repeats_ofExcept fun _ hid => h.storeTarget hid).bind fun _ =>
    (repeats_onBank _).bind fun _ => (repeats_extend _ _).bind fun _ => repeats_load _ _

theorem repeats_stores (v : Value) (ts : List Expr) :
    Repeats (ts.mapM (store e v)) (ts.mapM (store e' v)) := by
  induction ts with
  | nil => exact repeats_pure _
  | cons t ts ih =>
    rw [List.mapM_cons, List.mapM_cons]
    exact (repeats_store h v t).bind fun _ => ih.bind fun _ => repeats_pure _

end

theorem supply_le_lowerExpr {x : Expr} {w w' : Workshop} {v : Value}
    (h : Gives (lowerExpr e x) w v w') : w.supply ≤ w'.supply :=
  (repeats_lowerExpr (.refl e) x w w (.refl w) v w' h).1

end Expressions

end Sequencer.Lowering
