import Sequencer.Proofs.Lowering.Derivation

/-!
# The scope of loop variables

Lowering changes the scope in two ways only: a register takes the names it is declared under, and
the variable of a loop is bound around each copy of the body. So a loop variable is innermost again
at the end of each copy, and stands for the same integer wherever lowering comes to in between
(`Meets`).
-/

namespace Sequencer.Lowering

open List
open Circuit Program Env Lower Build

/-! ### What changes in a scope -/

/-- The names in the list may have become names of registers; nothing else has changed. -/
structure Env.Grows (names : List String) (e e' : Env) : Prop where
  loopVars : e'.loopVars = e.loopVars
  lookup : ∀ n, e'.lookup n = e.lookup n ∨
    n ∈ names ∧ n ∉ e.loopVars ∧ ∃ id, e'.lookup n = some (.register id)

namespace Env.Grows

variable {names names' : List String} {e e' e'' : Env} {n name : String} {v : Int64}

theorem refl (names : List String) (e : Env) : Grows names e e := ⟨rfl, fun _ => .inl rfl⟩

section

variable (h : Grows names e e')

include h

theorem trans (h' : Grows names e' e'') : Grows names e e'' where
  loopVars := h'.loopVars.trans h.loopVars
  lookup n := by
    obtain hn | ⟨hn, hactive, hid⟩ := h'.lookup n
    · rw [hn]
      exact h.lookup n
    · exact .inr ⟨hn, h.loopVars ▸ hactive, hid⟩

theorem mono (hsub : names ⊆ names') : Grows names' e e' :=
  ⟨h.loopVars, fun n => (h.lookup n).imp_right fun hn => ⟨hsub hn.1, hn.2⟩⟩

theorem lookup_eq (hn : n ∈ e.loopVars) : e'.lookup n = e.lookup n :=
  (h.lookup n).resolve_right fun hr => hr.2.1 hn

theorem lookup_eq_none (hn : n ∉ names) (hfree : e.lookup n = none) : e'.lookup n = none :=
  ((h.lookup n).resolve_right fun hr => hn hr.1).trans hfree

end

theorem bind {id : RegisterId} (h : e.bind n (.register id) = some e') (hn : n ∈ names) :
    Grows names e e' := by
  refine ⟨loopVars_bind h, fun m => ?_⟩
  unfold Env.bind at h
  split at h
  · cases h
  · rename_i hactive
    cases h
    by_cases hm : m = n
    · subst hm
      exact .inr ⟨hn, hactive, id, lookup_set_self ..⟩
    · exact .inl (lookup_set_of_ne hm)

/-- What is left of the changes in the body of a loop when its variable is unbound. -/
theorem pop (hfree : e.lookup name = none) (h : Grows names ((e.push name (.int v)).getD e) e') :
    ∃ e'', e'.pop name = some e'' ∧ Grows (names.filter (· ≠ name)) e e'' := by
  have hpush := push_of_lookup hfree (.int v)
  have hvars := h.loopVars
  rw [hpush] at hvars
  have hpop := pop_eq_some.mpr ⟨e.loopVars, hvars, rfl⟩
  refine ⟨_, hpop, rfl, fun n => ?_⟩
  by_cases hn : n = name
  · exact .inl (by rw [hn, lookup_of_pop hpop, hfree])
  have hwithout : Env.lookup ⟨Env.without name e'.bindings, e.loopVars⟩ n = e'.lookup n :=
    lookup_without hn _
  rw [hwithout]
  obtain heq | ⟨hmem, hactive, hid⟩ := h.lookup n
  · have hne : (n == name) = false := by simpa using hn
    rw [hpush] at heq
    exact .inl (heq.trans (by simp [Env.lookup, lookup_append, lookup_cons, hne]))
  · rw [hpush] at hactive
    exact .inr ⟨mem_filter.mpr ⟨hmem, by simpa using hn⟩,
      fun hmem => hactive (mem_cons_of_mem _ hmem), hid⟩

end Env.Grows

/-! ### What lowering leaves behind -/

mutual

/-- The names that a statement assigns, in its parts as well. -/
def assigned : Program.Stmt → List String
  | .assign target others _ _ => ((target :: others).filterMap targetName?).map Prod.snd
  | .cond _ _ body orElse => assignedAll body ++ assignedAll orElse
  | .loop _ _ body | .each _ _ _ body => assignedAll body
  | _ => []

def assignedAll : List Program.Stmt → List String
  | [] => []
  | s :: ss => assigned s ++ assignedAll ss

end

section Spares

variable {α β : Type} {names names' : List String} {x : Lower α} {s s' : Session} {name : String}

/-- What a step leaves of a scope, whether it succeeds or fails. -/
def left (x : Lower α) (s : Session) : Env := (show Except Fault α × Session from x s).2.env

/-- A step makes some names names of registers, and changes nothing else in the scope. -/
def Spares (names : List String) (x : Lower α) (s : Session) : Prop :=
  s.env.Grows names (left x s)

theorem spares_pure (a : α) : Spares names (pure a) s := .refl _ _

theorem spares_build (f : Env → Build α) : Spares names (build f) s := .refl _ _

theorem Spares.gives (h : Spares names x s) {a : α} (hx : Gives x s a s') :
    s.env.Grows names s'.env := by
  rwa [Spares, left, hx] at h

theorem Spares.bind {f : α → Lower β} (hx : Spares names x s)
    (hf : ∀ a s', Gives x s a s' → Spares names (f a) s') : Spares names (x >>= f) s := by
  rw [Spares, left, run_bind]
  rcases hxs : (show Except Fault α × Session from x s) with ⟨e | a, s'⟩
  · rwa [Spares, left, hxs] at hx
  · exact (hx.gives hxs).trans (hf a s' hxs)

theorem Spares.build_bind {f : Env → Build α} {g : α → Lower β}
    (hg : ∀ a w, Gives (f s.env) s.shop a w → Spares names (g a) ⟨s.env, w⟩) :
    Spares names (build f >>= g) s := by
  refine (spares_build f).bind fun a s' ha => ?_
  obtain ⟨w, hw, rfl⟩ := gives_build.mp ha
  exact hg a w hw

theorem spares_bindNames {targets : List (Position × String)} (h : targets.map Prod.snd ⊆ names)
    (id : RegisterId) : Spares names (targets.forM fun n => bindRegister n.1 n.2 id) s := by
  induction targets generalizing s with
  | nil => exact spares_pure _
  | cons n targets ih =>
    obtain ⟨hn, htargets⟩ := cons_subset.mp h
    refine Spares.bind (x := bindRegister n.1 n.2 id) ?_ fun _ _ _ => ih htargets
    unfold Spares left bindRegister
    cases hbind : s.env.bind n.2 (.register id) with
    | none => exact .refl _ _
    | some env => exact .bind hbind hn

theorem spares_lowerAssign (targets : List Expr) (value : Expr) :
    Spares ((targets.filterMap targetName?).map Prod.snd) (lowerAssign targets value) s := by
  refine .build_bind fun operand w _ => ?_
  cases operand with
  | value v => exact spares_build _
  | register width =>
    refine .build_bind fun id w _ => (spares_bindNames (Subset.refl _) id).bind fun _ _ _ => ?_
    exact .build_bind fun _ _ _ => spares_pure _

/-- **The body of a loop is lowered in exactly the scope with the variable**, and what it ends in is
passed on with the variable unbound. -/
theorem withLoopVar_eq (hfree : s.env.lookup name = none) {v : Int64}
    (hx : Spares names x ⟨(s.env.push name (.int v)).getD s.env, s.shop⟩) :
    let t : Session := ⟨(s.env.push name (.int v)).getD s.env, s.shop⟩
    ∃ env, (left x t).pop name = some env ∧ s.env.Grows (names.filter (· ≠ name)) env ∧
      Lower.withLoopVar name v x s = ((x t).1, ⟨env, (x t).2.shop⟩) := by
  intro t
  obtain ⟨env, hpop, hgrows⟩ := Grows.pop hfree hx
  refine ⟨env, hpop, hgrows, ?_⟩
  unfold Lower.withLoopVar
  rcases hxs : x t with ⟨r, s₁⟩
  have hpop : s₁.env.pop name = some env := by rwa [left, hxs] at hpop
  simp only [hpop]

theorem Spares.withLoopVar (hfree : s.env.lookup name = none) {v : Int64}
    (hx : Spares names x ⟨(s.env.push name (.int v)).getD s.env, s.shop⟩) :
    Spares (names.filter (· ≠ name)) (Lower.withLoopVar name v x) s := by
  obtain ⟨env, -, hgrows, heq⟩ := withLoopVar_eq hfree hx
  rwa [Spares, left, heq]

theorem spares_unroll {body : Lower Block} (hbody : ∀ s, Spares names body s)
    (hfree : s.env.lookup name = none) (acc : Block) (vs : List Int64) :
    Spares (names.filter (· ≠ name)) (unroll name body acc vs) s := by
  induction vs generalizing s acc with
  | nil => exact spares_pure _
  | cons v vs ih =>
    refine (Spares.withLoopVar hfree (hbody _)).bind fun b s' hb => ih ?_ _
    exact ((Spares.withLoopVar hfree (hbody _)).gives hb).lookup_eq_none (by simp) hfree

theorem Spares.mono (h : Spares names x s) (hsub : names ⊆ names') : Spares names' x s :=
  Grows.mono h hsub

theorem spares_each {pos : Position} {target iter : Expr} {body : List Program.Stmt}
    (hname : loopTarget s.env target = .ok name)
    (hbody : ∀ s, Spares names (lowerStmts .empty body) s) :
    Spares (names.filter (· ≠ name)) (lowerStmt (.each pos target iter body)) s := by
  refine .build_bind fun name' w hw => .build_bind fun vs w' _ => ?_
  obtain ⟨hname', -⟩ := gives_ofExcept.mp hw
  cases hname.symm.trans hname'
  exact (spares_unroll hbody (s := ⟨s.env, w'⟩) (lookup_of_loopTarget hname) _ _).bind
    fun _ _ _ => .build_bind fun _ _ _ => spares_pure _

mutual

theorem spares_lowerStmt (st : Program.Stmt) (s : Session) :
    Spares (assigned st) (lowerStmt st) s := by
  match st with
  | .assign target others pos value =>
    exact spares_lowerAssign _ _
  | .cond pos test body orElse =>
    exact .build_bind fun _ w _ => ((spares_lowerStmts body _ _).mono (subset_append_left ..)).bind
      fun _ _ _ => ((spares_lowerStmts orElse _ _).mono (subset_append_right ..)).bind
        fun _ _ _ => spares_build _
  | .loop pos test body =>
    exact .build_bind fun _ w _ => (spares_lowerStmts body _ _).bind fun _ _ _ => spares_build _
  | .each pos target iter body =>
    cases hname : loopTarget s.env target with
    | ok name =>
      exact (spares_each hname fun s => spares_lowerStmts body .empty s).mono (filter_subset_self _)
    | error e =>
      refine .build_bind fun name w hw => ?_
      cases hname.symm.trans (gives_ofExcept.mp hw).1
  | .expr e =>
    cases e with
    | yield pos value => exact spares_build _
    | _ => exact .refl _ _
  | .funcDef .. | .ret .. | .pass .. | .brk .. | .cont .. => exact .refl _ _

/-- What lowering does to a scope. -/
theorem spares_lowerStmts (ss : List Program.Stmt) (acc : Block) (s : Session) :
    Spares (assignedAll ss) (lowerStmts acc ss) s := by
  match ss with
  | [] =>
    exact spares_pure acc
  | st :: ss =>
    exact ((spares_lowerStmt st s).mono (subset_append_left ..)).bind fun b s' _ =>
      (spares_lowerStmts ss _ s').mono (subset_append_right ..)

end

theorem grows_of_unroll {target : Expr} {body : List Program.Stmt} {us : List Int64} {b : Block}
    (hname : loopTarget s.env target = .ok name)
    (hus : Gives (unroll name (lowerStmts .empty body) .empty us) s b s') :
    s.env.Grows ((assignedAll body).filter (· ≠ name)) s'.env :=
  (spares_unroll (spares_lowerStmts body _) (lookup_of_loopTarget hname) _ us).gives hus

end Spares

/-! ### Where lowering comes to -/

/-- While it lowers some statements in a session, lowering comes to others in another session. -/
inductive Meets : List Program.Stmt → Session → List Program.Stmt → Session → Prop
  | here : Meets ss s ss s
  | next (h : Gives (lowerStmt st) s b s') (hm : Meets ss s' ss' t) : Meets (st :: ss) s ss' t
  | yes (h : Gives (lowerExpr s.env test) s.shop v w) (hm : Meets body ⟨s.env, w⟩ ss' t) :
      Meets (.cond pos test body orElse :: ss) s ss' t
  | no (h : Gives (lowerExpr s.env test) s.shop v w)
      (hyes : Gives (lowerStmts .empty body) ⟨s.env, w⟩ b s') (hm : Meets orElse s' ss' t) :
      Meets (.cond pos test body orElse :: ss) s ss' t
  | loop (h : Gives (lowerExpr s.env test) s.shop v w) (hm : Meets body ⟨s.env, w⟩ ss' t) :
      Meets (.loop pos test body :: ss) s ss' t
  | each (hname : loopTarget s.env target = .ok name)
      (hvs : iterValues s.env it = .ok (us ++ v :: vs))
      (hus : Gives (unroll name (lowerStmts .empty body) .empty us) s b s')
      (henv : s'.env.push name (.int v) = some env) (hm : Meets body ⟨env, s'.shop⟩ ss' t) :
      Meets (.each pos target it body :: ss) s ss' t

theorem Env.push_eq_some {e f : Env} {name : String} {b : Binding} (h : e.push name b = some f) :
    e.lookup name = none ∧ f = ⟨e.bindings ++ [(name, b)], name :: e.loopVars⟩ := by
  cases hfree : e.lookup name with
  | some b' => simp [push, hfree] at h
  | none => simpa [push, set, hfree, eq_comm] using h

theorem Meets.lookup_eq {ss ss' : List Program.Stmt} {s t : Session} (h : Meets ss s ss' t)
    {n : String} {b : Binding} (hn : n ∈ s.env.loopVars) (hb : s.env.lookup n = some b) :
    n ∈ t.env.loopVars ∧ t.env.lookup n = some b := by
  induction h with
  | here => exact ⟨hn, hb⟩
  | next h _ ih =>
    have hgrows := (spares_lowerStmt _ _).gives h
    exact ih (hgrows.loopVars ▸ hn) ((hgrows.lookup_eq hn).trans hb)
  | yes _ _ ih | loop _ _ ih => exact ih hn hb
  | no _ hyes _ ih =>
    have hgrows := (spares_lowerStmts _ _ _).gives hyes
    exact ih (hgrows.loopVars ▸ hn) ((hgrows.lookup_eq hn).trans hb)
  | each hname _ hus henv _ ih =>
    have hgrows := grows_of_unroll hname hus
    obtain ⟨hfree, rfl⟩ := push_eq_some henv
    have hb := (hgrows.lookup_eq hn).trans hb
    refine ih (mem_cons_of_mem _ (hgrows.loopVars ▸ hn)) ?_
    rw [Env.lookup] at hb
    simp [Env.lookup, lookup_append, hb]

/-- A register cannot be declared under the name of an active loop variable. -/
theorem fails_bindNames_of_mem {targets : List (Position × String)} {s : Session} {n : String}
    (hn : n ∈ targets.map Prod.snd) (hactive : n ∈ s.env.loopVars) (id : RegisterId) :
    ∃ p m s', Fails (targets.forM fun n => bindRegister n.1 n.2 id) s
      (.scope p m .loopVariable) s' ∧ (p, m) ∈ targets ∧ m ∈ s.env.loopVars := by
  induction targets generalizing s with
  | nil => cases hn
  | cons t targets ih =>
    by_cases ht : t.2 ∈ s.env.loopVars
    · refine ⟨t.1, t.2, s, fails_bind.mpr (.inl ?_), mem_cons_self, ht⟩
      simp [Fails, bindRegister, Env.bind, ht]
    · have hbind : s.env.bind t.2 (.register id) = some (s.env.set t.2 (.register id)) := if_neg ht
      have hn : n ∈ targets.map Prod.snd := by
        obtain rfl | hn := mem_cons.mp hn
        · exact absurd hactive ht
        · exact hn
      obtain ⟨p, m, s', hfails, hmem, hm⟩ :=
        ih (s := ⟨s.env.set t.2 (.register id), s.shop⟩) hn (by simpa using hactive)
      exact ⟨p, m, s', fails_bind.mpr (.inr ⟨(), _, gives_bindRegister.mpr ⟨_, hbind, rfl⟩,
        hfails⟩), mem_cons_of_mem _ hmem, by simpa using hm⟩

theorem fails_lowerAssign {targets : List Expr} {value : Expr} {s s₁ : Session} {width : Int}
    {n : String} (hoperand : Gives (build fun env => lowerOperand env value
      (targets.all fun t => (targetName? t).isSome)) s (.register width) s₁)
    (hn : n ∈ (targets.filterMap targetName?).map Prod.snd) (hactive : n ∈ s.env.loopVars) :
    ∃ p m s', Fails (lowerAssign targets value) s (.scope p m .loopVariable) s' ∧
      (p, m) ∈ targets.filterMap targetName? ∧ m ∈ s.env.loopVars := by
  have henv : s₁.env = s.env := by
    obtain ⟨w, -, rfl⟩ := gives_build.mp hoperand
    rfl
  obtain ⟨id, w, hid⟩ : ∃ id w, Gives (do
    let id ← newRegister (((targets.filterMap targetName?).head?.map Prod.snd).getD "") width
      none
    modify fun w : Workshop => { w with declared := w.declared ++ [id] }
    return id) s₁.shop id w := ⟨_, _, rfl⟩
  obtain ⟨p, m, s', hfails, hmem, hm⟩ :=
    fails_bindNames_of_mem (s := ⟨s₁.env, w⟩) hn (henv ▸ hactive) id
  refine ⟨p, m, s', fails_bind.mpr (.inr ⟨_, s₁, hoperand, ?_⟩), hmem, henv ▸ hm⟩
  exact fails_bind.mpr (.inr ⟨id, _, gives_build.mpr ⟨w, hid, rfl⟩, fails_bind.mpr (.inl hfails)⟩)

end Sequencer.Lowering
