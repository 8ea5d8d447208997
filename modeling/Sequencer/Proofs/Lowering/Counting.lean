import Sequencer.Proofs.Lowering.Derivation

/-!
# How many states a program takes

A program can be read for the number of its states without lowering it (`stateCount`). Only loops
depend on the scope, and only on the integers in it.
-/

namespace Sequencer.Lowering

open List
open Circuit Program Env Plan Job

mutual

def stateCount (env : Env) : Program.Stmt → Nat
  | .assign target _ _ _ => if (targetName? target).isSome then 0 else 1
  | .expr (.yield _ _) => 1
  | .cond _ _ body orElse => 1 + stateCounts env body + stateCounts env orElse
  | .loop _ _ body => 1 + stateCounts env body
  | .each _ target iter body =>
    let name := ((targetName? target).map Prod.snd).getD ""
    let values := (iterValues env iter).toOption.getD []
    (values.map fun v => stateCounts (env.set name (.int v)) body).sum
  | _ => 0

def stateCounts (env : Env) : List Program.Stmt → Nat
  | [] => 0
  | s :: ss => stateCount env s + stateCounts env ss

end

/-- The number of states that a piece of program takes. -/
def Job.stateCount (env : Env) : Job → Nat
  | .stmt s => Lowering.stateCount env s
  | .block ss => stateCounts env ss
  | .copies name body values => (values.map fun v => stateCounts (env.set name (.int v)) body).sum

/-! ### Integers in scope -/

/-- All integers of the first scope have the same names in the second. -/
def Env.IntsIn (e f : Env) : Prop :=
  ∀ n v, e.lookup n = some (.int v) → f.lookup n = some (.int v)

namespace Env.IntsIn

variable {e e' f : Env} {name : String}

theorem refl (e : Env) : e.IntsIn e := fun _ _ h => h

theorem iterValues (h : e.IntsIn f) {x : Expr} {vs : List Int64}
    (hvs : iterValues e x = .ok vs) : Lowering.iterValues f x = .ok vs := by
  have hknows : Knows (fun _ => none) e f := ⟨by simp, fun n v _ hn => h n v hn⟩
  simpa only [Expr.subst_none] using hknows.iterValues hvs

theorem bind (h : e.IntsIn f) {id : RegisterId} (hb : e.bind name (.register id) = some e') :
    e'.IntsIn f := by
  unfold Env.bind at hb
  split at hb
  · cases hb
  · cases hb
    intro n v hn
    by_cases hname : n = name
    · subst hname
      simp [lookup_set_self] at hn
    · exact h n v (lookup_set_of_ne hname ▸ hn)

theorem bindNames (h : e.IntsIn f) {id : RegisterId} {names : List (Position × String)}
    (hb : e.bindNames id names = some e') : e'.IntsIn f :=
  bindNames_induct (P := fun e => e.IntsIn f) hb h fun h => h.bind

theorem push (h : e.IntsIn f) (hfree : e.lookup name = none) (v : Int64) :
    ((e.push name (.int v)).getD e).IntsIn (f.set name (.int v)) := by
  have hpush : (e.push name (.int v)).getD e
      = { e.set name (.int v) with loopVars := name :: e.loopVars } := by
    simp [Env.push, hfree]
  rw [hpush]
  intro n u hn
  by_cases hname : n = name
  · subst hname
    rw [lookup_set_self]
    exact (lookup_set_self e n (.int v)).symm.trans hn
  · rw [lookup_set_of_ne hname]
    exact h n u ((lookup_set_of_ne hname).symm.trans hn)

theorem pop {v : Int64} (h : e.IntsIn (f.set name (.int v))) (hp : e.pop name = some e') :
    e'.IntsIn f := by
  obtain ⟨vs, -, rfl⟩ := pop_eq_some.mp hp
  intro n u hn
  by_cases hname : n = name
  · subst hname
    rw [lookup_of_pop hp] at hn
    cases hn
  · rw [lookup, lookup_without hname] at hn
    exact lookup_set_of_ne hname ▸ h n u hn

end Env.IntsIn

/-! ### States of a plan -/

theorem allowed_of_gives_register {env : Env} {x : Expr} {allow : Bool} {w w' : Workshop}
    {width : Int} (h : Gives (lowerOperand env x allow) w (.register width) w') : allow = true := by
  by_contra hallow
  rw [Bool.not_eq_true] at hallow
  subst hallow
  unfold lowerOperand at h
  split at h
  · obtain ⟨i, -, h⟩ := Build.gives_ofExcept_bind.mp h
    cases i with
    | register =>
      obtain ⟨u, w₁, h, -⟩ := gives_bind.mp h
      exact not_gives_throw h
    | bitslice | unknown =>
      obtain ⟨v, w₁, -, h⟩ := gives_bind.mp h
      simp at h
  · obtain ⟨v, w₁, -, h⟩ := gives_bind.mp h
    simp at h

theorem targetName?_of_storeTarget {env : Env} {t : Expr} {id : RegisterId}
    (h : storeTarget env t = .ok id) : targetName? t = none := by
  cases t with
  | name => cases h
  | int | bool | binary | compare | boolOp | unary | call | attr | list | yield => rfl

/-- A plan has as many labels as its program takes states. -/
theorem Lowers.length_labels {s s' : Session} {j : Job} {p : Plan} (h : Lowers s j p s') {env : Env}
    (henv : s.env.IntsIn env) (hfree : j.Free s.env) :
    p.labels.length = j.stateCount env ∧ s'.env.IntsIn env := by
  induction h generalizing env with
  | nil s => exact ⟨by simp [Plan.labels, Job.stateCount, stateCounts], henv⟩
  | cons first others ih₁ ih₂ =>
    obtain ⟨h₁, henv₁⟩ := ih₁ henv trivial
    obtain ⟨h₂, henv₂⟩ := ih₂ henv₁ trivial
    refine ⟨?_, henv₂⟩
    simp only [Job.stateCount] at h₁ h₂
    simp only [labels_append, length_append, Job.stateCount, stateCounts, h₁, h₂]
  | @declare s s' target others pos value w width operand declared =>
    obtain ⟨env', henv', -, rfl⟩ := gives_declare.mp declared
    have hnames := allowed_of_gives_register operand
    have hname : (targetName? target).isSome = true := by
      simp only [all_cons, Bool.and_eq_true] at hnames
      exact hnames.1
    exact ⟨by simp [Plan.labels, Job.stateCount, stateCount, hname], henv.bindNames henv'⟩
  | @store s target others pos value w w' v loads operand stores =>
    have hname : targetName? target = none := by
      cases stores with
      | cons first => exact targetName?_of_storeTarget first
    exact ⟨by simp [Plan.labels, Job.stateCount, stateCount, hname], henv⟩
  | send | receive => exact ⟨by simp [Plan.labels, Job.stateCount, stateCount], henv⟩
  | cond value taken nonempty other ihy ihn =>
    obtain ⟨h₁, henv₁⟩ := ihy henv trivial
    obtain ⟨h₂, henv₂⟩ := ihn henv₁ trivial
    refine ⟨?_, henv₂⟩
    simp only [Job.stateCount] at h₁ h₂
    simp only [Plan.labels, length_cons, length_append, length_nil, h₁, h₂,
      Job.stateCount, stateCount]
    omega
  | loop value repeated nonempty ih =>
    obtain ⟨h₁, henv₁⟩ := ih henv trivial
    refine ⟨?_, henv₁⟩
    simp only [Job.stateCount] at h₁
    simp only [Plan.labels, length_cons, length_append, length_nil, h₁, Job.stateCount, stateCount]
    omega
  | each fresh range copies ih =>
    obtain ⟨pos, rfl, hname⟩ := loopTarget_eq_ok.mp fresh
    obtain ⟨h₁, henv₁⟩ := ih henv hname
    refine ⟨?_, henv₁⟩
    rw [h₁]
    simp [Job.stateCount, stateCount, targetName?, henv.iterValues range, Except.toOption]
  | noCopy s name body => exact ⟨by simp [Plan.labels, Job.stateCount], henv⟩
  | copy first popped others ih₁ ih₂ =>
    obtain ⟨h₁, henv₁⟩ := ih₁ (henv.push hfree _) trivial
    obtain ⟨h₂, henv₂⟩ := ih₂ (henv₁.pop popped) (lookup_of_pop popped)
    refine ⟨?_, henv₂⟩
    simp only [Job.stateCount] at h₁ h₂
    simp only [labels_append, length_append, Job.stateCount, map_cons, sum_cons, h₁, h₂]

/-- A block has as many states. -/
theorem Lowers.length_states {s s' : Session} {j : Job} {p : Plan} (h : Lowers s j p s')
    (hfree : j.Free s.env) : p.block.states.length = j.stateCount s.env := by
  obtain ⟨hlength, -⟩ := h.length_labels (.refl _) hfree
  rw [← hlength, ← map_label_nodes p none, Plan.block, length_map, length_map]

end Sequencer.Lowering
