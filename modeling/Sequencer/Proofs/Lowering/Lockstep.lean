import Sequencer.Proofs.Lowering.Steps
import Sequencer.Proofs.Program.Substitution
import Sequencer.Proofs.Simulation.Settling

/-!
# Expressions side by side

An expression is lowered by the compiler, by the interpreter that gives the program its meaning, and
with some of its names written out. This module lowers it twice, side by side, in two scopes and on
two workshops. What has to be known of the relations between them is a `Coupling`.
-/

namespace Sequencer.Lowering

open Circuit Program Simulation Env Expr Lowering Build Value
open Program.Expr (subst)

/-! ### Refusals -/

/-- Whether a fault says what is wrong with a program. -/
def Fault.isRefusal : Fault → Bool
  | .malformed _ | .unsupported .. | .arity .. | .scope .. | .boundTwice _ => true
  | _ => false

/-- A refusal of a program, or a slice of a value that has no width. -/
def Fault.Expected (e : Fault) : Prop := e.isRefusal = true ∨ e = .unmeasurable

section Refusals

variable {env : Env} {e : Fault}

theorem isRefusal_foldBinary? {pos : Position} {op : BinaryOp} {l r : Int64}
    (h : foldBinary? pos op l r = some (.error e)) : e.isRefusal = true := by
  cases op <;> simp only [foldBinary?, reduceCtorEq, Option.some.injEq] at h
  all_goals
    split at h
    · cases h
      rfl
    · cases h

/-- What is wrong with a number of the program is said. -/
theorem isRefusal_constInt (x : Expr) (h : constInt env x = .error e) : e.isRefusal = true := by
  match x with
  | .int .. | .bool .. => simp [constInt] at h
  | .name pos ident =>
    rw [constInt] at h
    split at h
    · cases h
    · cases h
      rfl
    · cases h
      rfl
  | .unary opPos op operand =>
    obtain h | ⟨v, -, h⟩ := bind_eq_error.mp h
    · exact isRefusal_constInt operand h
    · cases op <;> cases h
      rfl
  | .binary opPos op left right =>
    obtain h | ⟨l, -, h⟩ := bind_eq_error.mp h
    · exact isRefusal_constInt left h
    · obtain h | ⟨r, -, h⟩ := bind_eq_error.mp h
      · exact isRefusal_constInt right h
      · split at h
        · rename_i hfold
          exact isRefusal_foldBinary? (h ▸ hfold)
        · cases h
          rfl
  | .compare .. | .boolOp .. | .call .. | .attr .. | .list .. | .yield .. =>
    simp only [constInt, Except.error.injEq] at h
    rw [← h]
    rfl

theorem isRefusal_calledIntrinsic {func : Expr} (h : calledIntrinsic env func = .error e) :
    e.isRefusal = true := by
  unfold calledIntrinsic at h
  split at h
  · split at h <;> cases h <;> rfl
  · cases h
    rfl

end Refusals

/-! ### Scopes -/

/-- In the first scope the names of `σ` stand for the integers that `σ` gives, and all other
integers of the first scope have their names in the second one. -/
structure Env.Knows (σ : String → Option Int64) (e e' : Env) : Prop where
  value : ∀ n v, σ n = some v → e.lookup n = some (.int v)
  int : ∀ n v, σ n = none → e.lookup n = some (.int v) → e'.lookup n = some (.int v)

/-- In the first scope the names of `σ` stand for the integers that `σ` gives; all other names
stand for the same in both. -/
structure Env.Reads (σ : String → Option Int64) (e e' : Env) : Prop where
  value : ∀ n v, σ n = some v → e.lookup n = some (.int v)
  lookup : ∀ n, σ n = none → e'.lookup n = e.lookup n

section Scopes

variable {σ : String → Option Int64} {e e' : Env} {n : String}

/-- A number computed at compile time stays the same with names written out. -/
theorem Env.Knows.constInt (h : Knows σ e e') (x : Expr) {v : Int64}
    (hx : constInt e x = .ok v) : constInt e' (x.subst σ) = .ok v := by
  match x with
  | .int _ _ _ | .bool _ _ => exact hx
  | .name pos ident =>
    rw [subst]
    cases hσ : σ ident with
    | some u =>
      simp only [Lowering.constInt, h.value ident u hσ] at hx
      exact hx
    | none =>
      rw [Lowering.constInt] at hx
      split at hx
      · rename_i u hu
        simp only [Lowering.constInt, h.int ident u hσ hu]
        exact hx
      · cases hx
      · cases hx
  | .unary opPos op operand =>
    rw [Lowering.constInt] at hx
    obtain ⟨u, hu, hx⟩ := bind_eq_ok.mp hx
    rw [subst, Lowering.constInt]
    refine bind_eq_ok.mpr ⟨u, h.constInt operand hu, ?_⟩
    cases op with
    | neg | pos | invert => exact hx
    | not => cases hx
  | .binary opPos op left right =>
    rw [Lowering.constInt] at hx
    obtain ⟨l, hl, hx⟩ := bind_eq_ok.mp hx
    obtain ⟨r, hr, hx⟩ := bind_eq_ok.mp hx
    rw [subst, Lowering.constInt]
    refine bind_eq_ok.mpr ⟨l, h.constInt left hl, bind_eq_ok.mpr ⟨r, h.constInt right hr, ?_⟩⟩
    cases hfold : foldBinary? opPos op l r with
    | none =>
      rw [hfold] at hx
      cases hx
    | some result =>
      rw [hfold] at hx
      exact hx
  | .compare .. | .boolOp .. | .call .. | .attr .. | .list .. | .yield .. => cases hx

theorem Env.Reads.refl (e : Env) : Reads (fun _ => none) e e := ⟨by simp, fun _ _ => rfl⟩

variable (h : Reads σ e e')

include h

theorem Env.Reads.knows : Knows σ e e' :=
  ⟨h.value, fun n _ hσ hn => (h.lookup n hσ).trans hn⟩

theorem Env.Reads.eq_none (hn : ∀ v, e.lookup n ≠ some (.int v)) : σ n = none := by
  cases hσ : σ n with
  | none => rfl
  | some v => exact absurd (h.value n v hσ) (hn v)

theorem Env.Reads.lookup_eq (hn : ∀ v, e.lookup n ≠ some (.int v)) :
    e'.lookup n = e.lookup n := h.lookup n (h.eq_none hn)

theorem Env.Reads.calledIntrinsic {func : Expr} {i : Intrinsic}
    (hi : calledIntrinsic e func = .ok i) : calledIntrinsic e' func = .ok i := by
  unfold Lowering.calledIntrinsic at hi ⊢
  split at hi
  · rename_i pos ident
    cases hb : e.lookup ident with
    | none => simp [hb] at hi
    | some b =>
      rw [h.lookup_eq (by rintro v hv; simp [hv] at hi), hb]
      rw [hb] at hi
      exact hi
  · cases hi

end Scopes

/-! ### Nodes -/

section Nodes

variable {w w' : Workshop} {v : Value} {pos : Position}

theorem gives_tagged (mk : Nat → Value) :
    Gives (ofFresh (do return mk (← fresh))) w v w' ↔ v = mk w.supply ∧ w' = w.tick := by
  rw [gives_ofFresh]
  exact and_congr_left' eq_comm

theorem gives_newConst {l : Literal} :
    Gives (ofFresh (newConst l)) w v w' ↔ v = .const w.supply l ∧ w' = w.tick :=
  gives_tagged fun tag => .const tag l

theorem gives_newBinary {op : Op} {l r : Value} :
    Gives (ofFresh (newBinary op l r)) w v w' ↔
      v = .binary w.supply op l r ∧ w' = w.tick :=
  gives_tagged fun tag => .binary tag op l r

theorem gives_sliceOf {x : Value} {lo hi : Int64} :
    Gives (sliceOf pos x lo hi) w v w' ↔
      (x.measurable = true ∧ 0 ≤ lo.toInt ∧ lo.toInt < hi.toInt ∧ hi.toInt ≤ x.width) ∧
        v = .slice w.supply x lo.toInt hi.toInt ∧ w' = w.tick := by
  unfold sliceOf
  split
  · simp_all
  · split
    · rename_i hm hb
      simp only [not_gives_throw, false_iff, not_and]
      rintro ⟨-, h₁, h₂, h₃⟩
      simp only [Bool.or_eq_true, decide_eq_true_eq, Int64.lt_iff_toInt_lt,
        Int64.le_iff_toInt_le] at hb
      simp at hb
      omega
    · rename_i hm hb
      rw [newSlice, gives_tagged]
      simp only [Bool.or_eq_true, decide_eq_true_eq, Int64.lt_iff_toInt_lt,
        Int64.le_iff_toInt_le] at hb
      simp at hb hm
      constructor
      · intro h
        refine ⟨⟨hm, ?_⟩, h⟩
        omega
      · exact fun h => h.2

theorem expected_sliceOf {x : Value} {lo hi : Int64} {e : Fault}
    (h : Fails (sliceOf pos x lo hi) w e w') : e.Expected := by
  unfold sliceOf at h
  split at h
  · exact .inr (fails_throw.mp h).1
  · split at h
    · exact .inl ((fails_throw.mp h).1 ▸ rfl)
    · exact (not_fails_ofFresh h).elim

end Nodes

theorem hardwareOp?_known {op : BinaryOp} {hop : Op} (h : hardwareOp? op = some hop) (code : Int) :
    hop ≠ .unknown code := by
  cases op <;> simp_all [hardwareOp?] <;> (subst h; simp)

theorem hardwareCompare_known (op : CompareOp) (code : Int) :
    hardwareCompare op ≠ .unknown code := by
  cases op <;> simp [hardwareCompare]

/-- The conjunction of a test with those before it. -/
def conjoin (result : Option Value) (test : Value) : Build Value :=
  match result with
  | none => pure test
  | some r => ofFresh (newBinary .and r test)

theorem lowerLinks_cons (env : Env) (left : Value) (result : Option Value) (op : CompareOp)
    (pos : Position) (e : Expr) (links : List (CompareOp × Position × Expr)) :
    lowerLinks env left result ((op, pos, e) :: links) = (do
      let right ← lowerExpr env e
      let test ← ofFresh (newBinary (hardwareCompare op) left right)
      let result ← conjoin result test
      lowerLinks env right (some result) links) := by
  cases result <;> rw [lowerLinks] <;> rfl

/-! ### Steps side by side -/

/-- From workshops related by `I`, what the step `x` gives is related by `R` to what `y` gives, the
workshops stay related, and `x` fails with the faults `E` only. -/
structure Lockstep {α : Type} (I : Workshop → Workshop → Prop) (E : Fault → Prop)
    (R : α → α → Prop) (x y : Build α) : Prop where
  gives : ∀ {w t a w'}, I w t → Gives x w a w' → ∃ b t', Gives y t b t' ∧ I w' t' ∧ R a b
  fails : ∀ {w t e w'}, I w t → Fails x w e w' → E e

section Lockstep

variable {α β : Type} {I : Workshop → Workshop → Prop} {E : Fault → Prop} {R : α → α → Prop}
  {S : β → β → Prop}

theorem Lockstep.bind {x y : Build α} {f g : α → Build β} (h : Lockstep I E R x y)
    (hfg : ∀ a b, R a b → Lockstep I E S (f a) (g b)) : Lockstep I E S (x >>= f) (y >>= g) where
  gives := by
    intro w t c w' hw hc
    obtain ⟨a, w₁, ha, hc⟩ := gives_bind.mp hc
    obtain ⟨b, t₁, hb, hw₁, hab⟩ := h.gives hw ha
    obtain ⟨d, t', hd, hw', hcd⟩ := (hfg a b hab).gives hw₁ hc
    exact ⟨d, t', gives_bind.mpr ⟨b, t₁, hb, hd⟩, hw', hcd⟩
  fails := by
    intro w t e w' hw he
    obtain he | ⟨a, w₁, ha, he⟩ := fails_bind.mp he
    · exact h.fails hw he
    · obtain ⟨b, t₁, -, hw₁, hab⟩ := h.gives hw ha
      exact (hfg a b hab).fails hw₁ he

theorem lockstep_pure {a b : α} (h : R a b) : Lockstep I E R (pure a) (pure b) where
  gives := by
    intro w t _ _ hw ha
    obtain ⟨rfl, rfl⟩ := gives_pure.mp ha
    exact ⟨b, t, gives_pure.mpr ⟨rfl, rfl⟩, hw, h⟩
  fails := fun _ h => (not_fails_pure h).elim

theorem lockstep_throw {e : Fault} (he : E e) (y : Build α) : Lockstep I E R (throw e) y where
  gives := fun _ h => (not_gives_throw h).elim
  fails := fun _ h => (fails_throw.mp h).1 ▸ he

theorem lockstep_ofExcept {x y : Except Fault α} (hok : ∀ a, x = .ok a → y = .ok a)
    (herror : ∀ e, x = .error e → E e) : Lockstep I E Eq (Build.ofExcept x) (Build.ofExcept y) where
  gives := by
    intro w t a _ hw ha
    obtain ⟨hx, rfl⟩ := gives_ofExcept.mp ha
    exact ⟨a, t, gives_ofExcept.mpr ⟨hok a hx, rfl⟩, hw, rfl⟩
  fails := fun _ h => herror _ (fails_ofExcept.mp h).1

end Lockstep

/-- What makes the expressions of two scopes be lowered in lockstep. -/
structure Coupling (I : Workshop → Workshop → Prop) (E : Fault → Prop) (R : Value → Value → Prop)
    (σ : String → Option Int64) (env env' : Env) : Prop where
  reads : Reads σ env env'
  expected : ∀ {e : Fault}, e.Expected → E e
  tick : ∀ {w t}, I w t → I w.tick t.tick
  value : ∀ {n v}, env.lookup n = some (.value v) → R v v
  register : ∀ {n id w t}, env.lookup n = some (.register id) → I w t →
    (∀ {e w'}, Fails (register id) w e w' → E e) ∧
      ∀ {r}, w.bank.registers[id]? = some r →
        ∃ r', t.bank.registers[id]? = some r' ∧ R (.signal r.storage) (.signal r'.storage)
  const : ∀ {w t l}, 1 ≤ l.bits → I w t → R (.const w.supply l) (.const t.supply l)
  binary : ∀ {w t op l l' r r'}, I w t → (∀ code, op ≠ .unknown code) → R l l' → R r r' →
    R (.binary w.supply op l r) (.binary t.supply op l' r')
  slice : ∀ {w t v v' lo hi}, I w t → R v v' → 0 ≤ lo ∧ lo < hi ∧ hi ≤ v.width →
    R (.slice w.supply v lo hi) (.slice t.supply v' lo hi)
  measure : ∀ {v v'}, R v v' → v'.measurable = v.measurable ∧ v'.width = v.width

/-- Operands of one kind: two values that are related, or registers of one width. -/
inductive Operand.Rel (R : Value → Value → Prop) : Operand → Operand → Prop
  | value {v u : Value} (h : R v u) : Rel R (.value v) (.value u)
  | register (width : Int) : Rel R (.register width) (.register width)

namespace Coupling

variable {I : Workshop → Workshop → Prop} {E : Fault → Prop} {R : Value → Value → Prop}
  {σ : String → Option Int64} {env env' : Env}

section

variable (c : Coupling I E R σ env env')

include c

theorem refusal {e : Fault} (he : e.isRefusal = true) : E e :=
  c.expected (.inl he)

theorem tagged {mk mk' : Nat → Value} (h : ∀ {w t}, I w t → R (mk w.supply) (mk' t.supply)) :
    Lockstep I E R (ofFresh (do return mk (← fresh)))
      (ofFresh (do return mk' (← fresh))) where
  gives := by
    intro w t _ _ hw ha
    obtain ⟨rfl, rfl⟩ := (gives_tagged mk).mp ha
    exact ⟨_, _, (gives_tagged mk').mpr ⟨rfl, rfl⟩, c.tick hw, h hw⟩
  fails := fun _ h => (not_fails_ofFresh h).elim

theorem newConst {l : Literal} (hl : 1 ≤ l.bits) :
    Lockstep I E R (ofFresh (newConst l)) (ofFresh (newConst l)) :=
  c.tagged (c.const hl)

theorem newBinary {op : Op} (hop : ∀ code, op ≠ .unknown code)
    {l l' r r' : Value} (hl : R l l') (hr : R r r') :
    Lockstep I E R (ofFresh (newBinary op l r))
      (ofFresh (newBinary op l' r')) :=
  c.tagged fun hw => c.binary hw hop hl hr

theorem sliceOf {v v' : Value} (hv : R v v') (pos : Position) (lo hi : Int64) :
    Lockstep I E R (sliceOf pos v lo hi) (sliceOf pos v' lo hi) where
  gives := by
    intro w t _ _ hw ha
    obtain ⟨⟨hm, hbounds⟩, rfl, rfl⟩ := gives_sliceOf.mp ha
    obtain ⟨hm', hw'⟩ := c.measure hv
    refine ⟨_, _, gives_sliceOf.mpr ⟨?_, rfl, rfl⟩, c.tick hw, c.slice hw hv hbounds⟩
    rw [hm', hw']
    exact ⟨hm, hbounds⟩
  fails := fun _ h => c.expected (expected_sliceOf h)

theorem intrinsic (func : Expr) :
    Lockstep I E Eq (Build.ofExcept (calledIntrinsic env func))
      (Build.ofExcept (calledIntrinsic env' func)) :=
  lockstep_ofExcept (fun _ => c.reads.calledIntrinsic)
    fun _ he => c.refusal (isRefusal_calledIntrinsic he)

theorem constInt (x : Expr) :
    Lockstep I E Eq (Build.ofExcept (constInt env x))
      (Build.ofExcept (Lowering.constInt env' (x.subst σ))) :=
  lockstep_ofExcept (fun _ => c.reads.knows.constInt x)
    fun _ he => c.refusal (isRefusal_constInt x he)

theorem lowerName (pos : Position) (ident : String) :
    Lockstep I E R (lowerName env pos ident) (lowerExpr env' ((Expr.name pos ident).subst σ)) := by
  cases hσ : σ ident with
  | some v =>
    simp only [subst, hσ, lowerExpr, Lowering.lowerName, c.reads.value ident v hσ]
    exact c.newConst (one_le_bitsFor v)
  | none =>
    simp only [subst, hσ, lowerExpr, Lowering.lowerName, c.reads.lookup ident hσ]
    split
    · exact lockstep_throw (c.refusal rfl) _
    · rename_i hb
      exact lockstep_pure (c.value hb)
    · rename_i id hb
      refine Lockstep.bind (R := fun r r' => R (.signal r.storage) (.signal r'.storage))
        ⟨fun hw hr => ?_, fun hw => (c.register hb hw).1⟩ fun r r' => lockstep_pure
      obtain ⟨hr, rfl⟩ := gives_register.mp hr
      obtain ⟨r', hr', hR⟩ := (c.register hb hw).2 hr
      exact ⟨r', _, gives_register.mpr ⟨hr', rfl⟩, hw, hR⟩
    · exact c.newConst (one_le_bitsFor _)
    · exact lockstep_throw (c.refusal rfl) _
    · exact lockstep_throw (c.refusal rfl) _

theorem conjoin {result result' : Option Value} {test test' : Value}
    (hresult : Option.Rel R result result') (htest : R test test') :
    Lockstep I E R (conjoin result test) (conjoin result' test') := by
  cases hresult with
  | none => exact lockstep_pure htest
  | some hr => exact c.newBinary (by simp) hr htest

end

mutual

/-- **An expression is lowered in lockstep**, where a chain without comparisons has no part in
it. -/
theorem lowerExpr (c : Coupling I E R σ env env') (x : Expr) (hx : R .hole .hole ∨ x.Linked) :
    Lockstep I E R (lowerExpr env x) (Lowering.lowerExpr env' (x.subst σ)) := by
  match x with
  | .int .. =>
    rw [subst, Lowering.lowerExpr, Lowering.lowerExpr]
    exact c.newConst (one_le_bitsFor _)
  | .bool .. =>
    rw [subst, Lowering.lowerExpr, Lowering.lowerExpr]
    exact c.newConst (Int.le_max_right _ _)
  | .name pos ident =>
    rw [Lowering.lowerExpr]
    exact c.lowerName pos ident
  | .binary opPos op left right =>
    have hparts : R .hole .hole ∨ left.Linked ∧ right.Linked :=
      hx.imp_right fun h => by cases h; exact ⟨‹_›, ‹_›⟩
    rw [subst, Lowering.lowerExpr, Lowering.lowerExpr]
    cases hop : hardwareOp? op with
    | none => exact lockstep_throw (c.refusal rfl) _
    | some hw =>
      exact (c.lowerExpr left (hparts.imp_right And.left)).bind fun l l' hl =>
        (c.lowerExpr right (hparts.imp_right And.right)).bind fun r r' hr =>
          c.newBinary (hardwareOp?_known hop) hl hr
  | .compare first links =>
    have hparts : R .hole .hole ∨ first.Linked ∧ links ≠ [] ∧ ∀ l ∈ links, l.2.2.Linked :=
      hx.imp_right fun h => by cases h; exact ⟨‹_›, ‹_›, ‹_›⟩
    rw [subst, Lowering.lowerExpr, Lowering.lowerExpr]
    refine (c.lowerExpr first (hparts.imp_right And.left)).bind fun v v' hv => ?_
    exact c.lowerLinks links hv .none
      (hparts.imp_right fun h => ⟨.inr h.2.1, h.2.2⟩)
  | .call func _ [y, lo] _ =>
    have hy : R .hole .hole ∨ y.Linked :=
      hx.imp_right fun h => by cases h; exact (List.forall_mem_cons.mp ‹_›).1
    rw [subst, substExprs, substExprs, substExprs, Lowering.lowerExpr, Lowering.lowerExpr]
    refine (c.intrinsic func).bind fun i _ hi => ?_
    subst hi
    cases i with
    | register | unknown code => exact lockstep_throw (c.refusal rfl) _
    | bitslice =>
      refine (c.lowerExpr y hy).bind fun v v' hv => (c.constInt lo).bind fun n _ hn => ?_
      exact hn ▸ c.sliceOf hv _ _ _
  | .call func _ [y, lo, hi] _ =>
    have hy : R .hole .hole ∨ y.Linked :=
      hx.imp_right fun h => by cases h; exact (List.forall_mem_cons.mp ‹_›).1
    rw [subst, substExprs, substExprs, substExprs, substExprs, Lowering.lowerExpr,
      Lowering.lowerExpr]
    refine (c.intrinsic func).bind fun i _ hi => ?_
    subst hi
    cases i with
    | register | unknown code => exact lockstep_throw (c.refusal rfl) _
    | bitslice =>
      refine (c.lowerExpr y hy).bind fun v v' hv => (c.constInt lo).bind fun n _ hn =>
        (c.constInt hi).bind fun m _ hm => ?_
      exact hn ▸ hm ▸ c.sliceOf hv _ _ _
  | .call func _ [] _ | .call func _ [_] _ | .call func _ (_ :: _ :: _ :: _ :: _) _ =>
    simp only [subst, substExprs, Lowering.lowerExpr]
    refine (c.intrinsic func).bind fun i _ hi => ?_
    subst hi
    cases i <;> exact lockstep_throw (c.refusal rfl) _
  | .boolOp .. | .unary .. | .attr .. | .list .. | .yield .. =>
    simp only [Lowering.lowerExpr]
    exact lockstep_throw (c.refusal rfl) _

/-- Where a chain of comparisons goes on from `left`, with the tests before it in `result`. -/
theorem lowerLinks (c : Coupling I E R σ env env') (links : List (CompareOp × Position × Expr))
    {left left' : Value} {result result' : Option Value} (hleft : R left left')
    (hresult : Option.Rel R result result')
    (hlinks : R .hole .hole ∨ (result ≠ none ∨ links ≠ []) ∧ ∀ l ∈ links, l.2.2.Linked) :
    Lockstep I E R (lowerLinks env left result links)
      (lowerLinks env' left' result' (substLinks σ links)) := by
  match links with
  | [] =>
    refine lockstep_pure ?_
    cases hresult with
    | none => exact hlinks.resolve_right fun h => by simp at h
    | some hr => exact hr
  | (op, pos, y) :: links =>
    have hy : R .hole .hole ∨ y.Linked ∧ ∀ l ∈ links, l.2.2.Linked :=
      hlinks.imp_right fun h => List.forall_mem_cons.mp h.2
    rw [substLinks, lowerLinks_cons, lowerLinks_cons]
    refine (c.lowerExpr y (hy.imp_right And.left)).bind fun right right' hright =>
      (c.newBinary (hardwareCompare_known op) hleft hright).bind fun test test' htest =>
        (c.conjoin hresult htest).bind fun joined joined' hjoined => ?_
    exact c.lowerLinks links hright (.some hjoined) (hy.imp_right fun h => ⟨.inl (by simp), h.2⟩)

end

/-- The right side of an assignment is a value, or declares a register. -/
theorem lowerOperand (c : Coupling I E R σ env env') (x : Expr) (hx : R .hole .hole ∨ x.Linked)
    (allow : Bool) :
    Lockstep I E (Operand.Rel R) (lowerOperand env x allow)
      (Lowering.lowerOperand env' (x.subst σ) allow) := by
  have hvalue : Lockstep I E (Operand.Rel R) (do return Operand.value (← Lowering.lowerExpr env x))
      (do return Operand.value (← Lowering.lowerExpr env' (x.subst σ))) :=
    (c.lowerExpr x hx).bind fun _ _ h => lockstep_pure (.value h)
  cases x with
  | call func lparen args rparen =>
    rw [subst] at hvalue ⊢
    refine (c.intrinsic func).bind fun i _ hi => ?_
    subst hi
    cases i with
    | bitslice | unknown _ => exact hvalue
    | register =>
      cases allow with
      | false => exact lockstep_throw (c.refusal rfl) _
      | true =>
        match args with
        | [width] =>
          refine (c.constInt width).bind fun n _ hn => ?_
          subst hn
          dsimp only
          split
          · exact lockstep_throw (c.refusal rfl) _
          · exact lockstep_pure (.register _)
        | [] | _ :: _ :: _ => exact lockstep_throw (c.refusal rfl) _
  | name pos ident =>
    rw [subst] at hvalue ⊢
    cases hσ : σ ident with
    | none | some v =>
      rw [hσ] at hvalue
      exact hvalue
  | int | bool | binary | compare | boolOp | unary | attr | list | yield => exact hvalue

/-! In one scope nothing is written out. -/

variable (c : Coupling I E R (fun _ => none) env env) {x : Expr} (hx : R .hole .hole ∨ x.Linked)

include c hx

theorem lowerExpr_same : Lockstep I E R (Lowering.lowerExpr env x) (Lowering.lowerExpr env x) := by
  have h := c.lowerExpr x hx
  rwa [x.subst_none] at h

theorem lowerOperand_same (allow : Bool) : Lockstep I E (Operand.Rel R)
    (Lowering.lowerOperand env x allow) (Lowering.lowerOperand env x allow) := by
  have h := c.lowerOperand x hx allow
  rwa [x.subst_none] at h

end Coupling

end Sequencer.Lowering
