import Sequencer.Proofs.Lowering.Values

/-!
# Comparison chains

A chain of comparisons becomes one test for each pair of neighbours, joined by `and`. The operands
are made once each, and an operand in the middle is the same node in both of its tests (`Compares`).
-/

namespace Sequencer.Lowering

open Circuit Program Simulation Value

/-- A test of two operands. -/
structure Comparison where
  op : CompareOp
  left : Value
  right : Value

/-- Whether the operands compare, as unsigned words. -/
def Comparison.holds (σ : Valuation) (c : Comparison) : Bool :=
  let x := denote σ c.left
  let y := denote σ c.right
  match c.op with
  | .eq => x = y
  | .ne => x ≠ y
  | .lt => x < y
  | .le => x ≤ y
  | .gt => y < x
  | .ge => y ≤ x

def Comparison.Evaluates (σ : Valuation) (c : Comparison) : Prop :=
  eval σ c.left = .ok (denote σ c.left) ∧ eval σ c.right = .ok (denote σ c.right)

/-- The tests of a chain from the operand `left` on. Each operand is made in the workshop that the
one before it left behind, where only tags were taken since. -/
inductive Compares (env : Env) : Value → List (CompareOp × Position × Expr) → Workshop →
    List Comparison → Workshop → Prop
  | nil {left : Value} {w : Workshop} : Compares env left [] w [] w
  | cons {left right : Value} {op : CompareOp} {pos : Position} {e : Expr}
      {links : List (CompareOp × Position × Expr)} {w w₁ w₂ w' : Workshop} {cs : List Comparison}
      (made : Gives (lowerExpr env e) w right w₁) (tags : OnlyTags w₁ w₂)
      (rest : Compares env right links w₂ cs w') :
      Compares env left ((op, pos, e) :: links) w (⟨op, left, right⟩ :: cs) w'

/-- The conjunction of some tests, or no value for none of them. -/
inductive Conjoins : Option Value → List Comparison → Prop
  | nil : Conjoins none []
  | single (tag : Nat) (c : Comparison) :
      Conjoins (some (.binary tag (hardwareCompare c.op) c.left c.right)) [c]
  | snoc {v : Value} {cs : List Comparison} (before : Conjoins (some v) cs) (tag tag' : Nat)
      (c : Comparison) : Conjoins (some (.binary tag .and v
        (.binary tag' (hardwareCompare c.op) c.left c.right))) (cs ++ [c])

/-! ### What a conjunction evaluates to -/

section Evaluation

variable {σ : Valuation} {v : Value} {cs : List Comparison}

theorem fault?_of_eval {x : UInt64} (h : eval σ v = .ok x) : fault? v = none := by
  unfold eval at h
  split at h
  · cases h
  · assumption

theorem truncate_truth (b : Bool) : truncate (truth b) 1 = truth b := by
  cases b <;> rfl

theorem width_test (tag : Nat) (c : Comparison) :
    (binary tag (hardwareCompare c.op) c.left c.right).width = 1 := by
  cases h : c.op <;> rfl

theorem denote_test (tag : Nat) (c : Comparison) :
    denote σ (.binary tag (hardwareCompare c.op) c.left c.right) = truth (c.holds σ) := by
  obtain ⟨op, l, r⟩ := c
  cases op <;> exact truncate_truth _

theorem fault?_test (tag : Nat) {c : Comparison} (h : c.Evaluates σ) :
    fault? (.binary tag (hardwareCompare c.op) c.left c.right) = none := by
  refine (fault?_binary (hardwareCompare_known c.op)).mpr
    ⟨⟨fault?_of_eval h.1, fault?_of_eval h.2⟩, ?_⟩
  cases c.op <;> rfl

/-- **A conjunction is one if all its tests hold**, and else zero. -/
theorem Conjoins.spec (h : Conjoins (some v) cs) (hcs : ∀ c ∈ cs, c.Evaluates σ) :
    v.width = 1 ∧ fault? v = none ∧ denote σ v = truth (∀ c ∈ cs, c.holds σ) := by
  generalize ho : some v = o at h
  induction h generalizing v with
  | nil => cases ho
  | single tag c =>
    cases ho
    refine ⟨width_test tag c, fault?_test tag (hcs c (by simp)), ?_⟩
    rw [denote_test]
    simp
  | @snoc u cs before tag tag' c ih =>
    cases ho
    obtain ⟨hwidth, hfault, hdenote⟩ := ih (fun d hd => hcs d (by simp [hd])) rfl
    have hnode : (binary tag .and u
        (.binary tag' (hardwareCompare c.op) c.left c.right)).width = 1 := by
      show max u.width (binary tag' (hardwareCompare c.op) c.left c.right).width = 1
      rw [hwidth, width_test]
      rfl
    have htest := fault?_test tag' (hcs c (by simp))
    refine ⟨hnode, (fault?_binary (by simp)).mpr ⟨⟨hfault, htest⟩, rfl⟩, ?_⟩
    rw [denote, hnode, hdenote, denote_test]
    have hand (a b : Bool) : truncate (applyOp .and (truth a) (truth b)) 1 = truth (a && b) := by
      cases a <;> cases b <;> rfl
    simp [hand, or_imp, forall_and]

end Evaluation

/-! ### What a chain becomes -/

variable {env : Env} {w w' : Workshop} {v : Value}

theorem onlyTags_conjoin {o : Option Value} {test : Value} (h : Gives (conjoin o test) w v w') :
    OnlyTags w w' := by
  cases o with
  | none =>
    obtain ⟨-, rfl⟩ := gives_pure.mp h
    exact ⟨w.supply, Nat.le_refl _, rfl⟩
  | some r =>
    obtain ⟨-, rfl⟩ := gives_newBinary.mp h
    exact .succ _

theorem Conjoins.conjoin {o : Option Value} {cs : List Comparison} (ho : Conjoins o cs)
    (c : Comparison) {tag : Nat}
    (h : Gives (conjoin o (.binary tag (hardwareCompare c.op) c.left c.right)) w v w') :
    Conjoins (some v) (cs ++ [c]) := by
  match o, ho with
  | none, .nil =>
    obtain ⟨rfl, -⟩ := gives_pure.mp h
    exact .single tag c
  | some r, ho =>
    obtain ⟨rfl, -⟩ := gives_newBinary.mp h
    exact .snoc ho _ tag c

/-- The tests that a chain of comparisons becomes, link by link. -/
theorem compares_of_lowerLinks (links : List (CompareOp × Position × Expr)) {left : Value}
    {o : Option Value} {before : List Comparison} (ho : Conjoins o before)
    (hne : before = [] → links ≠ []) (h : Gives (lowerLinks env left o links) w v w') :
    ∃ cs, Compares env left links w cs w' ∧ Conjoins (some v) (before ++ cs) := by
  induction links generalizing left o before w with
  | nil =>
    obtain ⟨rfl, rfl⟩ := gives_pure.mp h
    refine ⟨[], .nil, ?_⟩
    rw [List.append_nil]
    match o, ho with
    | none, .nil => exact absurd rfl (hne rfl)
    | some r, ho => exact ho
  | cons link links ih =>
    obtain ⟨op, pos, e⟩ := link
    rw [lowerLinks_cons] at h
    obtain ⟨right, w₁, hright, h⟩ := gives_bind.mp h
    obtain ⟨test, w₂, htest, h⟩ := gives_bind.mp h
    obtain ⟨rfl, rfl⟩ := gives_newBinary.mp htest
    obtain ⟨joined, w₃, hjoined, h⟩ := gives_bind.mp h
    obtain ⟨cs, hcs, hall⟩ := ih (ho.conjoin ⟨op, left, right⟩ hjoined) (by simp) h
    refine ⟨_, .cons hright ((OnlyTags.succ _).trans (onlyTags_conjoin hjoined)) hcs, ?_⟩
    simpa using hall

/-- **A chain is the conjunction of its comparisons.** -/
theorem chain_eq_conjunction {first : Expr} {links : List (CompareOp × Position × Expr)}
    (hne : links ≠ []) (h : Gives (lowerExpr env (.compare first links)) w v w') :
    ∃ u w₀ cs, Gives (lowerExpr env first) w u w₀ ∧ Compares env u links w₀ cs w' ∧
      Conjoins (some v) cs ∧ ∀ σ, (∀ c ∈ cs, c.Evaluates σ) →
        eval σ v = .ok (if ∀ c ∈ cs, c.holds σ then 1 else 0) := by
  rw [lowerExpr] at h
  obtain ⟨u, w₀, hu, h⟩ := gives_bind.mp h
  obtain ⟨cs, hcs, hall⟩ := compares_of_lowerLinks links .nil (fun _ => hne) h
  refine ⟨u, w₀, cs, hu, hcs, hall, fun σ hσ => ?_⟩
  obtain ⟨-, hfault, hdenote⟩ := hall.spec hσ
  rw [eval, hfault, hdenote]
  simp [truth]

def risingLinks : List (CompareOp × Position × Expr) :=
  [(.lt, ⟨1, 3⟩, .int ⟨1, 5⟩ 2 "2"), (.lt, ⟨1, 7⟩, .int ⟨1, 9⟩ 2 "2")]

/-- `1 < 2 < 2` is a chain of two comparisons. -/
theorem rising_eq_conjunction : risingLinks ≠ [] ∧ ∃ v w',
    Gives (lowerExpr .empty (.compare (.int ⟨1, 1⟩ 1 "1") risingLinks)) (.new 1) v w' ∧
      ∃ cs, Conjoins (some v) cs ∧ ∀ σ, (∀ c ∈ cs, c.Evaluates σ) →
        eval σ v = .ok (if ∀ c ∈ cs, c.holds σ then 1 else 0) := by
  have hne : risingLinks ≠ [] := List.cons_ne_nil _ _
  obtain ⟨v, w', h, -⟩ : ∃ v w', Gives (lowerExpr .empty (.compare (.int ⟨1, 1⟩ 1 "1") risingLinks))
      (.new 1) v w' ∧ v.width = 1 := by decide
  obtain ⟨_, _, cs, -, -, hcs, heval⟩ := chain_eq_conjunction hne h
  exact ⟨hne, v, w', h, cs, hcs, heval⟩

end Sequencer.Lowering
