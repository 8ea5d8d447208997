import Sequencer.Proofs.Lowering.Exchange
import Sequencer.Proofs.Lowering.Faults

/-!
# Loops over constants

A `for` loop could as well be written out: the body once for each value, with the value in the place
of the variable. The loop joins its copies to a block of its own, and the copies follow what stands
before them one at a time; the transitions come out the same since the labels of later states are
new.
-/

namespace Sequencer.Lowering

open List Env
open Circuit Program
open Binding (Regular)

/-! ### Two exchanges -/

/-- The exchange that changes nothing. -/
def Same (n : Nat) (_ : List String) (e e' : Env) : Prop := e' = e ∧ e.All (Regular n)

theorem exchange_same (n : Nat) : Exchange n (fun _ => none) (Same n) where
  reads := by
    rintro inner e _ ⟨rfl, -⟩
    exact ⟨by simp, fun n _ => rfl⟩
  regular h := h.2
  bind := by
    rintro inner e _ name id f ⟨rfl, he⟩ hf
    exact ⟨f, hf, rfl, he.bind (b := .register id) trivial hf⟩
  push := by
    rintro inner e _ name v ⟨rfl, he⟩ -
    exact ⟨rfl, he.push trivial⟩
  pop := by
    rintro inner e _ name f ⟨rfl, he⟩ hf
    exact ⟨f, hf, rfl, he.pop hf⟩

/-- The second scope is the first one without the active loop variable `name`, which stands for
`v`. The loop variables of the surrounding loops are `rest`. -/
structure Hides (n : Nat) (name : String) (v : Int64) (rest inner : List String) (e e' : Env) :
    Prop where
  value : e.lookup name = some (.int v)
  bindings : e'.bindings = without name e.bindings
  loopVars : e.loopVars = inner ++ name :: rest
  loopVars' : e'.loopVars = inner ++ rest
  notMem : name ∉ inner
  regular : e.All (Regular n)

theorem Hides.lookup {n : Nat} {name m : String} {v : Int64} {rest inner : List String} {e e' : Env}
    (h : Hides n name v rest inner e e') (hm : m ≠ name) : e'.lookup m = e.lookup m := by
  rw [Env.lookup, h.bindings, Env.lookup_without hm, Env.lookup]

/-- A loop variable can be written out while its loop is active. -/
theorem exchange_hides (n : Nat) (name : String) (v : Int64) (rest : List String) :
    Exchange n (only name v) (Hides n name v rest) where
  reads {inner e e'} h := by
    refine ⟨fun m u hu => ?_, fun m hm => h.lookup ?_⟩
    · obtain ⟨rfl, rfl⟩ : m = name ∧ v = u := by simpa [only] using hu
      exact h.value
    · simpa [only] using hm
  regular h := h.regular
  bind {inner e e' m id f} h hf := by
    unfold Env.bind at hf
    split at hf
    · cases hf
    · rename_i hmem
      cases hf
      have hne : m ≠ name := by
        rintro rfl
        simp [h.loopVars] at hmem
      have hmem' : m ∉ e'.loopVars := by
        rw [h.loopVars] at hmem
        rw [h.loopVars']
        grind
      refine ⟨e'.set m (.register id), by simp [Env.bind, hmem'], ?_⟩
      exact {
        value := by rw [lookup_set_of_ne hne.symm, h.value]
        bindings := without_set hne h.bindings
        loopVars := by rw [loopVars_set, h.loopVars]
        loopVars' := by rw [loopVars_set, h.loopVars']
        notMem := h.notMem
        regular := h.regular.set trivial }
  push {inner e e' m} u h hm := by
    have hne : m ≠ name := by
      rintro rfl
      simp [h.value] at hm
    have hm' : e'.lookup m = none := (h.lookup hne).trans hm
    rw [push_of_lookup hm, push_of_lookup hm']
    exact {
      value := by
        have hvalue := h.value
        rw [Env.lookup] at hvalue ⊢
        simp [lookup_append, hvalue]
      bindings := by simp [h.bindings, without, hne]
      loopVars := by simp [h.loopVars]
      loopVars' := by simp [h.loopVars']
      notMem := by simp [h.notMem, hne.symm]
      regular := push_of_lookup hm _ ▸ h.regular.push trivial }
  pop {inner e e' m f} h hf := by
    obtain ⟨vs, hvs, rfl⟩ := pop_eq_some.mp hf
    have hvars : inner ++ name :: rest = vs := by simpa [h.loopVars] using hvs
    have hne : name ≠ m := fun heq => h.notMem (by simp [heq])
    refine ⟨⟨without m e'.bindings, inner ++ rest⟩,
      pop_eq_some.mpr ⟨_, h.loopVars', rfl⟩, ?_⟩
    exact {
      value := by rw [Env.lookup, Env.lookup_without hne]; exact h.value
      bindings := by rw [h.bindings, without_comm]
      loopVars := hvars.symm
      loopVars' := rfl
      notMem := fun hmem => h.notMem (mem_cons_of_mem _ hmem)
      regular := h.regular.pop hf }

/-! ### Blocks in a row -/

namespace Block

theorem entry?_eq_none {b : Block} : b.entry? = none ↔ b.states = [] := by
  unfold entry?
  simp

theorem andThen_of_entry {a b : Block} {entry : StateId} (h : b.entry? = some entry) :
    a.andThen b = ⟨connect a.states a.exits entry ++ b.states, b.exits⟩ := by
  rw [andThen, h]

theorem andThen_of_states {a b : Block} (h : b.states = []) : a.andThen b = a := by
  rw [andThen, entry?_eq_none.mpr h]

/-- Blocks can be put in a row from either end, if the middle one goes on from none of the states
of the first. -/
theorem andThen_assoc {a b : Block} (h : ∀ s ∈ a.states, s.label ∉ b.exits) (c : Block) :
    (a.andThen b).andThen c = a.andThen (b.andThen c) := by
  cases hc : c.entry? with
  | none => rw [andThen_of_states (entry?_eq_none.mp hc), andThen_of_states (entry?_eq_none.mp hc)]
  | some entry =>
    rw [andThen_of_entry hc, andThen_of_entry hc]
    cases hb : b.entry? with
    | none =>
      have hstates := entry?_eq_none.mp hb
      have hnil : connect [] b.exits entry = [] := connect_of_notMem entry (by simp)
      rw [andThen_of_states hstates, hstates, hnil]
      exact (andThen_of_entry hc).symm
    | some first =>
      have hfirst : entry? ⟨connect b.states b.exits entry ++ c.states, c.exits⟩
          = some first := by
        obtain ⟨st, hst, rfl⟩ := Option.map_eq_some_iff.mp hb
        obtain ⟨rest, hrest⟩ := head?_eq_some_iff.mp hst
        have hlabels := map_label_connect b.states b.exits entry
        rw [hrest, map_cons, map_eq_cons_iff] at hlabels
        obtain ⟨st', rest', hconnect, hlabel, -⟩ := hlabels
        rw [hrest, hconnect]
        unfold entry?
        simp [hlabel]
      rw [andThen_of_entry hfirst, andThen_of_entry hb]
      have hstay : connect (connect a.states a.exits first) b.exits entry
          = connect a.states a.exits first :=
        connect_of_notMem entry
          (forall_label_connect (P := fun l => l ∉ b.exits) h a.exits first)
      simp only [connect_append, hstay, append_assoc]

end Block

theorem lowerStmts_append (acc : Block) (ss ts : List Program.Stmt) :
    lowerStmts acc (ss ++ ts) = lowerStmts acc ss >>= fun b => lowerStmts b ts := by
  induction ss generalizing acc with
  | nil => simp [lowerStmts]
  | cons st ss ih => simp [lowerStmts, ih]

section Unrolling

variable {s s' t : Session} {a b c : Block} {lo m n : Nat}

/-- **A block does not depend on what stands before it**: the states before it are connected to its
entry, and to nothing else. -/
theorem lowerStmts_after (hs : s.env.All (Regular n)) (ss : List Program.Stmt)
    (hn : n ≤ s.shop.supply) (hc : c.Within lo m) (ha : a.Within m s.shop.supply)
    (hm : m ≤ s.shop.supply) (h : Gives (lowerStmts a ss) s b s') :
    Gives (lowerStmts (c.andThen a) ss) s (c.andThen b) s' := by
  induction ss generalizing s a with
  | nil =>
    obtain ⟨rfl, rfl⟩ := gives_pure.mp h
    exact gives_pure.mpr ⟨rfl, rfl⟩
  | cons st ss ih =>
    obtain ⟨b₁, s₁, hb₁, h⟩ := gives_bind.mp h
    have hc₀ : s.Corresponds n (Same n) [] s := ⟨⟨rfl, hs⟩, .refl _, hn⟩
    obtain ⟨hsame, hnew⟩ := (exchange_same n).lowerStmt st hc₀ hb₁
    obtain ⟨t₁, -, hc₁⟩ := hsame.again
    have hapart : ∀ st ∈ c.states, st.label ∉ a.exits := by
      intro st hst hx
      exact absurd (hc.labels st hst) (Nat.not_lt.mpr (ha.exits _ hx).1)
    refine gives_bind.mpr ⟨b₁, s₁, hb₁, ?_⟩
    rw [Block.andThen_assoc hapart]
    exact ih ((exchange_same n).regular hc₁.env) hc₁.le (ha.followed hnew hm hsame.le)
      (Nat.le_trans hm hsame.le) h

theorem gives_copy {name : String} {v : Int64} {body : List Program.Stmt}
    (h : s.Corresponds n (Same n) [] t) (hfree : s.env.lookup name = none)
    (hb : Gives (Lower.withLoopVar name v (lowerStmts .empty body)) s b s') :
    Places n (Same n) [] (lowerStmts .empty (substStmts (only name v) body)) t s b s' ∧
      s'.env.lookup name = none := by
  obtain ⟨s₁, env, hs₁, hpop, rfl⟩ := Lower.gives_withLoopVar.mp hb
  obtain ⟨henv, hregular⟩ := h.env
  have hhides : Hides n name v s.env.loopVars []
      ((s.env.push name (.int v)).getD s.env) t.env := by
    rw [push_of_lookup hfree]
    exact {
      value := by
        have hnone := hfree
        rw [Env.lookup] at hnone ⊢
        simp [lookup_append, hnone]
      bindings := by
        have hself := without_of_lookup hfree
        rw [without] at hself ⊢
        rw [filter_append, hself, henv]
        simp
      loopVars := rfl
      loopVars' := by rw [henv]; rfl
      notMem := by simp
      regular := push_of_lookup hfree _ ▸ hregular.push trivial }
  have hbound : Session.Corresponds n (Hides n name v s.env.loopVars) []
      ⟨(s.env.push name (.int v)).getD s.env, s.shop⟩ t := ⟨hhides, h.shop, h.le⟩
  obtain ⟨⟨hle, t₁, ht₁, h₁⟩, hnew⟩ := (exchange_hides n name v s.env.loopVars).lowerStmts body
    hbound .empty (Nat.le_refl _) hs₁
  obtain ⟨vs, hvs, rfl⟩ := pop_eq_some.mp hpop
  -- Without its variable the scope after the body is the one that the copy leaves behind.
  have hvars : s.env.loopVars = vs := by simpa [h₁.env.loopVars] using hvs
  have henv₁ : t₁.env = ⟨without name s₁.env.bindings, vs⟩ := by
    rw [← h₁.env.bindings, ← hvars]
    exact congrArg (mk t₁.env.bindings) h₁.env.loopVars'
  exact ⟨⟨⟨hle, t₁, ht₁, ⟨henv₁, h₁.env.regular.pop hpop⟩, h₁.shop, h₁.le⟩, hnew⟩,
    lookup_of_pop hpop⟩

theorem gives_copies {name : String} {body : List Program.Stmt} (values : List Int64)
    (h : s.Corresponds n (Same n) [] t) (hfree : s.env.lookup name = none)
    (hacc : a.Within lo s.shop.supply) (hlo : lo ≤ s.shop.supply)
    (hb : Gives (unroll name (lowerStmts .empty body) a values) s b s') :
    Follows n (Same n) [] (lowerStmts a (copies name body values)) t s b s' ∧
      b.Within lo s'.shop.supply := by
  induction values generalizing s t a with
  | nil =>
    obtain ⟨rfl, rfl⟩ := gives_pure.mp hb
    exact ⟨⟨Nat.le_refl _, t, gives_pure.mpr ⟨rfl, rfl⟩, h⟩, hacc⟩
  | cons v vs ih =>
    obtain ⟨b₁, s₁, hb₁, hb⟩ := gives_bind.mp hb
    obtain ⟨⟨hcopy, hnew⟩, hfree₁⟩ := gives_copy h hfree hb₁
    obtain ⟨t₁, ht₁, h₁⟩ := hcopy.again
    have ht₁' := lowerStmts_after (h.env.1 ▸ h.env.2) _ (h.shop.supply ▸ h.le) hacc .empty
      (Nat.le_of_eq h.shop.supply.symm) ht₁
    rw [copies, flatMap_cons, lowerStmts_append]
    exact Follows.leads ⟨hcopy.le, t₁, ht₁', h₁⟩ fun t₂ h₂ => ih h₂ hfree₁
      (hacc.followed hnew hlo hcopy.le) (Nat.le_trans hlo hcopy.le) hb

/-- **Unrolling a loop equals lowering its copies**, in any enclosing block. The states with their
transitions, the exits, the registers with their sources and the scope afterwards are the same, and
only the progress messages differ. -/
theorem unrolling_eq_copies (hs : s.env.All (Regular s.shop.supply))
    {before body after : List Program.Stmt} {pos : Position} {target iter : Expr}
    (h : Gives (lowerStmts .empty (before ++ .each pos target iter body :: after)) s b s') :
    ∃ b₀ s₀ namePos name values t,
      Gives (lowerStmts .empty before) s b₀ s₀ ∧
      target = .name namePos name ∧ iterValues s₀.env iter = .ok values ∧
      Gives (lowerStmts .empty (before ++ copies name body values ++ after)) s b t ∧
      t.env = s'.env ∧ s'.shop.UpToLog t.shop := by
  rw [lowerStmts_append] at h
  obtain ⟨b₀, s₀, hbefore, h⟩ := gives_bind.mp h
  rw [lowerStmts] at h
  obtain ⟨b₁, _, hloop, hafter⟩ := gives_bind.mp h
  obtain ⟨name, values, s₁, htarget, hiter, hunroll, rfl⟩ := gives_each.mp hloop
  -- The loop starts in the same session as its copies.
  obtain ⟨n, hn⟩ : ∃ n, s.shop.supply = n := ⟨_, rfl⟩
  rw [hn] at hs
  have hsame : s.Corresponds n (Same n) [] s := ⟨⟨rfl, hs⟩, .refl _, Nat.le_of_eq hn.symm⟩
  obtain ⟨hfollows₀, hwithin₀⟩ :=
    (exchange_same n).lowerStmts before hsame .empty (Nat.le_refl _) hbefore
  obtain ⟨_, -, hc₀⟩ := hfollows₀.again
  have hregular₀ : s₀.env.All (Regular n) := (exchange_same n).regular hc₀.env
  have hsame₀ : s₀.Corresponds n (Same n) [] s₀ := ⟨⟨rfl, hregular₀⟩, .refl _, hc₀.le⟩
  have hfree := lookup_of_loopTarget htarget
  -- The copies become the same block as the loop, and are put after what stands before them.
  obtain ⟨⟨hle₁, t₁, ht₁, h₁⟩, hwithin₁⟩ :=
    gives_copies values hsame₀ hfree .empty (Nat.le_refl _) hunroll
  have hcopies : Gives (lowerStmts b₀ (copies name body values)) s₀ (b₀.andThen b₁) t₁ :=
    lowerStmts_after hregular₀ _ hc₀.le hwithin₀ .empty (Nat.le_refl _) ht₁
  -- What stands after the loop sees another log only.
  have hjoined := hwithin₀.followed hwithin₁ hfollows₀.le hle₁
  have hnoted (m : String) : Session.Corresponds n (Same n) [] ⟨s₁.env, s₁.shop.noted m⟩ t₁ :=
    ⟨h₁.env, ⟨h₁.shop.supply, h₁.shop.bank, h₁.shop.declared⟩, h₁.le⟩
  obtain ⟨⟨-, t, ht, hc⟩, -⟩ := (exchange_same n).lowerStmts after (hnoted _) hjoined
    (Nat.le_trans hfollows₀.le hle₁) hafter
  rw [substStmts_none] at ht
  obtain ⟨namePos, htarget, -⟩ := loopTarget_eq_ok.mp htarget
  refine ⟨b₀, s₀, namePos, name, values, t, hbefore, htarget, hiter, ?_, hc.env.1, hc.shop⟩
  rw [lowerStmts_append, lowerStmts_append, bind_assoc]
  exact gives_bind.mpr ⟨b₀, s₀, hbefore, gives_bind.mpr ⟨_, t₁, hcopies, ht⟩⟩

end Unrolling

def countdownBody : List Program.Stmt :=
  [.cond ⟨3, 9⟩ (.compare (.name ⟨3, 12⟩ "x") [(.eq, ⟨3, 14⟩, .name ⟨3, 17⟩ "i")])
    [.assign (.attr (.name ⟨4, 13⟩ "x") "store" ⟨4, 15⟩) [] ⟨4, 21⟩
      (.binary ⟨4, 25⟩ .sub (.name ⟨4, 23⟩ "i") (.int ⟨4, 27⟩ 1 "1"))] []]

def countdown : Program.Stmt :=
  .each ⟨2, 5⟩ (.name ⟨2, 9⟩ "i") (.list ⟨2, 14⟩ [.int ⟨2, 15⟩ 5 "5", .int ⟨2, 18⟩ 3 "3"] ⟨2, 19⟩)
    countdownBody

def counter : Program.Stmt :=
  .assign (.name ⟨1, 5⟩ "x") [] ⟨1, 7⟩
    (.call (.name ⟨1, 9⟩ "Register") ⟨1, 17⟩ [.int ⟨1, 18⟩ 4 "4"] ⟨1, 19⟩)

/-- The loop becomes four states, and so do its two copies. -/
theorem countdown_eq_copies : ∃ b s' t,
    Gives (lowerStmts .empty ([counter] ++ [countdown])) untouched b s' ∧ b.states.length = 4 ∧
      Gives (lowerStmts .empty ([counter] ++ copies "i" countdownBody [5, 3] ++ [])) untouched b t ∧
      t.env = s'.env ∧ s'.shop.UpToLog t.shop := by
  obtain ⟨b, s', hrun, hlength⟩ : ∃ b s', Gives (lowerStmts .empty ([counter] ++ [countdown]))
      untouched b s' ∧ b.states.length = 4 := by
    decide +kernel
  have hregular : untouched.env.All (Regular untouched.shop.supply) := by
    simp [untouched, All, Regular]
  obtain ⟨b₀, s₀, namePos, name, values, t, -, hname, hvalues, ht, henv, hshop⟩ :=
    unrolling_eq_copies hregular hrun
  cases hname
  cases hvalues
  exact ⟨b, s', t, hrun, hlength, ht, henv, hshop⟩

end Sequencer.Lowering
