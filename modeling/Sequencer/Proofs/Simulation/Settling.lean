import Sequencer.Proofs.Circuit.Shapes
import Sequencer.Simulation.Simulator

/-!
# Coming to rest

Where the logic does not read what it drives (`FeedForward`), one pass computes all values, so a
simulator can be described without its passes: `settled` is what the values come to, and `edge` what
the registers take at a clock edge.
-/

namespace Sequencer.Circuit

open List

/-- The signals that the statement itself reads, without those inside it. -/
def Stmt.ownReads : Stmt → List Signal
  | .assign _ v => v.reads
  | .branch test _ _ => test.reads
  | .select test _ _ => test.reads
  | _ => []

def reads (ss : List Stmt) : List Signal := (walk ss).flatMap Stmt.ownReads

variable {x : Signal}

theorem mem_reads {ss : List Stmt} : x ∈ reads ss ↔ ∃ s ∈ walk ss, x ∈ s.ownReads := mem_flatMap

theorem mem_foldl_distinct {l seen : List Signal} :
    x ∈ l.foldl (fun seen t => if t ∈ seen then seen else seen ++ [t]) seen ↔ x ∈ seen ∨ x ∈ l := by
  induction l generalizing seen with
  | nil => simp
  | cons t l ih =>
    rw [foldl_cons, ih]
    by_cases ht : t ∈ seen
    · simp only [ht, if_true, mem_cons]
      constructor
      · tauto
      · rintro (h | rfl | h)
        · exact .inl h
        · exact .inl ht
        · exact .inr h
    · simp [ht, or_assoc]

theorem mem_targets {ss : List Stmt} : x ∈ targets ss ↔ ∃ v, .assign x v ∈ walk ss := by
  unfold targets
  rw [mem_foldl_distinct, mem_filterMap]
  simp only [not_mem_nil, false_or]
  constructor
  · rintro ⟨s, hs, hx⟩
    split at hx
    · cases hx
      exact ⟨_, hs⟩
    · cases hx
  · rintro ⟨v, hv⟩
    exact ⟨_, hv, rfl⟩

/-! ### Blocks inside statements -/

/-- The statement has no statements inside it. -/
def Stmt.isLeaf : Stmt → Bool
  | .branch _ _ _ | .select _ _ _ => false
  | _ => true

def Stmt.test : Stmt → Value
  | .branch test _ _ | .select test _ _ => test
  | _ => .hole

/-- The block inside a statement that is carried out where the test has the value `v`. -/
def Stmt.chosen (v : UInt64) : Stmt → List Stmt
  | .branch _ yes no => if v ≠ 0 then yes else no.getD []
  | .select _ arms other =>
    ((arms.find? fun arm => v = arm.1.word).map Prod.snd).getD (other.getD [])
  | _ => []

theorem Stmt.self_mem_walk (s : Stmt) : s ∈ s.walk := by
  cases s <;> simp [walk]

theorem mem_walkArms {s : Stmt} {arms : List (Literal × List Stmt)} :
    s ∈ walkArms arms ↔ ∃ arm ∈ arms, s ∈ walk arm.2 := by
  induction arms with
  | nil => simp [walkArms]
  | cons arm arms ih => simp [walkArms, ih]

/-- The blocks inside a statement, in the order of walking. -/
def Stmt.blocks : Stmt → List (List Stmt)
  | .branch _ yes no => yes :: no.toList
  | .select _ arms other => arms.map Prod.snd ++ other.toList
  | _ => []

theorem Stmt.walk_eq_cons (s : Stmt) : s.walk = s :: s.blocks.flatMap Circuit.walk := by
  have harms : ∀ arms, walkArms arms = (arms.map Prod.snd).flatMap Circuit.walk := by
    intro arms
    induction arms with
    | nil => rfl
    | cons arm arms ih => rw [walkArms, ih, map_cons, flatMap_cons]
  have hoption : ∀ o : Option (List Stmt), walkOption o = o.toList.flatMap Circuit.walk := by
    intro o
    cases o <;> simp [walkOption]
  cases s <;> simp [walk, blocks, harms, hoption]

theorem Stmt.chosen_mem_blocks (s : Stmt) (v : UInt64) :
    s.chosen v = [] ∨ s.chosen v ∈ s.blocks := by
  have hoption : ∀ o : Option (List Stmt), o.getD [] = [] ∨ o.getD [] ∈ o.toList := by
    intro o
    cases o <;> simp
  cases s with
  | hole | assign _ _ | marker _ => exact .inl rfl
  | branch test yes no =>
    rw [chosen]
    split
    · exact .inr mem_cons_self
    · exact (hoption no).imp_right (mem_cons_of_mem _)
  | select test arms other =>
    rw [chosen]
    cases harm : arms.find? fun arm => v = arm.1.word with
    | none => exact (hoption other).imp_right (mem_append_right _)
    | some arm => exact .inr (mem_append_left _ (mem_map_of_mem (mem_of_find?_eq_some harm)))

theorem Stmt.walk_chosen_subset (s : Stmt) (v : UInt64) : Circuit.walk (s.chosen v) ⊆ s.walk := by
  obtain h | h := s.chosen_mem_blocks v
  · rw [h]
    exact nil_subset _
  · rw [walk_eq_cons]
    exact fun t ht => mem_cons_of_mem _ (mem_flatMap_of_mem h ht)

theorem Stmt.sizeOf_lt_of_mem_blocks {s : Stmt} {body : List Stmt} (h : body ∈ s.blocks) :
    sizeOf body < sizeOf s := by
  cases s with
  | hole | assign _ _ | marker _ => cases h
  | branch test yes no =>
    obtain rfl | h := mem_cons.mp h
    · simp +arith
    · obtain rfl := Option.mem_toList.mp h
      simp +arith
  | select test arms other =>
    obtain h | h := mem_append.mp h
    · obtain ⟨⟨l, body⟩, harm, rfl⟩ := mem_map.mp h
      have := sizeOf_lt_of_mem harm
      simp +arith at this ⊢
      omega
    · obtain rfl := Option.mem_toList.mp h
      simp +arith

theorem Stmt.ownReads_of_not_isLeaf {s : Stmt} (h : s.isLeaf = false) :
    s.ownReads = s.test.reads := by
  cases s <;> first | rfl | cases h

/-- **Induction over blocks**: a statement is followed into the blocks inside it. -/
theorem blocks_induct {motive : List Stmt → Prop} (nil : motive [])
    (cons : ∀ s ss, (∀ body ∈ s.blocks, motive body) → motive ss → motive (s :: ss)) :
    ∀ ss, motive ss
  | [] => nil
  | s :: ss => cons s ss (fun body _ => blocks_induct nil cons body) (blocks_induct nil cons ss)
termination_by ss => sizeOf ss
decreasing_by
  · have := Stmt.sizeOf_lt_of_mem_blocks ‹body ∈ s.blocks›
    simp +arith
    omega
  · simp +arith

/-- In a cycle, a statement is followed into the blocks that its test may choose. -/
theorem block_induct {motive : List Stmt → Prop} (nil : motive [])
    (cons : ∀ s ss, (∀ v, motive (s.chosen v)) → motive ss → motive (s :: ss)) : ∀ ss, motive ss :=
  blocks_induct nil fun s ss ih => cons s ss fun v =>
    (s.chosen_mem_blocks v).elim (fun h => h ▸ nil) (ih _)

end Sequencer.Circuit

namespace Sequencer.Simulation

open List
open Circuit

variable {ε α : Type} {x : Except ε α} {σ : Valuation}

theorem bind_eq_ok {β : Type} {f : α → Except ε β} {b : β} :
    x >>= f = .ok b ↔ ∃ a, x = .ok a ∧ f a = .ok b := by
  cases x <;> simp [bind, Except.bind]

theorem bind_eq_error {β : Type} {f : α → Except ε β} {e : ε} :
    x >>= f = .error e ↔ x = .error e ∨ ∃ a, x = .ok a ∧ f a = .error e := by
  cases x <;> simp [bind, Except.bind]

/-- Two steps, of which the second one does not look at what the first one gives. -/
theorem bind₂_eq_ok {β γ : Type} {y : Except ε β} {f : α → β → γ} {c : γ} :
    (do
      let a ← x
      let b ← y
      return f a b) = .ok c ↔ ∃ a b, x = .ok a ∧ y = .ok b ∧ f a b = c := by
  cases x <;> cases y <;> simp [bind, Except.bind, pure, Except.pure]

/-- What a computation gives can be checked by running it. -/
instance decidableExistsOk {P : α → Prop} [DecidablePred P] : Decidable (∃ a, x = .ok a ∧ P a) :=
  decidable_of_iff (x.toOption.any (fun a => decide (P a)) = true)
    (by cases x <;> simp [Except.toOption])

@[inherit_doc decidableExistsOk]
instance decidableEqError [DecidableEq ε] {e : ε} : Decidable (x = .error e) :=
  decidable_of_iff (x.map (fun _ => ()) = .error e) (by cases x <;> simp [Except.map])

/-! ### Blocks -/

@[simp]
theorem exec_nil (σ : Valuation) : exec σ [] = .ok [] := rfl

theorem exec_cons (σ : Valuation) (s : Stmt) (ss : List Stmt) :
    exec σ (s :: ss) = (do
      let us ← execStmt σ s
      let vs ← exec σ ss
      return us ++ vs) := rfl

theorem exec_append (σ : Valuation) (ss ts : List Stmt) :
    exec σ (ss ++ ts) = (do
      let us ← exec σ ss
      let vs ← exec σ ts
      return us ++ vs) := by
  induction ss with
  | nil => exact (bind_pure _).symm
  | cons s ss ih => simp only [cons_append, exec_cons, ih, bind_assoc, pure_bind, append_assoc]

theorem exec_singleton (σ : Valuation) (s : Stmt) : exec σ [s] = execStmt σ s := by
  show (execStmt σ s >>= fun us => pure (us ++ [])) = _
  simp only [append_nil, bind_pure]

theorem exec_cons_cons (σ : Valuation) (s t : Stmt) (ss : List Stmt) :
    exec σ (s :: t :: ss) = (do
      let us ← exec σ [s]
      let vs ← exec σ (t :: ss)
      return us ++ vs) := exec_append σ [s] (t :: ss)

theorem exec_map_ok {f : α → Stmt} {g : α → Write} {l : List α}
    (h : ∀ a ∈ l, exec σ [f a] = .ok [g a]) : exec σ (l.map f) = .ok (l.map g) := by
  induction l with
  | nil => rfl
  | cons a l ih =>
    rw [map_cons, ← singleton_append, exec_append, h a mem_cons_self,
      ih fun b hb => h b (mem_cons_of_mem _ hb)]
    rfl

theorem exec_assign (σ : Valuation) (x : Signal) (v : Value) :
    exec σ [.assign x v] = (eval σ v).map fun v => [(x, truncate v x.bits)] := by
  rw [exec_singleton]
  show execLeaf σ (.assign x v) = _
  rw [execLeaf]
  cases eval σ v <;> rfl

theorem exec_branch (σ : Valuation) (test : Value) (yes : List Stmt) (no : Option (List Stmt)) :
    exec σ [.branch test yes no] = (do
      let v ← eval σ test
      if v = 0 then exec σ (no.getD []) else exec σ yes) := by
  rw [exec_singleton, execStmt, visitStmt]
  refine congrArg _ (funext fun v => ?_)
  by_cases hv : v = 0 <;> cases no <;> simp [hv] <;> rfl

theorem exec_select (σ : Valuation) (x : Signal) (arms : List (Literal × List Stmt)) :
    exec σ [.select (.signal x) arms none] =
      (visitArms (execLeaf σ) σ (σ.get x) arms).map (Option.getD · []) := by
  have heval : eval σ (.signal x) = .ok (σ.get x) := rfl
  rw [exec_singleton, execStmt, visitStmt, heval]
  simp only [bind, Except.bind]
  cases visitArms (execLeaf σ) σ (σ.get x) arms with
  | error e => rfl
  | ok r => cases r <;> rfl

/-! ### What a block depends on and what it changes -/

section Visits

variable {leaf : Stmt → Except Fault (List α)} {s : Stmt} {ss : List Stmt} {as : List α}

theorem visitArms_eq (v : UInt64) (arms : List (Literal × List Stmt)) :
    visitArms leaf σ v arms = match arms.find? fun arm => v = arm.1.word with
      | some arm => (visit leaf σ arm.2).map some
      | none => .ok none := by
  induction arms with
  | nil => rfl
  | cons arm arms ih =>
    rw [visitArms, find?_cons]
    by_cases hv : v = arm.1.word
    · simp only [hv, if_true, decide_true]
      cases visit leaf σ arm.2 <;> rfl
    · simpa only [hv, if_false, decide_false] using ih

/-- Of the blocks inside a statement the test chooses one. -/
theorem visitStmt_chosen (hs : s.isLeaf = false) : visitStmt leaf σ s = (do
    let v ← eval σ s.test
    visit leaf σ (s.chosen v)) := by
  have hoption : ∀ o, visitOption leaf σ o = visit leaf σ (o.getD []) := by
    intro o
    cases o <;> rfl
  cases s with
  | hole | assign _ _ | marker _ => cases hs
  | branch test yes no =>
    rw [visitStmt]
    refine congrArg _ (funext fun v => ?_)
    rw [Stmt.chosen, hoption]
    split <;> rfl
  | select test arms other =>
    rw [visitStmt]
    refine congrArg _ (funext fun v => ?_)
    rw [Stmt.chosen, visitArms_eq, hoption]
    cases arms.find? fun arm => v = arm.1.word with
    | none => rfl
    | some arm =>
      simp only [Option.map_some, Option.getD_some]
      cases visit leaf σ arm.2 <;> rfl

theorem exists_leaf (h : visit leaf σ ss = .ok as) : ∀ a ∈ as, ∃ s ∈ walk ss, s.isLeaf = true ∧
    ∃ bs, visitStmt leaf σ s = .ok bs ∧ a ∈ bs := by
  induction ss using block_induct generalizing as with
  | nil =>
    cases h
    simp
  | cons s ss ihs ih =>
    obtain ⟨bs, cs, hone, hrest, rfl⟩ := bind₂_eq_ok.mp h
    intro a ha
    obtain ha | ha := mem_append.mp ha
    · cases hs : s.isLeaf with
      | true => exact ⟨s, by simp [walk, s.self_mem_walk], hs, bs, hone, ha⟩
      | false =>
        obtain ⟨v, -, hone⟩ := bind_eq_ok.mp ((visitStmt_chosen hs).symm.trans hone)
        obtain ⟨t, ht, hleaf⟩ := ihs v hone a ha
        exact ⟨t, by simp [walk, s.walk_chosen_subset v ht], hleaf⟩
    · obtain ⟨t, ht, hleaf⟩ := ih hrest a ha
      exact ⟨t, by simp [walk, ht], hleaf⟩

theorem exists_error {e : Fault} (h : visit leaf σ ss = .error e) : ∃ s ∈ walk ss,
    s.isLeaf = true ∧ visitStmt leaf σ s = .error e ∨
      s.isLeaf = false ∧ eval σ s.test = .error e := by
  induction ss using block_induct with
  | nil => cases h
  | cons s ss ihs ih =>
    obtain hone | ⟨bs, -, h⟩ := bind_eq_error.mp h
    · have hself : s ∈ walk (s :: ss) := by simp [walk, s.self_mem_walk]
      cases hs : s.isLeaf with
      | true => exact ⟨s, hself, .inl ⟨hs, hone⟩⟩
      | false =>
        obtain htest | ⟨v, -, hone⟩ := bind_eq_error.mp ((visitStmt_chosen hs).symm.trans hone)
        · exact ⟨s, hself, .inr ⟨hs, htest⟩⟩
        · obtain ⟨t, ht, hfault⟩ := ihs v hone
          exact ⟨t, by simp [walk, s.walk_chosen_subset v ht], hfault⟩
    · obtain hrest | ⟨cs, -, h⟩ := bind_eq_error.mp h
      · obtain ⟨t, ht, hfault⟩ := ih hrest
        exact ⟨t, by simp [walk, ht], hfault⟩
      · cases h

end Visits

theorem execStmt_chosen {s : Stmt} (hs : s.isLeaf = false) : execStmt σ s = (do
    let v ← eval σ s.test
    exec σ (s.chosen v)) :=
  visitStmt_chosen hs

/-- A block depends only on what it reads. -/
theorem exec_congr {σ τ : Valuation} (ss : List Stmt)
    (h : ∀ t ∈ walk ss, ∀ x ∈ t.ownReads, σ.get x = τ.get x) : exec σ ss = exec τ ss := by
  induction ss using block_induct with
  | nil => rfl
  | cons s ss ihs ih =>
    have hown := h s (by simp [walk, s.self_mem_walk])
    have hstmt : execStmt σ s = execStmt τ s := by
      cases hs : s.isLeaf with
      | true =>
        cases s with
        | hole | marker _ => rfl
        | assign x v => exact congrArg (· >>= _) (Value.eval_congr hown)
        | branch _ _ _ | select _ _ _ => cases hs
      | false =>
        rw [execStmt_chosen hs, execStmt_chosen hs,
          Value.eval_congr (by rwa [← Stmt.ownReads_of_not_isLeaf hs])]
        refine congrArg _ (funext fun v => ihs v fun t ht => h t ?_)
        simp [walk, s.walk_chosen_subset v ht]
    rw [exec_cons, exec_cons, hstmt, ih fun t ht => h t (by simp [walk, ht])]

/-- A write that some statement of `ss` may have caused. -/
def Caused (ss : List Stmt) (w : Write) : Prop :=
  (∃ v, .assign w.1 v ∈ ss) ∧ truncate w.2 w.1.bits = w.2

variable {ws : List Write}

/-- What a block writes is caused by one of its statements. -/
theorem exec_caused (ss : List Stmt) (h : exec σ ss = .ok ws) : ∀ w ∈ ws, Caused (walk ss) w := by
  intro w hw
  obtain ⟨s, hs, hleaf, us, hus, hw⟩ := exists_leaf h w hw
  cases s with
  | hole | marker _ => cases hus
  | branch _ _ _ | select _ _ _ => cases hleaf
  | assign x value =>
    obtain ⟨v, -, hus⟩ := bind_eq_ok.mp hus
    cases hus
    obtain rfl := mem_singleton.mp hw
    exact ⟨⟨value, hs⟩, truncate_truncate _ _⟩

theorem execStmt_caused {s : Stmt} (h : execStmt σ s = .ok ws) : ∀ w ∈ ws, Caused s.walk w := by
  simpa [walk] using exec_caused [s] ((exec_singleton σ s).trans h)

/-- What is wrong with a statement itself, apart from the statements inside it. -/
def ownFault? : Stmt → Option Fault
  | .hole => some (.unknownStatement "<nil>")
  | .marker m => some (.unknownStatement m.kind)
  | .assign _ v => fault? v
  | .branch test _ _ => fault? test
  | .select test _ _ => fault? test

theorem eval_eq_error {v : Value} {e : Fault} (h : eval σ v = .error e) : fault? v = some e := by
  unfold eval at h
  split at h
  · rename_i hv
    cases h
    exact hv
  · cases h

/-- A block fails with a fault of one of its statements. -/
theorem exec_error {e : Fault} (ss : List Stmt) (h : exec σ ss = .error e) :
    ∃ t ∈ walk ss, ownFault? t = some e := by
  obtain ⟨t, ht, hfault⟩ := exists_error h
  refine ⟨t, ht, ?_⟩
  obtain ⟨hleaf, hexec⟩ | ⟨hleaf, htest⟩ := hfault
  · cases t with
    | hole | marker _ =>
      cases hexec
      rfl
    | branch _ _ _ | select _ _ _ => cases hleaf
    | assign x v =>
      obtain hv | ⟨a, -, ha⟩ := bind_eq_error.mp hexec
      · exact eval_eq_error hv
      · cases ha
  · cases t with
    | hole | assign _ _ | marker _ => cases hleaf
    | branch _ _ _ | select _ _ _ => exact eval_eq_error htest

/-- A block without faulty statements can be executed. -/
theorem exec_ok (σ : Valuation) {ss : List Stmt} (h : ∀ t ∈ walk ss, ownFault? t = none) :
    ∃ ws, exec σ ss = .ok ws := by
  cases hexec : exec σ ss with
  | ok ws => exact ⟨ws, rfl⟩
  | error e =>
    obtain ⟨t, ht, he⟩ := exec_error ss hexec
    rw [h t ht] at he
    cases he

/-! ### Coming to rest -/

namespace Valuation

variable {τ : Valuation}

theorem get_override_of_notMem {x : Signal} (h : ∀ w ∈ ws, w.1 ≠ x) :
    (σ.override ws).get x = σ.get x := by
  induction ws generalizing σ with
  | nil => rfl
  | cons w ws ih =>
    rw [override_cons, ih fun v hv => h v (mem_cons_of_mem _ hv), get_set]
    rw [if_neg (h w mem_cons_self).symm]

theorem get_override_of_mem {x : Signal} (h : ∃ w ∈ ws, w.1 = x) :
    (σ.override ws).get x = (τ.override ws).get x := by
  rw [get_override, get_override]
  cases hx : ws.reverse.lookup x with
  | some v => rfl
  | none =>
    obtain ⟨w, hw, rfl⟩ := h
    rw [lookup_eq_none_iff] at hx
    simpa using hx w (mem_reverse.mpr hw)

theorem changes_eq_false_iff : σ.changes ws = false ↔ ∀ x, (σ.override ws).get x = σ.get x := by
  unfold changes
  simp only [ne_eq, decide_not, any_eq_false, Bool.not_eq_true', decide_eq_false_iff_not,
    Decidable.not_not]
  constructor
  · intro h x
    by_cases hx : ∃ w ∈ ws, w.1 = x
    · obtain ⟨w, hw, rfl⟩ := hx
      exact h w hw
    · exact get_override_of_notMem fun w hw hx' => hx ⟨w, hw, hx'⟩
  · exact fun h w _ => h w.1

def Same (σ τ : Valuation) : Prop := ∀ x, σ.get x = τ.get x

theorem Same.override (h : σ.Same τ) (ws : List Write) : (σ.override ws).Same (τ.override ws) := by
  intro x
  rw [get_override, get_override, h x]

theorem Same.set (h : σ.Same τ) (s : Signal) (v : UInt64) :
    (σ.set s v).Same (τ.set s v) := h.override [(s, v)]

theorem Same.exec_eq (h : σ.Same τ) (ss : List Stmt) : exec σ ss = exec τ ss :=
  exec_congr ss fun _ _ x _ => h x

theorem Same.changes_eq (h : σ.Same τ) (ws : List Write) : σ.changes ws = τ.changes ws := by
  simp only [changes, h.override ws _, h _]

end Valuation

theorem get_resets {xs : List Signal} {x : Signal} :
    (σ.override (Simulator.resets xs)).get x = if x ∈ xs then x.resetWord else σ.get x := by
  induction xs generalizing σ with
  | nil => rfl
  | cons y xs ih =>
    show ((σ.set y y.resetWord).override (Simulator.resets xs)).get x = _
    rw [ih, Valuation.get_set]
    by_cases hxs : x ∈ xs
    · simp [hxs]
    · by_cases hxy : x = y <;> simp [hxs, hxy]

/-- A fragment whose combinational logic does not read what it drives. -/
def FeedForward (f : Fragment) : Prop := ∀ x ∈ reads f.comb, x ∉ targets f.comb

/-- The values of all signals once the combinational logic of a feed-forward fragment has come to
rest. -/
def settled (f : Fragment) (σ : Valuation) : Except Fault Valuation := do
  let ws ← exec σ f.comb
  return σ.override (Simulator.resets (targets f.comb) ++ ws)

/-- The values right after a clock edge, before the combinational logic reacts. -/
def edge (f : Fragment) (σ : Valuation) : Except Fault Valuation := do
  let ws ← exec σ f.sync
  return σ.override ws

variable {f : Fragment}

theorem mem_targets_of_combWrites (h : exec σ f.comb = .ok ws) :
    ∀ w ∈ Simulator.resets (targets f.comb) ++ ws, w.1 ∈ targets f.comb := by
  intro w hw
  obtain hw | hw := mem_append.mp hw
  · obtain ⟨x, hx, rfl⟩ := mem_map.mp hw
    exact hx
  · exact mem_targets.mpr (exec_caused _ h w hw).1

/-- A pass over the combinational logic of a feed-forward fragment does not change what the next
pass does. -/
theorem FeedForward.exec_override (hf : FeedForward f) (hws : ∀ w ∈ ws, w.1 ∈ targets f.comb) :
    exec (σ.override ws) f.comb = exec σ f.comb := by
  refine exec_congr _ fun t ht x hx => Valuation.get_override_of_notMem fun w hw hwx => ?_
  exact hf x (mem_reads.mpr ⟨t, ht, hx⟩) (hwx ▸ hws w hw)

/-! ### The simulator -/

/-- Two computations that fail with the same fault or succeed with related results. -/
inductive Agree {ε α β : Type} (R : α → β → Prop) : Except ε α → Except ε β → Prop
  | ok {a : α} {b : β} : R a b → Agree R (.ok a) (.ok b)
  | error (e : ε) : Agree R (.error e) (.error e)

namespace Agree

variable {β γ δ : Type} {R : α → β → Prop} {S : γ → δ → Prop}

variable {y : Except ε β}

theorem bind {f : α → Except ε γ} {g : β → Except ε δ} (h : Agree R x y)
    (hfg : ∀ a b, R a b → Agree S (f a) (g b)) : Agree S (x >>= f) (y >>= g) := by
  cases h with
  | ok hab => exact hfg _ _ hab
  | error e => exact .error e

theorem foldlM {κ : Type} {f : α → κ → Except ε α} {g : β → κ → Except ε β} {ks : List κ}
    (h : ∀ k ∈ ks, ∀ a b, R a b → Agree R (f a k) (g b k)) {a : α} {b : β} (hab : R a b) :
    Agree R (ks.foldlM f a) (ks.foldlM g b) := by
  induction ks generalizing a b with
  | nil => exact .ok hab
  | cons k ks ih =>
    exact (h k mem_cons_self a b hab).bind fun a' b' hab' =>
      ih (fun k hk => h k (mem_cons_of_mem _ hk)) hab'

theorem ok_of_left (h : Agree R x y) {a : α} (hx : x = .ok a) : ∃ b, y = .ok b ∧ R a b := by
  cases h with
  | ok hab =>
    cases hx
    exact ⟨_, rfl, hab⟩
  | error e => cases hx

theorem ok_of_right (h : Agree R x y) {b : β} (hy : y = .ok b) : ∃ a, x = .ok a ∧ R a b := by
  cases h with
  | ok hab =>
    cases hy
    exact ⟨_, rfl, hab⟩
  | error e => cases hy

theorem eq {y : Except ε α} (h : Agree (· = ·) x y) : x = y := by
  cases h with
  | ok hab => rw [hab]
  | error e => rfl

end Agree

namespace Simulator

/-- The simulator that an action leaves behind when it succeeds. -/
def after {α : Type} (x : Action α) (s : Simulator) : Except Fault Simulator :=
  match (show Except Fault α × Simulator from x s) with
  | (.ok _, s') => .ok s'
  | (.error e, _) => .error e

/-- A simulator of the fragment `f` in which the signals have the values of `σ`. -/
structure Shows (f : Fragment) (s : Simulator) (σ : Valuation) : Prop where
  fragment : s.fragment = f
  combDriven : s.combDriven = targets f.comb
  syncDriven : s.syncDriven = targets f.sync
  values : s.values.Same σ

theorem after_settleWithin (n : Nat) (s : Simulator) :
    after (settleWithin (n + 1)) s = (do
      let ws ← s.combWrites
      if s.values.changes ws then after (settleWithin n) { s with values := s.values.override ws }
      else .ok s) := by
  simp only [after, settleWithin]
  cases s.combWrites with
  | error e => rfl
  | ok ws =>
    by_cases hchange : s.values.changes ws = true <;> simp [bind, Except.bind, hchange]

theorem changes_override (σ : Valuation) (ws : List Write) :
    (σ.override ws).changes ws = false := by
  refine Valuation.changes_eq_false_iff.mpr fun x => ?_
  by_cases hx : ∃ w ∈ ws, w.1 = x
  · exact Valuation.get_override_of_mem hx
  · exact Valuation.get_override_of_notMem fun w hw hwx => hx ⟨w, hw, hwx⟩

variable {s : Simulator}

theorem combWrites_eq (h : Shows f s σ) :
    s.combWrites = (exec σ f.comb).map (resets (targets f.comb) ++ ·) := by
  rw [combWrites, h.fragment, h.values.exec_eq, h.combDriven]
  cases exec σ f.comb <;> rfl

variable (hf : FeedForward f)

include hf

/-- **Feed-forward logic comes to rest in two passes**: the first one computes the values, and the
second one finds nothing to change. -/
theorem Shows.settle (h : Shows f s σ) : Agree (Shows f) (after settle s) (settled f σ) := by
  unfold Simulator.settle settled
  rw [show maxPasses = 14 + 1 + 1 from rfl, after_settleWithin, combWrites_eq h]
  cases hws : exec σ f.comb with
  | error e => exact .error e
  | ok ws =>
    have hmem := mem_targets_of_combWrites hws
    obtain ⟨all, hall⟩ : ∃ all, resets (targets f.comb) ++ ws = all := ⟨_, rfl⟩
    simp only [Except.map, bind, Except.bind, hall] at hmem ⊢
    by_cases hchange : s.values.changes all = true
    · have hshows : Shows f { s with values := s.values.override all } (σ.override all) :=
        ⟨h.fragment, h.combDriven, h.syncDriven, h.values.override all⟩
      rw [if_pos hchange, after_settleWithin, combWrites_eq hshows, hf.exec_override hmem, hws]
      simp only [Except.map, bind, Except.bind, hall, changes_override]
      exact .ok hshows
    · rw [if_neg hchange]
      refine .ok ⟨h.fragment, h.combDriven, h.syncDriven, fun x => ?_⟩
      rw [Bool.not_eq_true, Valuation.changes_eq_false_iff] at hchange
      rw [← hchange x, h.values.override all x]

/-- What setting an input does to a simulator, failures included. -/
theorem Shows.set (h : Shows f s σ) {x : Signal} (hc : x ∉ targets f.comb) (hs : x ∉ targets f.sync)
    (v : UInt64) :
    Agree (Shows f) (after (set x v) s) (settled f (σ.set x (truncate v x.bits))) := by
  have hfree : ¬ (x ∈ s.combDriven ∨ x ∈ s.syncDriven) := by
    rw [h.combDriven, h.syncDriven]
    simp [hc, hs]
  have hset : after (Simulator.set x v) s =
      after Simulator.settle { s with values := s.values.set x (truncate v x.bits) } := by
    simp only [after, Simulator.set, hfree, if_false]
  rw [hset]
  exact Shows.settle hf ⟨h.fragment, h.combDriven, h.syncDriven, h.values.set _ _⟩

/-- What a clock edge does to a simulator, failures included. -/
theorem Shows.step (h : Shows f s σ) : Agree (Shows f) (after step s) (edge f σ >>= settled f) := by
  have hstep : after Simulator.step s = (do
      let ws ← exec s.values s.fragment.sync
      after Simulator.settle { s with values := s.values.override ws, cycle := s.cycle + 1 }) := by
    unfold after Simulator.step
    cases exec s.values s.fragment.sync with
    | error e => rfl
    | ok ws =>
      simp only [bind, Except.bind]
      obtain ⟨⟨r, s'⟩, hr⟩ : ∃ r : Except Fault Unit × Simulator, Simulator.settle
        { s with values := s.values.override ws, cycle := s.cycle + 1 } = r := ⟨_, rfl⟩
      cases r <;> simp only [hr]
  have hexec : exec s.values s.fragment.sync = exec σ f.sync := by
    rw [h.fragment, h.values.exec_eq]
  rw [hstep, hexec, edge]
  cases exec σ f.sync with
  | error e => exact .error e
  | ok ws => exact Shows.settle hf ⟨h.fragment, h.combDriven, h.syncDriven, h.values.override ws⟩

/-- What a new simulator shows, failures included. -/
theorem shows_new (hmarker : f.firstMarker? = none)
    (hdomains : ∀ x ∈ targets f.sync, x ∉ targets f.comb) :
    Agree (Shows f) (new f) (settled f (Valuation.empty.override (resets (targets f.sync)))) := by
  have hfind : (targets f.sync).find? (· ∈ targets f.comb) = none := by
    simpa using hdomains
  have hnew : new f = after Simulator.settle ⟨f, targets f.comb, targets f.sync,
      Valuation.empty.override (resets (targets f.sync)), 0⟩ := by
    simp only [new, hmarker, hfind, after, reset]
    split <;> simp_all
  rw [hnew]
  exact Shows.settle hf ⟨rfl, rfl, rfl, fun _ => rfl⟩

end Simulator

/-! ### Histories -/

/-- Something that happens to a circuit from outside. -/
inductive Event (α β : Type) where
  /-- A value is put on an input. -/
  | put (x : α) (v : β)
  /-- The clock ticks. -/
  | tick

def Event.map {α β γ δ : Type} (f : α → γ) (g : β → δ) : Event α β → Event γ δ
  | put x v => put (f x) (g v)
  | tick => tick

/-- The simulator of a fragment after a history of events; the last event comes first. -/
def Simulator.play (f : Fragment) : List (Event Signal UInt64) → Except Fault Simulator
  | [] => new f
  | .put x v :: es => do after (set x v) (← play f es)
  | .tick :: es => do after step (← play f es)

end Sequencer.Simulation
