import Mathlib.Tactic.Common
import Sequencer.Design

/-!
# Steps of the compiler

The compiler is written in a monad of steps that change a state and may fail. Here a step is known
by its outcomes, `Gives x s a s'` and `Fails x s e s'`. Each way to make a step has one lemma for
each outcome, and the proofs about lowering only cite these.
-/

namespace Sequencer.Lowering

open Circuit

section Gives

variable {ε σ α β : Type}

/-- Started on `s`, the step `x` succeeds with `a` and leaves `s'` behind. -/
def Gives (x : ExceptT ε (StateM σ) α) (s : σ) (a : α) (s' : σ) : Prop :=
  (show Except ε α × σ from x s) = (.ok a, s')

theorem run_bind (x : ExceptT ε (StateM σ) α) (f : α → ExceptT ε (StateM σ) β) (s : σ) :
    (show Except ε β × σ from (x >>= f) s) = match (show Except ε α × σ from x s) with
      | (.ok a, s') => (show Except ε β × σ from f a s')
      | (.error e, s') => (.error e, s') := by
  show (show Except ε β × σ from (match (show Except ε α × σ from x s) with
     | (a, s') => (ExceptT.bindCont f a : StateM σ _) s')) = _
  rcases (show Except ε α × σ from x s) with ⟨_ | _, _⟩ <;> rfl

variable {x : ExceptT ε (StateM σ) α} {s s'' s' : σ} {b a : α} {e : ε}

theorem gives_bind {f : α → ExceptT ε (StateM σ) β} {b : β} :
    Gives (x >>= f) s b s'' ↔ ∃ a s', Gives x s a s' ∧ Gives (f a) s' b s'' := by
  unfold Gives
  rw [run_bind]
  rcases (show Except ε α × σ from x s) with ⟨e | a, s'⟩ <;> simp

@[simp]
theorem gives_pure : Gives (pure a : ExceptT ε (StateM σ) α) s b s' ↔ a = b ∧ s = s' := by
  show ((.ok a, s) : Except ε α × σ) = _ ↔ _
  simp

@[simp]
theorem not_gives_throw : ¬ Gives (throw e : ExceptT ε (StateM σ) α) s b s' := by
  show ¬ ((.error e, s) : Except ε α × σ) = _
  simp

theorem gives_get {a : σ} : Gives (get : ExceptT ε (StateM σ) σ) s a s' ↔ a = s ∧ s' = s := by
  show ((.ok s, s) : Except ε σ × σ) = _ ↔ _
  simp [eq_comm]

theorem gives_modify {f : σ → σ} {a : PUnit} :
    Gives (modify f : ExceptT ε (StateM σ) PUnit) s a s' ↔ s' = f s := by
  show ((.ok ⟨⟩, f s) : Except ε PUnit × σ) = _ ↔ _
  simp [eq_comm]

/-- What a step gives can be checked by running it. -/
instance decidableExistsGives {P : α → Prop} [DecidablePred P] :
    Decidable (∃ a s', Gives x s a s' ∧ P a) :=
  match h : (show Except ε α × σ from x s) with
  | (.ok a, s') => decidable_of_iff (P a)
    ⟨fun ha => ⟨a, s', h, ha⟩, fun ⟨_, _, hb, hP⟩ => by cases h.symm.trans hb; exact hP⟩
  | (.error _, _) => .isFalse fun ⟨_, _, hb, _⟩ => by cases h.symm.trans hb

theorem run_tryCatch (x : ExceptT ε (StateM σ) α) (h : ε → ExceptT ε (StateM σ) α) (s : σ) :
    (show Except ε α × σ from (tryCatch x h) s) = match (show Except ε α × σ from x s) with
      | (.ok a, s') => (.ok a, s')
      | (.error e, s') => (show Except ε α × σ from h e s') := by
  show (show Except ε α × σ from (match (show Except ε α × σ from x s) with
     | (a, s') => ((match a with
      | .ok a => pure (.ok a)
      | .error e => h e : StateM σ (Except ε α))) s')) = _
  rcases (show Except ε α × σ from x s) with ⟨_ | _, _⟩ <;> rfl

theorem Gives.of_tryCatch {h : ε → ExceptT ε (StateM σ) α} (hthrow : ∀ e, ∃ e', h e = throw e')
    (hx : Gives (tryCatch x h) s a s') : Gives x s a s' := by
  unfold Gives at hx ⊢
  rw [run_tryCatch] at hx
  rcases hxs : (show Except ε α × σ from x s) with ⟨e | b, s₁⟩
  · rw [hxs] at hx
    obtain ⟨e', he⟩ := hthrow e
    simp only [he] at hx
    exact absurd hx (by show ¬ ((.error e', s₁) : Except ε α × σ) = _; simp)
  · rwa [hxs] at hx

/-- Started on `s`, the step `x` fails with `e` and leaves `s'` behind. -/
def Fails (x : ExceptT ε (StateM σ) α) (s : σ) (e : ε) (s' : σ) : Prop :=
  (show Except ε α × σ from x s) = (.error e, s')

theorem fails_bind {f : α → ExceptT ε (StateM σ) β} :
    Fails (x >>= f) s e s'' ↔ Fails x s e s'' ∨ ∃ a s', Gives x s a s' ∧ Fails (f a) s' e s'' := by
  unfold Gives Fails
  rw [run_bind]
  rcases (show Except ε α × σ from x s) with ⟨e | a, s'⟩ <;> simp

@[simp]
theorem not_fails_pure : ¬ Fails (pure a : ExceptT ε (StateM σ) α) s e s' := by
  show ¬ ((.ok a, s) : Except ε α × σ) = _
  simp

theorem fails_throw {f : ε} : Fails (throw e : ExceptT ε (StateM σ) α) s f s' ↔ f = e ∧ s' = s := by
  show ((.error e, s) : Except ε α × σ) = _ ↔ _
  simp [eq_comm]

theorem not_fails_modify {f : σ → σ} : ¬ Fails (modify f : ExceptT ε (StateM σ) PUnit) s e s' := by
  show ¬ ((.ok ⟨⟩, f s) : Except ε PUnit × σ) = _
  simp

theorem fails_tryCatch {h : ε → ExceptT ε (StateM σ) α} :
    Fails (tryCatch x h) s e s'' ↔ ∃ e' s', Fails x s e' s' ∧ Fails (h e') s' e s'' := by
  unfold Fails
  rw [run_tryCatch]
  rcases (show Except ε α × σ from x s) with ⟨e' | a, s'⟩ <;> simp

theorem Gives.unique (h : Gives x s a s') (h' : Gives x s b s'') : a = b ∧ s' = s'' := by
  have heq := h.symm.trans h'
  simpa using heq

end Gives

/-- A workshop that has handed out one more tag. -/
def Workshop.tick (w : Workshop) : Workshop := { w with supply := w.supply + 1 }

namespace Build

variable {α β : Type} {w w' : Workshop} {a : α} {x : Except Fault α} {e : Fault}

theorem gives_ofFresh {x : Fresh α} :
    Gives (ofFresh x) w a w' ↔
      (show α × Nat from x w.supply).1 = a ∧
        w' = { w with supply := (show α × Nat from x w.supply).2 } := by
  show ((.ok (show α × Nat from x w.supply).1,
    { w with supply := (show α × Nat from x w.supply).2 }) : Except Fault α × Workshop) = _ ↔ _
  simp [eq_comm]

theorem gives_ofExcept : Gives (ofExcept x) w a w' ↔ x = .ok a ∧ w' = w := by
  show ((x, w) : Except Fault α × Workshop) = _ ↔ _
  simp [eq_comm]

theorem gives_onBank {f : Bank → Except Register.Error (α × Bank)} :
    Gives (onBank f) w a w' ↔ ∃ bank, f w.bank = .ok (a, bank) ∧ w' = { w with bank } := by
  unfold Gives onBank
  rcases f w.bank with e | ⟨b, bank⟩ <;> simp [and_assoc, eq_comm]

theorem not_fails_ofFresh {x : Fresh α} : ¬ Fails (ofFresh x) w e w' := by
  show ¬ ((.ok (show α × Nat from x w.supply).1,
    { w with supply := (show α × Nat from x w.supply).2 }) : Except Fault α × Workshop) = _
  simp

theorem fails_ofExcept : Fails (ofExcept x) w e w' ↔ x = .error e ∧ w' = w := by
  show ((x, w) : Except Fault α × Workshop) = _ ↔ _
  simp [eq_comm]

theorem gives_ofExcept_bind {f : α → Build β} {b : β} :
    Gives (ofExcept x >>= f) w b w' ↔ ∃ a, x = .ok a ∧ Gives (f a) w b w' := by
  simp [gives_bind, gives_ofExcept, and_assoc]

theorem fails_ofExcept_bind {f : α → Build β} :
    Fails (ofExcept x >>= f) w e w' ↔
      x = .error e ∧ w' = w ∨ ∃ a, x = .ok a ∧ Fails (f a) w e w' := by
  simp [fails_bind, fails_ofExcept, gives_ofExcept, and_assoc]

theorem fails_onBank {f : Bank → Except Register.Error (α × Bank)} :
    Fails (onBank f) w e w' ↔ ∃ why, f w.bank = .error why ∧ e = .register none why ∧ w' = w := by
  unfold Fails onBank
  rcases f w.bank with why | ⟨b, bank⟩
  · simp [eq_comm]
  · simp

theorem gives_note {m : String} {a : Unit} :
    Gives (note m) w a w' ↔ w' = { w with log := m :: w.log } := by
  show ((.ok (), { w with log := m :: w.log }) : Except Fault Unit × Workshop) = _ ↔ _
  simp [eq_comm]

theorem not_fails_note {m : String} : ¬ Fails (note m) w e w' := by
  show ¬ ((.ok (), { w with log := m :: w.log }) : Except Fault Unit × Workshop) = _
  simp

theorem not_fails_newRegister {name : String} {width : Int} {pool : Option Pool} :
    ¬ Fails (newRegister name width pool) w e w' := by
  intro h
  obtain h | ⟨_, _, -, h⟩ := fails_bind.mp h
  · exact not_fails_ofFresh h
  · obtain ⟨why, h, -⟩ := fails_onBank.mp h
    cases h

theorem gives_register {id : RegisterId} {r : Register} :
    Gives (register id) w r w' ↔ w.bank.registers[id]? = some r ∧ w' = w := by
  unfold register
  rw [gives_onBank]
  unfold Bank.get
  cases w.bank.registers[id]? <;> simp [Except.map, and_assoc]

theorem gives_fresh {n : Nat} : Gives (ofFresh fresh) w n w' ↔ n = w.supply ∧ w' = w.tick := by
  rw [gives_ofFresh]
  simp [fresh, Workshop.tick, eq_comm]

theorem gives_newState {body : List Circuit.Stmt} {s : State} :
    Gives (newState body) w s w' ↔ s = ⟨w.supply, body⟩ ∧ w' = w.tick := by
  rw [newState, gives_bind]
  simp [gives_fresh, and_assoc, eq_comm]

theorem not_fails_newState {body : List Circuit.Stmt} {f : State → α} :
    ¬ Fails (do return f (← newState body)) w e w' := by
  intro h
  obtain h | ⟨_, _, -, h⟩ := fails_bind.mp h
  · obtain h | ⟨_, _, -, h⟩ := fails_bind.mp h
    · exact not_fails_ofFresh h
    · exact not_fails_pure h
  · exact not_fails_pure h

end Build

namespace Lower

variable {α : Type} {x : Lower α} {f : Env → Build α} {s s' : Session} {env : Env}
  {w w' : Workshop} {a : α} {e : Fault}

theorem mk_eq_mk_iff {ρ σ τ : Type} {p : ρ × σ} {g : σ → τ} {r : ρ} {t : τ} :
    (p.1, g p.2) = (r, t) ↔ ∃ s, p = (r, s) ∧ t = g s := by
  obtain ⟨r', s⟩ := p
  simp [and_assoc, eq_comm]

theorem gives_build : Gives (build f) s a s' ↔ ∃ w, Gives (f s.env) s.shop a w ∧ s' = ⟨s.env, w⟩ :=
  mk_eq_mk_iff (g := Session.mk s.env)

theorem fails_build : Fails (build f) s e s' ↔ ∃ w, Fails (f s.env) s.shop e w ∧ s' = ⟨s.env, w⟩ :=
  mk_eq_mk_iff (g := Session.mk s.env)

theorem mk_shop_eq_iff {ρ : Type} {p : ρ × Session} {r : ρ} :
    (p.1, p.2.shop) = (r, w') ↔ ∃ env', p = (r, ⟨env', w'⟩) := by
  refine mk_eq_mk_iff.trans ⟨?_, ?_⟩
  · rintro ⟨s, h, rfl⟩
    exact ⟨s.env, h⟩
  · rintro ⟨env', h⟩
    exact ⟨_, h, rfl⟩

theorem gives_within :
    Gives (fun w => let (r, s) := x ⟨env, w⟩; (r, s.shop) : Build α) w a w' ↔
      ∃ env', Gives x ⟨env, w⟩ a ⟨env', w'⟩ := mk_shop_eq_iff

theorem fails_within :
    Fails (fun w => let (r, s) := x ⟨env, w⟩; (r, s.shop) : Build α) w e w' ↔
      ∃ env', Fails x ⟨env, w⟩ e ⟨env', w'⟩ := mk_shop_eq_iff

end Lower

end Sequencer.Lowering
