import Sequencer.Proofs.Lowering.Growth

/-!
# Expressions that are refused

A program that cannot be compiled is **refused** with a fault that says what is wrong with it. The
compiler also has faults that no program should bring about. Lowering an expression never fails that
way, unless it slices a value that has no width.
-/

namespace Sequencer.Lowering

open List
open Circuit Program Simulation

/-! ### Names and compile-time integers -/

section Scope

variable {env : Env} {e : Fault}

theorem isRefusal_mapM {α β : Type} {f : α → Except Fault β} {l : List α}
    (hf : ∀ a ∈ l, ∀ e, f a = .error e → e.isRefusal = true) (h : l.mapM f = .error e) :
    e.isRefusal = true := by
  induction l with
  | nil => cases h
  | cons a l ih =>
    rw [mapM_cons] at h
    obtain h | ⟨b, -, h⟩ := bind_eq_error.mp h
    · exact hf a mem_cons_self e h
    · obtain h | ⟨bs, -, h⟩ := bind_eq_error.mp h
      · exact ih (fun a ha => hf a (mem_cons_of_mem _ ha)) h
      · cases h

theorem isRefusal_loopTarget {target : Expr} (h : loopTarget env target = .error e) :
    e.isRefusal = true := by
  unfold loopTarget at h
  split at h
  · split at h <;> cases h
    rfl
  · cases h
    rfl

/-- What is wrong with the range of a loop is said. -/
theorem isRefusal_iterValues {iter : Expr} (h : iterValues env iter = .error e) :
    e.isRefusal = true := by
  unfold iterValues at h
  split at h
  · exact isRefusal_mapM (fun a _ _ => isRefusal_constInt a) h
  · split at h
    · cases h
      rfl
    · obtain h | ⟨values, -, h⟩ := bind_eq_error.mp h
      · exact isRefusal_mapM (fun a _ _ => isRefusal_constInt a) h
      · dsimp only at h
        split at h
        · cases h
          rfl
        · split at h <;> cases h
          rfl
  · cases h
    rfl

end Scope

/-! ### Registers that can be loaded -/

/-- A register that is there and not finalized. -/
def Workshop.Has (w : Workshop) (id : RegisterId) : Prop :=
  ∃ r, w.bank.registers[id]? = some r ∧ r.selector = none

/-- A register that a name stands for can be loaded. -/
def Binding.Open (w : Workshop) : Binding → Prop
  | .register id => w.Has id
  | _ => True

/-- All registers in scope can still be loaded. -/
def Env.Open (env : Env) (w : Workshop) : Prop := env.All (Binding.Open w)

/-- Registers that could be loaded still can, and what is new among the sources has no missing or
empty parts. -/
structure Workshop.Keeps (w w' : Workshop) : Prop where
  registers : ∀ id, w.Has id → w'.Has id
  sources : ∀ v ∈ w'.bank.pool.values, v ∈ w.bank.pool.values ∨ v.Solid

namespace Workshop.Keeps

variable {w w₁ w' : Workshop}

theorem ofBank (h : w'.bank = w.bank) : w.Keeps w' := by
  refine ⟨fun id hid => ?_, fun v hv => .inl (h ▸ hv)⟩
  obtain ⟨r, hr, hsel⟩ := hid
  exact ⟨r, h ▸ hr, hsel⟩

theorem onlyTags (h : OnlyTags w w') : w.Keeps w' := by
  obtain ⟨n, -, rfl⟩ := h
  exact ofBank rfl

theorem tick (w : Workshop) : w.Keeps w.tick := onlyTags (.succ w)

theorem trans (h : w.Keeps w₁) (h' : w₁.Keeps w') : w.Keeps w' := by
  refine ⟨fun id hid => h'.registers id (h.registers id hid), fun v hv => ?_⟩
  obtain hv | hv := h'.sources v hv
  · exact h.sources v hv
  · exact .inr hv

theorem add {r : Register} (hregisters : w'.bank.registers = w.bank.registers ++ [r])
    (hpool : w'.bank.pool = w.bank.pool) (hsel : r.selector = none) :
    w.Keeps w' ∧ w'.Has w.bank.registers.length := by
  refine ⟨⟨fun id hid => ?_, fun v hv => .inl (hpool ▸ hv)⟩, r, by simp [hregisters], hsel⟩
  obtain ⟨r', hr', hsel'⟩ := hid
  exact ⟨r', hregisters ▸ getElem?_of_isPrefix (prefix_append _ _) hr', hsel'⟩

end Workshop.Keeps

variable {env : Env} {w w' : Workshop} {id : RegisterId}

theorem Env.Open.mono (h : env.Open w) (hk : w.Keeps w') : env.Open w' := by
  intro p hp
  have hopen := h p hp
  cases hb : p.2 with
  | register id =>
    rw [hb] at hopen
    exact hk.registers id hopen
  | value | int | intrinsic | resource => trivial

/-- A register that can be loaded, or a refusal. -/
def Workshop.Finds (w : Workshop) : Except Fault RegisterId → Prop
  | .ok id => w.Has id
  | .error e => e.isRefusal = true

section Finds

variable (hopen : env.Open w)

include hopen

theorem finds_lookupRegister (pos : Position) (ident : String) :
    w.Finds (lookupRegister env pos ident) := by
  unfold lookupRegister
  split
  · rfl
  · rename_i hb
    exact Env.All.lookup hopen hb
  · rfl

theorem finds_registerArg (x : Expr) : w.Finds (registerArg env x) := by
  unfold registerArg
  split
  · exact finds_lookupRegister hopen _ _
  · rfl

theorem finds_storeTarget (t : Expr) : w.Finds (storeTarget env t) := by
  unfold storeTarget
  split
  · split
    · split
      · exact finds_lookupRegister hopen _ _
      · rfl
    · rfl
  · rfl

end Finds

theorem Build.fails_register {e : Fault} (hid : w.Has id) : ¬ Fails (Build.register id) w e w' := by
  intro h
  obtain ⟨why, h, -⟩ := fails_onBank.mp h
  obtain ⟨r, hr, -⟩ := hid
  simp [Bank.get, hr, Except.map] at h

theorem Bank.load_of_has {b : Bank} {r : Register} (hr : b.registers[id]? = some r)
    (hsel : r.selector = none) (v : Value) : ∃ source r' pool,
      b.load id v = .ok (.load id source, ⟨pool, b.registers.set id r'⟩) ∧ r'.selector = none ∧
        ∀ u ∈ pool.values, u ∈ b.pool.values ∨ u = v := by
  cases hown : r.ownPool with
  | none =>
    refine ⟨(b.pool.intern v).1, r.addSource (b.pool.intern v).1, (b.pool.intern v).2, ?_,
      by simpa, (b.pool.intern_spec v).2.2⟩
    simp [Bank.load, Bank.get, hr, hsel, Bank.poolOf, hown, Bank.set, bind, Except.bind, pure,
      Except.pure]
  | some own =>
    refine ⟨(own.intern v).1,
      { r.addSource (own.intern v).1 with ownPool := some (own.intern v).2 },
      b.pool, ?_, by simpa, fun u hu => .inl hu⟩
    simp [Bank.load, Bank.get, hr, hsel, Bank.poolOf, hown, Bank.set, bind, Except.bind, pure,
      Except.pure]

theorem Build.fails_load {v : Value} {e : Fault} (hid : w.Has id) :
    ¬ Fails (Build.load id v) w e w' := by
  intro h
  obtain ⟨r, hr, hsel⟩ := hid
  obtain ⟨source, r', pool, hload, -⟩ := Bank.load_of_has hr hsel v
  obtain h | ⟨m, w₁, -, h⟩ := fails_bind.mp h
  · obtain ⟨why, h, -⟩ := fails_onBank.mp h
    rw [hload] at h
    cases h
  · exact not_fails_pure h

theorem Workshop.Keeps.load {v : Value} {st : Circuit.Stmt} (hid : w.Has id) (hv : v.Solid)
    (h : Gives (Build.load id v) w st w') : w.Keeps w' := by
  obtain ⟨r, hr, hsel⟩ := hid
  obtain ⟨source, r', pool, hload, hsel', hpool⟩ := Bank.load_of_has hr hsel v
  obtain ⟨source', bank, hbank, -, rfl⟩ := Build.gives_load.mp h
  rw [hload] at hbank
  cases hbank
  refine ⟨fun i hi => ?_, fun u hu => (hpool u hu).imp_right (by rintro rfl; exact hv)⟩
  obtain ⟨q, hq, hqsel⟩ := hi
  by_cases heq : i = id
  · exact ⟨r', (getElem?_set_iff hr).mpr (.inl ⟨heq, rfl⟩), hsel'⟩
  · exact ⟨q, (getElem?_set_iff hr).mpr (.inr ⟨heq, hq⟩), hqsel⟩

/-! ### Expressions -/

/-- Started on `w`, the step takes tags at most, and what it gives satisfies `Q`, or it fails as
expected. -/
structure Evaluates {α : Type} (x : Build α) (w : Workshop) (Q : α → Prop) : Prop where
  gives : ∀ a w', Gives x w a w' → OnlyTags w w' ∧ Q a
  fails : ∀ e w', Fails x w e w' → e.Expected

theorem evaluates_of_lockstep {α : Type} {x : Build α} {R : α → α → Prop}
    {Q : α → Prop} (h : Lockstep (fun w' t => t = w' ∧ OnlyTags w w') Fault.Expected R x x)
    (hQ : ∀ a b, R a b → Q a) : Evaluates x w Q where
  gives := by
    intro a w' ha
    obtain ⟨b, _, -, ⟨-, htags⟩, hR⟩ := h.gives ⟨rfl, .refl w⟩ ha
    exact ⟨htags, hQ a b hR⟩
  fails := fun _ _ he => h.fails ⟨rfl, .refl w⟩ he

theorem evaluates_extend {v : Value} (hv : v.Solid) (width : Int) :
    Evaluates (Build.ofFresh (v.extend width)) w Value.Solid where
  gives := by
    intro u w' h
    refine ⟨(extend_spec h).1, ?_⟩
    obtain ⟨rfl, -⟩ := Build.gives_ofFresh.mp h
    unfold Value.extend
    split
    · split
      · exact Int.le_max_right _ _
      · exact hv
    · exact hv
  fails := fun _ _ h => (Build.not_fails_ofFresh h).elim

section Expressions

variable {rs : List Resource} {e : Expr}

theorem Env.Open.coupling (hopen : env.Open w) (henv : env.Plain rs) :
    Coupling (fun w' t => t = w' ∧ OnlyTags w w') Fault.Expected (fun v u => u = v ∧ v.Solid)
      (fun _ => none) env env where
  reads := .refl env
  expected := id
  tick h := ⟨congrArg _ h.1, h.2.trans (.succ _)⟩
  value hb := (henv.lookup hb).elim
  register hb h := by
    obtain ⟨rfl, htags⟩ := h
    have hid := All.lookup (hopen.mono (.onlyTags htags)) hb
    exact ⟨fun hfails => (Build.fails_register hid hfails).elim, fun hr => ⟨_, hr, rfl, trivial⟩⟩
  const hl h := ⟨by rw [h.1], hl⟩
  binary h _ hl hr := ⟨by rw [h.1, hl.1, hr.1], hl.2, hr.2⟩
  slice h hv hbounds := ⟨by rw [h.1, hv.1], hbounds.2.1, hv.2⟩
  measure hv := by rw [hv.1]; exact ⟨rfl, rfl⟩

/-- An expression becomes a value without missing or empty parts, or is refused. -/
theorem evaluates_lowerExpr (henv : env.Plain rs) (hopen : env.Open w) (he : e.Linked) :
    Evaluates (lowerExpr env e) w Value.Solid :=
  evaluates_of_lockstep ((hopen.coupling henv).lowerExpr_same (.inr he)) fun _ _ => And.right

theorem evaluates_lowerOperand (henv : env.Plain rs) (hopen : env.Open w) (he : e.Linked)
    (allow : Bool) :
    Evaluates (lowerOperand env e allow) w fun o => ∀ v, o = .value v → v.Solid := by
  refine evaluates_of_lockstep ((hopen.coupling henv).lowerOperand_same (.inr he) allow) ?_
  rintro _ _ ⟨hv⟩ u hu
  · cases hu
    exact hv.2
  · cases hu

end Expressions

end Sequencer.Lowering
