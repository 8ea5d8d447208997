import Sequencer.Proofs.Design.Anatomy

/-!
# Requests to registers

The registers of a design share one pool and are used in two phases. Here anything may be asked of
them in any order, and what is asked may be refused. A refused request is part of the history like
any other.
-/

namespace Sequencer

open List
open Circuit Lowering Build Bank Register

theorem idxOf?_eq_some_of_nodup {α : Type} [DecidableEq α] {l : List α} (hl : l.Nodup) {a : α}
    {i : Nat} : l.idxOf? a = some i ↔ l[i]? = some a := by
  rw [idxOf?_eq_some_iff, List.getElem?_eq_some_iff]
  constructor
  · rintro ⟨hi, ha, -⟩
    exact ⟨hi, ha⟩
  · rintro ⟨hi, ha⟩
    refine ⟨hi, ha, fun j hj hja => ?_⟩
    have hji : j = i := (hl.getElem_inj_iff).mp (hja.trans ha.symm)
    omega

namespace Pool

theorem values_intern (p : Pool) (v : Value) :
    (p.intern v).2.values = if v ∈ p.values then p.values else p.values ++ [v] := by
  unfold intern lookup
  cases h : p.values.idxOf? v with
  | none => simp [idxOf?_eq_none_iff.mp h]
  | some i =>
    obtain ⟨hi, hv, -⟩ := idxOf?_eq_some_iff.mp h
    simp [show v ∈ p.values from hv ▸ getElem_mem hi]

theorem nodup_intern {p : Pool} (h : p.values.Nodup) (v : Value) : (p.intern v).2.values.Nodup := by
  rw [values_intern]
  split
  · exact h
  · rename_i hv
    rw [nodup_append']
    exact ⟨h, nodup_singleton v, by simpa using hv⟩

/-- In a pool without repetitions values and numbers determine each other. -/
theorem lookup_eq_some_iff {p : Pool} (h : p.values.Nodup) {v : Value} {id : Int} :
    p.lookup v = some id ↔ p.value? id = some v := by
  have hlookup : p.lookup v = some id ↔ ∃ i : Nat, p.values.idxOf? v = some i ∧ id = i := by
    cases hv : p.values.idxOf? v <;> simp [lookup, hv, eq_comm]
  rw [hlookup, value?_eq_some_iff]
  constructor
  · rintro ⟨i, hi, rfl⟩
    exact ⟨i, rfl, (idxOf?_eq_some_of_nodup h).mp hi⟩
  · rintro ⟨i, rfl, hi⟩
    exact ⟨i, (idxOf?_eq_some_of_nodup h).mpr hi, rfl⟩

theorem value?_inj {p : Pool} (h : p.values.Nodup) {i j : Int} {v : Value}
    (hi : p.value? i = some v) (hj : p.value? j = some v) : i = j := by
  rw [← lookup_eq_some_iff h] at hi hj
  exact Option.some.inj (hi.symm.trans hj)

theorem isSome_value?_iff {p : Pool} {id : Int} : (p.value? id).isSome ↔ 0 ≤ id ∧ id < p.size := by
  rw [Option.isSome_iff_exists]
  simp only [value?_eq_some_iff]
  constructor
  · rintro ⟨v, i, rfl, hi⟩
    have hlt : i < p.values.length := (List.getElem?_eq_some_iff.mp hi).1
    exact ⟨by omega, by simpa [size] using hlt⟩
  · rintro ⟨h0, hlt⟩
    have hi : id.toNat < p.values.length := by
      unfold size at hlt
      omega
    exact ⟨p.values[id.toNat], id.toNat, by omega, getElem?_eq_getElem hi⟩

end Pool

/-! ### Requests -/

/-- A request to the registers and their common pool. -/
inductive Operation where
  | new (name : String) (width : Int)
  | load (id : RegisterId) (v : Value)
  | finalize (id : RegisterId)
  /-- Resolve a load, be it one that was handed out or not. -/
  | resolve (id : RegisterId) (source : SourceId)
  | intern (v : Value)
  | lookup (v : Value)

/-- What a granted request comes to. -/
inductive Answer where
  | register (id : RegisterId)
  | load (marker : Stmt)
  | finalized
  | assignment (s : Stmt)
  | source (id : SourceId)
  | found (id : Option SourceId)

namespace Operation

def step : Operation → Build Answer
  | new name width => do
    return .register (← Build.newRegister name width none)
  | load id v => do
    return .load (← Build.load id v)
  | finalize id => do
    Design.finalizeAll [id]
    return .finalized
  | resolve id source =>
    Build.onBank fun b => do
      return (.assignment (← b.resolveLoad (.marker (.load id source))), b)
  | intern v =>
    Build.onBank fun b =>
      let (id, pool) := b.pool.intern v
      .ok (.source id, { b with pool })
  | lookup v =>
    Build.onBank fun b => .ok (.found (b.pool.lookup v), b)

/-- The answer to a request, and the workshop it leaves behind, also if it is refused. -/
def outcome (o : Operation) (w : Workshop) : Except Fault Answer × Workshop := o.step w

def play (w : Workshop) : List Operation → List (Operation × Except Fault Answer) × Workshop
  | [] => ([], w)
  | o :: os =>
    let r := o.outcome w
    let rest := play r.2 os
    ((o, r.1) :: rest.1, rest.2)

end Operation

/-! ### What a request does -/

namespace Operation

variable {w : Workshop} {id : RegisterId} {r : Register} {source : SourceId}

theorem outcome_load_error {v : Value} {e : Error} (h : w.bank.load id v = .error e) :
    (load id v).outcome w = (.error (.register none e), w) :=
  fails_bind.mpr (.inl (fails_bind.mpr (.inl (fails_onBank.mpr ⟨_, h, rfl, rfl⟩))))

theorem outcome_finalize_error {e : Error} (h : w.bank.finalize id = (return .error e)) :
    (finalize id).outcome w = (.error (.register none e), w) := by
  have hbank : Gives (ofFresh (w.bank.finalize id)) w (.error e) w := by
    rw [h, gives_ofFresh]
    exact ⟨rfl, rfl⟩
  refine fails_bind.mpr (.inl (fails_bind.mpr (.inr ⟨_, _, gives_get.mpr ⟨rfl, rfl⟩, ?_⟩)))
  exact fails_bind.mpr (.inr ⟨_, _, hbank, fails_throw.mpr ⟨rfl, rfl⟩⟩)

theorem outcome_resolve_ok {s : Stmt} (h : w.bank.resolveLoad (.marker (.load id source)) = .ok s) :
    (resolve id source).outcome w = (.ok (.assignment s), w) := by
  show Gives (resolve id source).step w _ w
  rw [step, gives_onBank, h]
  exact ⟨w.bank, rfl, rfl⟩

theorem outcome_resolve_error {e : Error}
    (h : w.bank.resolveLoad (.marker (.load id source)) = .error e) :
    (resolve id source).outcome w = (.error (.register none e), w) := by
  show Fails (resolve id source).step w _ w
  rw [step, fails_onBank, h]
  exact ⟨e, rfl, rfl, rfl⟩

section

variable (hr : w.bank.registers[id]? = some r)

include hr

theorem outcome_load (hshared : r.ownPool = none) (hopen : r.selector = none) (v : Value) :
    (load id v).outcome w =
      (.ok (.load (loadMarker id (w.bank.pool.intern v).1)), w.record id r v) := by
  have hload : w.bank.load id v = .ok (.load id (w.bank.pool.intern v).1,
      ⟨(w.bank.pool.intern v).2, w.bank.registers.set id (r.addSource (w.bank.pool.intern v).1)⟩) :=
    by simp [Bank.load, Bank.get, hr, hopen, Bank.poolOf, hshared, Bank.set, bind, Except.bind,
      pure, Except.pure]
  exact gives_bind.mpr
    ⟨_, _, gives_load.mpr ⟨_, _, hload, rfl, rfl⟩, gives_pure.mpr ⟨rfl, rfl⟩⟩

theorem outcome_load_finalized (hsel : r.selector.isSome) (v : Value) :
    (load id v).outcome w = (.error (.register none (.loadAfterFinalize r.name)), w) := by
  apply outcome_load_error
  simp [Bank.load, Bank.get, hr, hsel, bind, Except.bind, throw, throwThe, MonadExceptOf.throw]

theorem outcome_finalize (hopen : r.selector = none) :
    (finalize id).outcome w = (.ok .finalized,
      { w.tick with bank := w.bank.set id (r.withSelector w.supply) }) := by
  refine gives_bind.mpr ⟨⟨⟩, _, ?_, gives_pure.mpr ⟨rfl, rfl⟩⟩
  refine gives_bind.mpr ⟨_, _, gives_get.mpr ⟨rfl, rfl⟩, gives_bind.mpr
    ⟨_, _, gives_finalize w hr hopen, ?_⟩⟩
  exact gives_bind.mpr ⟨⟨⟩, _, gives_modify.mpr rfl, gives_pure.mpr ⟨rfl, rfl⟩⟩

theorem outcome_finalize_finalized (hsel : r.selector.isSome) :
    (finalize id).outcome w = (.error (.register none (.finalizedTwice r.name)), w) := by
  obtain ⟨sel, hsel⟩ := Option.isSome_iff_exists.mp hsel
  apply outcome_finalize_error
  simp only [Bank.finalize, Bank.get, hr, Register.finalize, hsel, pure_bind]

theorem outcome_resolve {sel : Signal} (hsel : r.selector = some sel) {code : Nat}
    (hcode : r.code? source = some code) :
    (resolve id source).outcome w = (.ok (.assignment
      (.assign sel (.ofLiteral (.sized (Int64.ofNat code) sel.bits)))), w) := by
  apply outcome_resolve_ok
  simp [Bank.resolveLoad, Bank.get, hr, Register.resolve, hsel, hcode, bind, Except.bind]

theorem outcome_resolve_open (hopen : r.selector = none) (source : SourceId) :
    (resolve id source).outcome w = (.error (.register none (.resolvedTooEarly r.name)), w) := by
  apply outcome_resolve_error
  simp [Bank.resolveLoad, Bank.get, hr, Register.resolve, hopen, bind, Except.bind]

end

/-- What a granted request does: its answer, and the workshop it leaves behind. -/
inductive Grants (w : Workshop) : Operation → Answer → Workshop → Prop
  | new (name : String) (width : Int) :
      Grants w (.new name width) (.register w.bank.registers.length) { w.tick with
        bank := ⟨w.bank.pool, w.bank.registers ++
          [⟨name, ⟨w.supply, name, clampWidth width, 0⟩, none, [], none⟩]⟩ }
  | load {id : RegisterId} {r : Register} (hr : w.bank.registers[id]? = some r)
      (hopen : r.selector = none) (v : Value) :
      Grants w (.load id v) (.load (loadMarker id (w.bank.pool.intern v).1)) (w.record id r v)
  | finalize {id : RegisterId} {r : Register} (hr : w.bank.registers[id]? = some r)
      (hopen : r.selector = none) :
      Grants w (.finalize id) .finalized
        { w.tick with bank := w.bank.set id (r.withSelector w.supply) }
  | resolve (id : RegisterId) (source : SourceId) (s : Stmt) :
      Grants w (.resolve id source) (.assignment s) w
  | intern (v : Value) :
      Grants w (.intern v) (.source (w.bank.pool.intern v).1)
        { w with bank := ⟨(w.bank.pool.intern v).2, w.bank.registers⟩ }
  | lookup (v : Value) : Grants w (.lookup v) (.found (w.bank.pool.lookup v)) w

/-- **A request is refused and changes nothing, or it is granted.** -/
theorem outcome_cases (hshared : ∀ r ∈ w.bank.registers, r.ownPool = none) (o : Operation) :
    (∃ f, o.outcome w = (.error f, w)) ∨ ∃ a w', o.outcome w = (.ok a, w') ∧ Grants w o a w' := by
  cases o with
  | new name width => exact .inr ⟨_, _, rfl, .new name width⟩
  | intern v => exact .inr ⟨_, _, rfl, .intern v⟩
  | lookup v => exact .inr ⟨_, _, rfl, .lookup v⟩
  | load id v =>
    cases hr : w.bank.registers[id]? with
    | none =>
      refine .inl ⟨_, outcome_load_error (e := .noSuchRegister) ?_⟩
      simp [Bank.load, Bank.get, hr, bind, Except.bind]
    | some r =>
      cases hsel : r.selector with
      | none =>
        have hown := hshared r (mem_of_getElem? hr)
        exact .inr ⟨_, _, outcome_load hr hown hsel v, .load hr hsel v⟩
      | some sel => exact .inl ⟨_, outcome_load_finalized hr (by simp [hsel]) v⟩
  | finalize id =>
    cases hr : w.bank.registers[id]? with
    | none =>
      refine .inl ⟨_, outcome_finalize_error (e := .noSuchRegister) ?_⟩
      simp only [Bank.finalize, Bank.get, hr]
    | some r =>
      cases hsel : r.selector with
      | none => exact .inr ⟨_, _, outcome_finalize hr hsel, .finalize hr hsel⟩
      | some sel => exact .inl ⟨_, outcome_finalize_finalized hr (by simp [hsel])⟩
  | resolve id source =>
    cases h : w.bank.resolveLoad (.marker (.load id source)) with
    | error e => exact .inl ⟨_, outcome_resolve_error h⟩
    | ok s => exact .inr ⟨_, _, outcome_resolve_ok h, .resolve id source s⟩

end Operation

end Sequencer
