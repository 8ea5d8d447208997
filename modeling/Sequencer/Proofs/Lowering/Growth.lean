import Sequencer.Proofs.Lowering.Derivation

/-!
# What lowering records

A store records its value in the pool and its number in the sources of the register, and leaves a
load marker behind. The hardware of the register is made at the end from what was recorded, so
nothing may be lost in between.
-/

namespace Sequencer

open List
open Circuit

section Lists

variable {α : Type} {l : List α} {a x : α} {i k : Nat}

theorem getElem?_set_iff {b : α} (hb : l[k]? = some b) :
    (l.set k a)[i]? = some x ↔ (i = k ∧ x = a) ∨ (i ≠ k ∧ l[i]? = some x) := by
  grind

theorem getElem?_concat_iff :
    (l ++ [a])[i]? = some x ↔ l[i]? = some x ∨ (i = l.length ∧ x = a) := by
  grind

variable {P : α → Prop}

theorem forall_mem_set (hold : ∀ y ∈ l, P y) (hnew : P a) : ∀ y ∈ l.set k a, P y := by
  grind

theorem forall_mem_concat (hold : ∀ y ∈ l, P y) (hnew : P a) : ∀ y ∈ l ++ [a], P y :=
  forall_mem_append.mpr ⟨hold, forall_mem_singleton.mpr hnew⟩

end Lists

namespace Pool

theorem value?_eq_some_iff {p : Pool} {id : Int} {v : Value} :
    p.value? id = some v ↔ ∃ i : Nat, id = i ∧ p.values[i]? = some v := by
  unfold value?
  split
  · rename_i h
    simp only [reduceCtorEq, false_iff, not_exists, not_and]
    rintro i rfl
    exact absurd h (Int.not_lt.mpr (Int.natCast_nonneg i))
  · rename_i h
    constructor
    · exact fun hv => ⟨id.toNat, (Int.toNat_of_nonneg (Int.not_lt.mp h)).symm, hv⟩
    · rintro ⟨i, rfl, hv⟩
      exact hv

theorem intern_spec (p : Pool) (v : Value) :
    (p.intern v).2.value? (p.intern v).1 = some v ∧ p.values <+: (p.intern v).2.values ∧
      ∀ u ∈ (p.intern v).2.values, u ∈ p.values ∨ u = v := by
  unfold intern lookup
  cases h : p.values.idxOf? v with
  | none =>
    refine ⟨value?_eq_some_iff.mpr ⟨p.values.length, rfl, by simp⟩, prefix_append _ _, ?_⟩
    simp
  | some i =>
    obtain ⟨hi, hv, -⟩ := idxOf?_eq_some_iff.mp h
    refine ⟨value?_eq_some_iff.mpr ⟨i, rfl, ?_⟩, prefix_refl _, fun u hu => .inl hu⟩
    show p.values[i]? = some v
    rw [getElem?_eq_getElem hi, hv]

theorem value?_of_isPrefix {p q : Pool} (h : p.values <+: q.values) {id : Int} {v : Value}
    (hv : p.value? id = some v) : q.value? id = some v := by
  obtain ⟨i, rfl, hi⟩ := value?_eq_some_iff.mp hv
  exact value?_eq_some_iff.mpr ⟨i, rfl, getElem?_of_isPrefix h hi⟩

end Pool

namespace Register

variable (r : Register) (s : SourceId)

theorem sources_addSource :
    s ∈ (r.addSource s).sources ∧ r.sources <+: (r.addSource s).sources ∧
      ∀ x ∈ (r.addSource s).sources, x ∈ r.sources ∨ x = s := by
  unfold addSource
  split
  · rename_i h
    exact ⟨h, prefix_refl _, fun x hx => .inl hx⟩
  · simp

theorem nodup_addSource {r : Register} (h : r.sources.Nodup) (s : SourceId) :
    (r.addSource s).sources.Nodup := by
  unfold addSource
  split
  · exact h
  · rename_i hs
    rw [nodup_append']
    exact ⟨h, nodup_singleton s, by simpa using hs⟩

@[simp]
theorem storage_addSource : (r.addSource s).storage = r.storage := by
  unfold addSource
  split <;> rfl

@[simp]
theorem ownPool_addSource : (r.addSource s).ownPool = r.ownPool := by
  unfold addSource
  split <;> rfl

@[simp]
theorem selector_addSource : (r.addSource s).selector = r.selector := by
  unfold addSource
  split <;> rfl

theorem map_storage_addSource {rs : List Register} {id : Nat} {r : Register}
    (hr : rs[id]? = some r) (s : SourceId) :
    (rs.set id (r.addSource s)).map storage = rs.map storage := by
  obtain ⟨hlt, rfl⟩ := List.getElem?_eq_some_iff.mp hr
  rw [map_set, storage_addSource, ← map_set, set_getElem_self]

end Register

theorem Bank.load_eq {b bank : Bank} {id : RegisterId} {v : Value} {source : SourceId}
    (hown : ∀ r ∈ b.registers, r.ownPool = none) (h : b.load id v = .ok (.load id source, bank)) :
    ∃ r, b.registers[id]? = some r ∧ source = (b.pool.intern v).1 ∧
      bank = ⟨(b.pool.intern v).2, b.registers.set id (r.addSource source)⟩ := by
  unfold load get at h
  cases hr : b.registers[id]? with
  | none => simp [hr, bind, Except.bind] at h
  | some r =>
    have hpool : r.ownPool = none := hown r (mem_of_getElem? hr)
    by_cases hsel : r.selector.isSome = true
    · simp [hr, hsel, bind, Except.bind, throw, throwThe, MonadExceptOf.throw] at h
    · simp [hr, hsel, bind, Except.bind, pure, Except.pure, poolOf, hpool, Bank.set] at h
      obtain ⟨rfl, rfl⟩ := h
      exact ⟨r, rfl, rfl, rfl⟩

end Sequencer

namespace Sequencer.Lowering

open List
open Circuit Program

/-- A workshop as compilation keeps it: the registers number their sources in the common pool and
are not finalized, their storages are new signals of their own, and the source values are built on
the registers or are what a source of `rs` delivers. -/
structure Workshop.Tidy (rs : List Resource) (base : Nat) (w : Workshop) : Prop where
  base_le : base ≤ w.supply
  shared : ∀ r ∈ w.bank.registers, r.ownPool = none
  unfinished : ∀ r ∈ w.bank.registers, r.selector = none
  fresh : ∀ r ∈ w.bank.registers, base ≤ r.storage.tag ∧ r.storage.tag < w.supply
  distinct : (w.storages.map Signal.tag).Nodup
  plain : ∀ r ∈ w.bank.registers, 1 ≤ r.storage.bits ∧ r.storage.reset = 0
  sources : ∀ r ∈ w.bank.registers, r.sources.Nodup ∧
    ∀ s ∈ r.sources, ∃ v, w.bank.pool.value? s = some v
  values : ∀ v ∈ w.bank.pool.values,
    v.BuiltOn w.storages ∨ ∃ c, .source c ∈ rs ∧ v = .signal c.data
  declared : w.declared = List.range w.bank.registers.length

/-- The second workshop holds everything that the first one holds. -/
structure Workshop.Grows (w w' : Workshop) : Prop where
  supply : w.supply ≤ w'.supply
  pool : w.bank.pool.values <+: w'.bank.pool.values
  registers : ∀ (id : Nat) r, w.bank.registers[id]? = some r →
    ∃ r', w'.bank.registers[id]? = some r' ∧ r'.storage = r.storage ∧ r.sources <+: r'.sources

/-- A load of the value `v` into a register has been recorded under the given source. -/
def Workshop.Recorded (w : Workshop) (id : RegisterId) (source : SourceId) (v : Value) : Prop :=
  ∃ r, w.bank.registers[id]? = some r ∧ source ∈ r.sources ∧ w.bank.pool.value? source = some v

def Duty.loads : Duty → List (RegisterId × SourceId)
  | .act (.store loads) => loads
  | .act (.receive _ id source) => [(id, source)]
  | _ => []

/-- A state whose parts are all there. -/
def Duty.Sound (rs : List Resource) (w : Workshop) : Duty → Prop
  | .act (.store loads) => ∀ l ∈ loads, ∃ v, w.Recorded l.1 l.2 v ∧ v.BuiltOn w.storages
  | .act (.send c data _) => .sink c ∈ rs ∧ data.BuiltOn w.storages
  | .act (.receive c id source) => .source c ∈ rs ∧ w.Recorded id source (.signal c.data)
  | .guard test _ _ => test.BuiltOn w.storages

def Plan.loads (p : Plan) : List (RegisterId × SourceId) := p.duties.flatMap Duty.loads

theorem Plan.loads_append (p q : Plan) : (p.append q).loads = p.loads ++ q.loads := by
  simp [loads, duties_append]

namespace Workshop

theorem Grows.refl (w : Workshop) : w.Grows w :=
  ⟨Nat.le_refl _, prefix_refl _, fun _ r hr => ⟨r, hr, rfl, prefix_refl _⟩⟩

theorem Grows.trans {w₁ w₂ w₃ : Workshop} (h : w₁.Grows w₂) (h' : w₂.Grows w₃) : w₁.Grows w₃ := by
  refine ⟨Nat.le_trans h.supply h'.supply, h.pool.trans h'.pool, fun id r hr => ?_⟩
  obtain ⟨r₂, hr₂, hs₂, hp₂⟩ := h.registers id r hr
  obtain ⟨r₃, hr₃, hs₃, hp₃⟩ := h'.registers id r₂ hr₂
  exact ⟨r₃, hr₃, hs₃.trans hs₂, hp₂.trans hp₃⟩

variable {rs : List Resource} {base : Nat} {w w' : Workshop} {id : RegisterId} {r : Register}
  {v : Value}

theorem Grows.storages (h : w.Grows w') : w.storages <+: w'.storages := by
  refine prefix_iff_getElem?.mpr fun i hi => ?_
  simp only [Workshop.storages, length_map] at hi
  obtain ⟨r', hr', hs, -⟩ := h.registers i _ (getElem?_eq_getElem hi)
  rw [storages_getElem? hr', hs]
  simp [Workshop.storages]

theorem Recorded.mono (h : w.Grows w') {source : SourceId} (hr : w.Recorded id source v) :
    w'.Recorded id source v := by
  obtain ⟨r, hr, hs, hv⟩ := hr
  obtain ⟨r', hr', -, hp⟩ := h.registers id r hr
  exact ⟨r', hr', hp.subset hs, Pool.value?_of_isPrefix h.pool hv⟩

/-- A workshop with one more load: the value is in the pool and among the sources of the register.
-/
def record (w : Workshop) (id : RegisterId) (r : Register) (v : Value) : Workshop :=
  { w with bank := ⟨(w.bank.pool.intern v).2,
      w.bank.registers.set id (r.addSource (w.bank.pool.intern v).1)⟩ }

theorem Tidy.eq_record {st : Circuit.Stmt} (h : w.Tidy rs base)
    (hload : Gives (Build.load id v) w st w') : ∃ r, w.bank.registers[id]? = some r ∧
      st = loadMarker id (w.bank.pool.intern v).1 ∧ w' = w.record id r v := by
  obtain ⟨source, bank, hbank, rfl, rfl⟩ := Build.gives_load.mp hload
  obtain ⟨r, hr, rfl, rfl⟩ := Bank.load_eq h.shared hbank
  exact ⟨r, hr, rfl, rfl⟩

theorem storages_record (hr : w.bank.registers[id]? = some r) (v : Value) :
    (w.record id r v).storages = w.storages :=
  Register.map_storage_addSource hr _

theorem Grows.set {r' : Register} (hr : w.bank.registers[id]? = some r)
    (hbank : w'.bank.registers = w.bank.registers.set id r') (hsupply : w.supply ≤ w'.supply)
    (hpool : w.bank.pool.values <+: w'.bank.pool.values) (hstorage : r'.storage = r.storage)
    (hsources : r.sources <+: r'.sources) : w.Grows w' := by
  refine ⟨hsupply, hpool, fun i x hx => ?_⟩
  rw [hbank]
  by_cases hi : i = id
  · subst hi
    obtain rfl : r = x := by simpa [hr] using hx
    exact ⟨_, (getElem?_set_iff hr).mpr (.inl ⟨rfl, rfl⟩), hstorage, hsources⟩
  · exact ⟨x, (getElem?_set_iff hr).mpr (.inr ⟨hi, hx⟩), rfl, prefix_refl _⟩

theorem Grows.record (hr : w.bank.registers[id]? = some r) (v : Value) :
    w.Grows (w.record id r v) :=
  .set hr rfl (Nat.le_refl _) (w.bank.pool.intern_spec v).2.1 (r.storage_addSource _)
    (r.sources_addSource _).2.1

theorem Tidy.record (h : w.Tidy rs base) (hr : w.bank.registers[id]? = some r)
    (hv : v.BuiltOn w.storages ∨ ∃ c, .source c ∈ rs ∧ v = .signal c.data) :
    (w.record id r v).Tidy rs base := by
  have hmem : r ∈ w.bank.registers := mem_of_getElem? hr
  have hst := storages_record hr v
  obtain ⟨hvalue, hprefix, hmembers⟩ := w.bank.pool.intern_spec v
  refine ⟨h.base_le, ?_, ?_, ?_, ?_, ?_, ?_, ?_, ?_⟩
  · exact forall_mem_set h.shared (by simpa using h.shared r hmem)
  · exact forall_mem_set h.unfinished (by simpa using h.unfinished r hmem)
  · exact forall_mem_set h.fresh (by simpa [Workshop.record] using h.fresh r hmem)
  · rw [hst]
    exact h.distinct
  · exact forall_mem_set h.plain (by simpa using h.plain r hmem)
  · refine forall_mem_set (fun x hx => ⟨(h.sources x hx).1, fun s hs => ?_⟩)
      ⟨Register.nodup_addSource (h.sources r hmem).1 _, fun s hs => ?_⟩
    · obtain ⟨u, hu⟩ := (h.sources x hx).2 s hs
      exact ⟨u, Pool.value?_of_isPrefix hprefix hu⟩
    · obtain hs | rfl := (r.sources_addSource _).2.2 s hs
      · obtain ⟨u, hu⟩ := (h.sources r hmem).2 s hs
        exact ⟨u, Pool.value?_of_isPrefix hprefix hu⟩
      · exact ⟨v, hvalue⟩
  · intro u hu
    rw [hst]
    obtain hu | rfl := hmembers u hu
    · exact h.values u hu
    · exact hv
  · simp [Workshop.record, h.declared]

end Workshop

variable {rs : List Resource} {w w' : Workshop} {base : Nat}

theorem Duty.Sound.mono (h : w.Grows w') {d : Duty} (hd : d.Sound rs w) : d.Sound rs w' := by
  cases d with
  | store loads =>
    intro l hl
    obtain ⟨v, hv, hbuilt⟩ := hd l hl
    exact ⟨v, hv.mono h, hbuilt.mono h.storages.subset⟩
  | send c data tag => exact ⟨hd.1, hd.2.mono h.storages.subset⟩
  | receive c id source => exact ⟨hd.1, hd.2.mono h⟩
  | guard test yes no => exact Value.BuiltOn.mono h.storages.subset hd

/-- The states of a plan have all their parts, and every guard has something to guard. -/
structure Plan.Sound (rs : List Resource) (w : Workshop) (p : Plan) : Prop where
  guarded : p.Guarded
  duties : ∀ d ∈ p.duties, d.Sound rs w

namespace Plan.Sound

variable {p q : Plan} {label : StateId}

theorem mono (hp : p.Sound rs w) (h : w.Grows w') : p.Sound rs w' :=
  ⟨hp.guarded, fun d hd => (hp.duties d hd).mono h⟩

theorem append (hp : p.Sound rs w) (hq : q.Sound rs w) : (p.append q).Sound rs w :=
  ⟨hp.guarded.append hq.guarded, duties_append p q ▸ forall_mem_append.mpr ⟨hp.duties, hq.duties⟩⟩

theorem finish : Plan.finish.Sound rs w := ⟨trivial, nofun⟩

theorem act {a : Act} (h : (Duty.act a).Sound rs w) : (Plan.act label a .finish).Sound rs w :=
  ⟨trivial, forall_mem_singleton.mpr h⟩

theorem of_act {a : Act} (h : (Plan.act label a p).Sound rs w) :
    (Duty.act a).Sound rs w ∧ p.Sound rs w :=
  ⟨h.duties _ mem_cons_self, h.guarded, fun d hd => h.duties d (mem_cons_of_mem _ hd)⟩

theorem of_cond {test : Value} {yes no : Plan} (h : (Plan.cond label test yes no p).Sound rs w) :
    yes ≠ .finish ∧ yes.Sound rs w ∧ no.Sound rs w ∧ p.Sound rs w := by
  obtain ⟨⟨hne, hgy, hgn, hg⟩, hd⟩ := h
  obtain ⟨hdyn, hd⟩ := forall_mem_append.mp (forall_mem_cons.mp hd).2
  obtain ⟨hdy, hdn⟩ := forall_mem_append.mp hdyn
  exact ⟨hne, ⟨hgy, hdy⟩, ⟨hgn, hdn⟩, hg, hd⟩

theorem of_loop {test : Value} {body : Plan} (h : (Plan.loop label test body p).Sound rs w) :
    body ≠ .finish ∧ body.Sound rs w ∧ p.Sound rs w := by
  obtain ⟨⟨hne, hgb, hg⟩, hd⟩ := h
  obtain ⟨hdb, hd⟩ := forall_mem_append.mp (forall_mem_cons.mp hd).2
  exact ⟨hne, ⟨hgb, hdb⟩, hg, hd⟩

end Plan.Sound

/-- From one tidy workshop to another by recording some loads, and nothing but them. -/
structure Progress (rs : List Resource) (base : Nat) (w : Workshop)
    (loads : List (RegisterId × SourceId)) (w' : Workshop) : Prop where
  tidy : w'.Tidy rs base
  grows : w.Grows w'
  accounts : ∀ (id : Nat) r', w'.bank.registers[id]? = some r' → ∀ s ∈ r'.sources,
    (∃ r, w.bank.registers[id]? = some r ∧ s ∈ r.sources) ∨ (id, s) ∈ loads

namespace Progress

theorem trans {w₁ w₂ w₃ : Workshop} {l l' : List (RegisterId × SourceId)}
    (h : Progress rs base w₁ l w₂) (h' : Progress rs base w₂ l' w₃) :
    Progress rs base w₁ (l ++ l') w₃ := by
  refine ⟨h'.tidy, h.grows.trans h'.grows, fun id r₃ hr₃ s hs => ?_⟩
  simp only [mem_append]
  obtain ⟨r₂, hr₂, hs₂⟩ | hl := h'.accounts id r₃ hr₃ s hs
  · obtain hr₁ | hl := h.accounts id r₂ hr₂ s hs₂
    · exact .inl hr₁
    · exact .inr (.inl hl)
  · exact .inr (.inr hl)

theorem refl (h : w.Tidy rs base) : Progress rs base w [] w :=
  ⟨h, .refl w, fun _ r hr _ hs => .inl ⟨r, hr, hs⟩⟩

theorem ofBank (h : w.Tidy rs base) (hsupply : w.supply ≤ w'.supply)
    (hbank : w'.bank = w.bank) (hdeclared : w'.declared = w.declared) :
    Progress rs base w [] w' := by
  obtain ⟨supply, bank, declared, log⟩ := w'
  obtain rfl : bank = w.bank := hbank
  obtain rfl : declared = w.declared := hdeclared
  refine ⟨⟨Nat.le_trans h.base_le hsupply, h.shared, h.unfinished, ?_, h.distinct, h.plain,
    h.sources, h.values, h.declared⟩, ⟨hsupply, prefix_refl _, ?_⟩, ?_⟩
  · exact fun r hr => ⟨(h.fresh r hr).1, Nat.lt_of_lt_of_le (h.fresh r hr).2 hsupply⟩
  · exact fun id r hr => ⟨r, hr, rfl, prefix_refl _⟩
  · exact fun id r hr s hs => .inl ⟨r, hr, hs⟩

theorem onlyTags (h : w.Tidy rs base) (htags : OnlyTags w w') : Progress rs base w [] w' := by
  obtain ⟨n, hn, rfl⟩ := htags
  exact ofBank h hn rfl rfl

theorem declare (h : w.Tidy rs base) (targets : List Expr) (width : Int) :
    Progress rs base w [] (w.declareRegister (declaredRegister targets width w.supply)) := by
  have hst : (w.declareRegister (declaredRegister targets width w.supply)).storages =
      w.storages ++ [(declaredRegister targets width w.supply).storage] := by
    simp [Workshop.storages, Workshop.declareRegister]
  refine ⟨⟨Nat.le_succ_of_le h.base_le, forall_mem_concat h.shared rfl,
    forall_mem_concat h.unfinished rfl, ?_, ?_, ?_, ?_, ?_, ?_⟩,
    ⟨Nat.le_succ _, prefix_refl _, ?_⟩, ?_⟩
  · exact forall_mem_concat (fun r hr => ⟨(h.fresh r hr).1, Nat.lt_succ_of_lt (h.fresh r hr).2⟩)
      ⟨h.base_le, Nat.lt_succ_self _⟩
  · rw [hst, map_append, nodup_append']
    refine ⟨h.distinct, nodup_singleton _, ?_⟩
    simp only [map_singleton, disjoint_singleton, mem_map, Workshop.storages]
    rintro ⟨_, ⟨r, hr, rfl⟩, htag⟩
    exact Nat.ne_of_lt (h.fresh r hr).2 htag
  · exact forall_mem_concat h.plain ⟨Int.le_max_right _ _, rfl⟩
  · exact forall_mem_concat h.sources ⟨.nil, by simp [declaredRegister]⟩
  · intro v hv
    rw [hst]
    obtain hb | hc := h.values v hv
    · exact .inl (hb.mono (subset_append_left _ _))
    · exact .inr hc
  · simp [Workshop.declareRegister, h.declared, range_succ]
  · intro id r hr
    exact ⟨r, getElem?_of_isPrefix (prefix_append _ _) hr, rfl, prefix_refl _⟩
  · intro id r hr s hs
    obtain hr | ⟨-, rfl⟩ := getElem?_concat_iff.mp hr
    · exact .inl ⟨r, hr, hs⟩
    · simp [declaredRegister] at hs

theorem record {id : RegisterId} {r : Register} (h : w.Tidy rs base)
    (hr : w.bank.registers[id]? = some r)
    (hv : v.BuiltOn w.storages ∨ ∃ c, .source c ∈ rs ∧ v = .signal c.data) :
    Progress rs base w [(id, (w.bank.pool.intern v).1)] (w.record id r v) := by
  refine ⟨h.record hr hv, .record hr v, fun i x hx s hs => ?_⟩
  obtain ⟨rfl, rfl⟩ | ⟨hi, hx⟩ := (getElem?_set_iff hr).mp hx
  · obtain hs | rfl := (r.sources_addSource _).2.2 s hs
    · exact .inl ⟨r, hr, hs⟩
    · exact .inr (mem_singleton_self _)
  · exact .inl ⟨x, hx, hs⟩

theorem load {id : RegisterId} {source : SourceId} (h : w.Tidy rs base)
    (hv : v.BuiltOn w.storages ∨ ∃ c, .source c ∈ rs ∧ v = .signal c.data)
    (hload : Gives (Build.load id v) w (loadMarker id source) w') :
    Progress rs base w [(id, source)] w' ∧ w'.Recorded id source v := by
  obtain ⟨r, hr, hmarker, rfl⟩ := h.eq_record hload
  cases hmarker
  exact ⟨.record h hr hv, _, (getElem?_set_iff hr).mpr (.inl ⟨rfl, rfl⟩),
    (r.sources_addSource _).1, (w.bank.pool.intern_spec v).1⟩

end Progress

theorem Workshop.Tidy.storage_tag {x : Signal} (h : w.Tidy rs base) (hx : x ∈ w.storages) :
    base ≤ x.tag ∧ x.tag < w.supply := by
  obtain ⟨r, hr, rfl⟩ := mem_map.mp hx
  exact h.fresh r hr

theorem Workshop.Tidy.storages_load {id : RegisterId} {st : Circuit.Stmt} (h : w.Tidy rs base)
    (hload : Gives (Build.load id v) w st w') : w'.storages = w.storages := by
  obtain ⟨r, hr, -, rfl⟩ := h.eq_record hload
  exact storages_record hr v

theorem Stores.progress {env : Env} {ts : List Expr} {loads : List (RegisterId × SourceId)}
    (h : Stores env v w ts loads w') (hw : w.Tidy rs base) (hv : v.BuiltOn w.storages) :
    Progress rs base w loads w' ∧
      ∀ l ∈ loads, ∃ u, w'.Recorded l.1 l.2 u ∧ u.BuiltOn w'.storages := by
  induction h with
  | nil w => exact ⟨.refl hw, by simp⟩
  | cons target register widened load others ih =>
    obtain ⟨htags, hbuilt, -⟩ := extend_spec widened
    have h₁ := Progress.onlyTags hw htags
    obtain ⟨h₂, hrec⟩ := Progress.load h₁.tidy (.inl (htags.storages ▸ hbuilt _ hv)) load
    have h₁₂ := h₁.trans h₂
    obtain ⟨h₃, hrest⟩ := ih h₂.tidy (hv.mono h₁₂.grows.storages.subset)
    refine ⟨h₁₂.trans h₃, ?_⟩
    rintro l (_ | ⟨_, hl⟩)
    · exact ⟨_, hrec.mono h₃.grows, (hbuilt _ hv).mono (h₁₂.trans h₃).grows.storages.subset⟩
    · exact hrest l hl

/-- **Lowering keeps the workshop tidy and its plan sound**: every load of the plan is recorded
under its source, and every source that is recorded comes from a load of the plan. -/
theorem Lowers.progress {s s' : Session} {j : Job} {p : Plan} (h : Lowers s j p s')
    (hs : s.env.Plain rs) (hw : s.shop.Tidy rs base) :
    Progress rs base s.shop p.loads s'.shop ∧ p.Sound rs s'.shop := by
  induction h with
  | nil s => exact ⟨.refl hw, .finish⟩
  | cons first others ih₁ ih₂ =>
    obtain ⟨h₁, hp⟩ := ih₁ hs hw
    obtain ⟨h₂, hq⟩ := ih₂ (first.advances hs).2 h₁.tidy
    rw [Plan.loads_append]
    exact ⟨h₁.trans h₂, (hp.mono h₂.grows).append hq⟩
  | declare operand declared =>
    obtain ⟨rfl, -⟩ := lowerOperand_register operand
    obtain ⟨env, henv, -, rfl⟩ := gives_declare.mp declared
    exact ⟨.declare hw _ _, .finish⟩
  | store operand stores =>
    obtain ⟨htags, hbuilt, -⟩ := lowerOperand_value hs operand
    have h₁ := Progress.onlyTags hw htags
    obtain ⟨h₂, hloads⟩ := stores.progress h₁.tidy (htags.storages ▸ hbuilt)
    have h₃ := Progress.onlyTags h₂.tidy (.succ _)
    refine ⟨(h₁.trans h₂).trans h₃, .act fun l hl => ?_⟩
    obtain ⟨u, hu, hbuilt'⟩ := hloads l hl
    exact ⟨u, hu.mono h₃.grows, hbuilt'.mono h₃.grows.storages.subset⟩
  | send resource value widened =>
    have m := makes_lowerExpr hs _ value
    obtain ⟨htags, hbuilt, -⟩ := extend_spec widened
    have hall := m.onlyTags.trans ((OnlyTags.succ _).trans (htags.trans (.succ _)))
    refine ⟨.onlyTags hw hall, .act ⟨(hs.lookup resource).1, ?_⟩⟩
    exact hall.storages ▸ hbuilt _ m.built
  | receive resource register load =>
    have h₁ := Progress.onlyTags hw (.succ _)
    obtain ⟨h₂, hrec⟩ := Progress.load h₁.tidy (.inr ⟨_, (hs.lookup resource).1, rfl⟩) load
    exact ⟨h₁.trans h₂, .act ⟨(hs.lookup resource).1, hrec⟩⟩
  | cond value taken nonempty other ihy ihn =>
    have m := makes_lowerExpr hs _ value
    have h₁ := Progress.onlyTags hw m.onlyTags
    obtain ⟨h₂, hy⟩ := ihy hs h₁.tidy
    obtain ⟨h₃, hn⟩ := ihn (taken.advances hs).2 h₂.tidy
    have h₄ := Progress.onlyTags h₃.tidy (.succ _)
    have hall := (h₁.trans h₂).trans (h₃.trans h₄)
    have hy := hy.mono (h₃.trans h₄).grows
    refine ⟨by simpa [Plan.loads, Plan.duties, Duty.loads] using hall,
      ⟨nonempty, hy.guarded, hn.guarded, trivial⟩, forall_mem_cons.mpr
        ⟨m.built.mono hall.grows.storages.subset, ?_⟩⟩
    simpa [Plan.duties] using forall_mem_append.mpr ⟨hy.duties, hn.duties⟩
  | loop value repeated nonempty ih =>
    have m := makes_lowerExpr hs _ value
    have h₁ := Progress.onlyTags hw m.onlyTags
    obtain ⟨h₂, hb⟩ := ih hs h₁.tidy
    have h₃ := Progress.onlyTags h₂.tidy (.succ _)
    have hall := (h₁.trans h₂).trans h₃
    have hb := hb.mono h₃.grows
    refine ⟨by simpa [Plan.loads, Plan.duties, Duty.loads] using hall,
      ⟨nonempty, hb.guarded, trivial⟩, forall_mem_cons.mpr
        ⟨m.built.mono hall.grows.storages.subset, ?_⟩⟩
    simpa [Plan.duties] using hb.duties
  | @each _ s' _ _ _ _ _ _ _ log fresh range copies ih =>
    obtain ⟨h₁, hp⟩ := ih hs hw
    have h₂ : Progress rs base s'.shop [] { s'.shop with log } :=
      Progress.ofBank h₁.tidy (Nat.le_refl _) rfl rfl
    exact ⟨by simpa using h₁.trans h₂, hp.mono h₂.grows⟩
  | noCopy s => exact ⟨.refl hw, .finish⟩
  | copy first popped others ih₁ ih₂ =>
    obtain ⟨h₁, hp⟩ := ih₁ (hs.push _ _) hw
    obtain ⟨h₂, hq⟩ := ih₂ ((first.advances (hs.push _ _)).2.pop popped) h₁.tidy
    rw [Plan.loads_append]
    exact ⟨h₁.trans h₂, (hp.mono h₂.grows).append hq⟩

end Sequencer.Lowering
