import Sequencer.Proofs.Register.Operations

/-!
# Histories of registers

`Encoded` compares the workshop with the requests that were granted, and `Lowering.Workshop.Lasts`
says what the future cannot change: numbers, codes, and everything about a finalized register.
-/

namespace Sequencer

open List Operation
open Circuit Lowering Operation Pool Workshop Register Option

/-! ### What was granted -/

/-- Requests with their answers, the oldest first. -/
abbrev History := List (Operation × Except Fault Answer)

namespace History

/-- The value that a granted request shows to the pool. -/
def sight? : Operation × Except Fault Answer → Option Value
  | (.load _ v, .ok _) => some v
  | (.intern v, .ok _) => some v
  | _ => none

/-- The values that the pool has seen. -/
def sighted (h : History) : List Value := h.filterMap sight?

def loaded? (id : RegisterId) : Operation × Except Fault Answer → Option Value
  | (.load i v, .ok _) => if i = id then some v else none
  | _ => none

def loadedInto (h : History) (id : RegisterId) : List Value := h.filterMap (loaded? id)

end History

/-! ### The encoding -/

theorem eraseDups_concat {α : Type} [DecidableEq α] (l : List α) (a : α) :
    (l ++ [a]).eraseDups = if a ∈ l then l.eraseDups else l.eraseDups ++ [a] := by
  rw [eraseDups_append]
  by_cases h : a ∈ l <;> simp [h, removeAll, eraseDups_cons]

/-- The numbers of a pool against what it has seen: they count the values up in the order of first
sight, and values and numbers determine each other. -/
structure Pool.Numbers (p : Pool) (sighted : List Value) : Prop where
  order : p.values = sighted.eraseDups
  lookup_iff : ∀ v id, p.lookup v = some id ↔ p.value? id = some v
  dense : ∀ id : Int, (p.value? id).isSome ↔ 0 ≤ id ∧ id < p.size

/-- The source table of a register against what was loaded into it: numbers of the pool without
repetitions, in the order of first loads, with codes that count from one. A selector holds all
codes and zero, and no narrower one would. -/
structure Register.Tabulates (r : Register) (p : Pool) (loaded : List Value) : Prop where
  nodup : r.sources.Nodup
  order : r.sources.map p.value? = loaded.eraseDups.map some
  codes : ∀ source code, r.code? source = some code ↔
    1 ≤ code ∧ r.sources[code - 1]? = some source
  width : ∀ sel, r.selector = some sel → r.sources.length < 2 ^ 63 →
    1 ≤ sel.bits ∧ r.sources.length < 2 ^ sel.bits.toNat ∧
      ∀ n : Nat, 1 ≤ n → r.sources.length < 2 ^ n → sel.bits ≤ n

/-- A workshop against its history. -/
structure Encoded (h : History) (w : Workshop) : Prop where
  shared : ∀ r ∈ w.bank.registers, r.ownPool = none
  distinct : w.bank.pool.values.Nodup
  sighted : w.bank.pool.values = h.sighted.eraseDups
  nodup : ∀ r ∈ w.bank.registers, r.sources.Nodup
  loaded : ∀ id r, w.bank.registers[id]? = some r →
    r.sources.map w.bank.pool.value? = (h.loadedInto id).eraseDups.map some
  unloaded : ∀ id, w.bank.registers.length ≤ id → h.loadedInto id = []
  width : ∀ r ∈ w.bank.registers, ∀ sel, r.selector = some sel →
    sel.bits = clampWidth r.selectorBits

theorem History.sighted_concat (h : History) (o : Operation) (a : Except Fault Answer) :
    sighted (h ++ [(o, a)]) = sighted h ++ (sight? (o, a)).toList := by
  cases ha : sight? (o, a) <;> simp [sighted, ha]

theorem History.loadedInto_concat (h : History) (o : Operation) (a : Except Fault Answer)
    (id : RegisterId) :
    loadedInto (h ++ [(o, a)]) id = loadedInto h id ++ (loaded? id (o, a)).toList := by
  cases ha : loaded? id (o, a) <;> simp [loadedInto, ha]

namespace Encoded

variable {h : History} {w : Workshop}

variable {id : RegisterId} {r : Register} {source : SourceId}

section

variable (he : Encoded h w) (hr : w.bank.registers[id]? = some r)

include he hr

theorem mem_sources_iff {v : Value} (hv : w.bank.pool.value? source = some v) :
    source ∈ r.sources ↔ v ∈ h.loadedInto id := by
  have hiff : ∀ u, (∃ s ∈ r.sources, w.bank.pool.value? s = some u) ↔ u ∈ h.loadedInto id := by
    intro u
    have hmem : some u ∈ r.sources.map w.bank.pool.value? ↔
        some u ∈ (h.loadedInto id).eraseDups.map some := by rw [he.loaded id r hr]
    simpa [mem_eraseDups] using hmem
  rw [← hiff]
  constructor
  · intro hs
    exact ⟨source, hs, hv⟩
  · rintro ⟨s, hs, hsv⟩
    rwa [← value?_inj he.distinct hsv hv]

theorem exists_value (hs : source ∈ r.sources) : ∃ v, w.bank.pool.value? source = some v := by
  have hmem : w.bank.pool.value? source ∈ (h.loadedInto id).eraseDups.map some := by
    rw [← he.loaded id r hr]
    exact mem_map_of_mem hs
  obtain ⟨v, -, hv⟩ := mem_map.mp hmem
  exact ⟨v, hv.symm⟩

theorem map_value? {p : Pool} (hp : w.bank.pool.values <+: p.values) :
    r.sources.map p.value? = r.sources.map w.bank.pool.value? := by
  refine map_congr_left fun source hs => ?_
  obtain ⟨v, hv⟩ := he.exists_value hr hs
  rw [hv, value?_of_isPrefix hp hv]

end

theorem new (supply : Nat) : Encoded [] (.new supply) := by
  constructor <;> simp [Workshop.new, Bank.empty, Pool.empty, History.sighted, History.loadedInto]

/-- A request that shows no value does not count. -/
theorem keep (he : Encoded h w) {o : Operation} {a : Except Fault Answer}
    (hsight : History.sight? (o, a) = none) (hload : ∀ id, History.loaded? id (o, a) = none) :
    Encoded (h ++ [(o, a)]) w := by
  obtain ⟨shared, distinct, sighted, nodup, loaded, unloaded, width⟩ := he
  constructor <;> simpa [History.sighted_concat, History.loadedInto_concat, hsight, hload]

theorem addRegister (he : Encoded h w) (name : String) (width : Int) :
    Encoded h { w.tick with
      bank := ⟨w.bank.pool, w.bank.registers ++
        [⟨name, ⟨w.supply, name, clampWidth width, 0⟩, none, [], none⟩]⟩ } := by
  constructor
  case sighted => exact he.sighted
  case distinct => exact he.distinct
  case loaded =>
    intro id r hr
    obtain hr | ⟨rfl, rfl⟩ := getElem?_concat_iff.mp hr
    · exact he.loaded id r hr
    · simp [he.unloaded _ (Nat.le_refl _)]
  case unloaded =>
    intro id hid
    exact he.unloaded id (Nat.le_of_succ_le (by simpa using hid))
  -- The new register has no sources, no selector and no pool of its own.
  case shared => exact forall_mem_concat he.shared rfl
  case nodup => exact forall_mem_concat he.nodup .nil
  case width => exact forall_mem_concat he.width nofun

theorem intern_eq (he : Encoded h w) {o : Operation} {a : Answer} {v : Value}
    (hsight : History.sight? (o, .ok a) = some v) :
    (w.bank.pool.intern v).2.values = (History.sighted (h ++ [(o, .ok a)])).eraseDups := by
  have hmem : v ∈ w.bank.pool.values ↔ v ∈ h.sighted := by rw [he.sighted, mem_eraseDups]
  rw [values_intern, History.sighted_concat, hsight, toList_some, eraseDups_concat, he.sighted]
  simp only [← hmem, he.sighted]

theorem intern (he : Encoded h w) (v : Value) (a : Answer) :
    Encoded (h ++ [(.intern v, .ok a)])
      { w with bank := ⟨(w.bank.pool.intern v).2, w.bank.registers⟩ } := by
  have hsame : ∀ id, History.loadedInto (h ++ [(.intern v, .ok a)]) id = h.loadedInto id :=
    fun id => by simp [History.loadedInto_concat, History.loaded?]
  refine ⟨he.shared, nodup_intern he.distinct v, he.intern_eq rfl, he.nodup,
    fun id r hr => ?_, fun id hid => ?_, he.width⟩
  · rw [hsame, he.map_value? hr (w.bank.pool.intern_spec v).2.1]
    exact he.loaded id r hr
  · rw [hsame]
    exact he.unloaded id hid

variable (he : Encoded h w)

include he

theorem load (hr : w.bank.registers[id]? = some r) (hopen : r.selector = none)
    (v : Value) (a : Answer) : Encoded (h ++ [(.load id v, .ok a)]) (w.record id r v) := by
  have hmem : r ∈ w.bank.registers := mem_of_getElem? hr
  obtain ⟨hvalue, hprefix, -⟩ := w.bank.pool.intern_spec v
  have hinterned := he.intern v a
  constructor
  case shared => exact forall_mem_set he.shared (by simpa using he.shared r hmem)
  case distinct => exact nodup_intern he.distinct v
  case sighted => exact he.intern_eq rfl
  case nodup =>
    exact forall_mem_set he.nodup (nodup_addSource (he.nodup r hmem) _)
  case loaded =>
    intro i x hx
    rw [History.loadedInto_concat]
    obtain ⟨rfl, rfl⟩ | ⟨hi, hx⟩ := (getElem?_set_iff hr).mp hx
    · -- The number of `v` is a source already exactly if `v` was loaded before.
      have hiff : (w.bank.pool.intern v).1 ∈ r.sources ↔ v ∈ h.loadedInto i := by
        simpa [History.loadedInto_concat, History.loaded?] using hinterned.mem_sources_iff hr hvalue
      have hold : r.sources.map (w.bank.pool.intern v).2.value? =
          (h.loadedInto i).eraseDups.map some := by
        rw [he.map_value? hr hprefix]
        exact he.loaded i r hr
      simp only [History.loaded?, if_true, toList_some, eraseDups_concat, addSource, hiff]
      split
      · exact hold
      · simpa [record, hold] using hvalue
    · simp only [History.loaded?, Ne.symm hi, if_false, toList_none, append_nil]
      exact (he.map_value? hx hprefix).trans (he.loaded i x hx)
  case unloaded =>
    intro i hi
    have hlt : id < w.bank.registers.length := (List.getElem?_eq_some_iff.mp hr).1
    have hlen : w.bank.registers.length ≤ i := by simpa [record] using hi
    have hne : id ≠ i := Nat.ne_of_lt (Nat.lt_of_lt_of_le hlt hlen)
    simp [History.loadedInto_concat, History.loaded?, hne, he.unloaded i hlen]
  case width =>
    exact forall_mem_set he.width (by simp [hopen])

theorem finalize (hr : w.bank.registers[id]? = some r) :
    Encoded h { w.tick with bank := w.bank.set id (r.withSelector w.supply) } := by
  have hmem : r ∈ w.bank.registers := mem_of_getElem? hr
  -- Only the selector of one register is new.
  refine ⟨forall_mem_set he.shared (he.shared r hmem), he.distinct, he.sighted,
    forall_mem_set he.nodup (he.nodup r hmem), fun i x hx => ?_, fun i hi => ?_,
    forall_mem_set he.width ?_⟩
  · obtain ⟨rfl, rfl⟩ | ⟨-, hx⟩ := (getElem?_set_iff hr).mp hx
    · exact he.loaded i r hr
    · exact he.loaded i x hx
  · exact he.unloaded i (by simpa [Bank.set] using hi)
  · intro sel hsel
    obtain rfl := Option.some.inj hsel
    rfl

/-- One request keeps the encoding. -/
theorem step (o : Operation) : Encoded (h ++ [(o, (o.outcome w).1)]) (o.outcome w).2 := by
  obtain ⟨f, hf⟩ | ⟨a, w', ha, hg⟩ := outcome_cases he.shared o
  · rw [hf]
    exact he.keep (by cases o <;> rfl) fun id => by cases o <;> rfl
  · rw [ha]
    cases hg with
    | new name width => exact (he.addRegister name width).keep rfl fun _ => rfl
    | load hr hopen v => exact he.load hr hopen v _
    | finalize hr hopen => exact (he.finalize hr).keep rfl fun _ => rfl
    | resolve id source s => exact he.keep rfl fun _ => rfl
    | intern v => exact he.intern v _
    | lookup v => exact he.keep rfl fun _ => rfl

/-- Every history keeps the encoding. -/
theorem play (os : List Operation) : Encoded (h ++ (play w os).1) (play w os).2 := by
  induction os generalizing h w with
  | nil => simpa [play] using he
  | cons o os ih => simpa [play] using ih (he.step o)

theorem numbers : w.bank.pool.Numbers h.sighted :=
  ⟨he.sighted, fun _ _ => lookup_eq_some_iff he.distinct, fun _ => isSome_value?_iff⟩

theorem code?_eq_some_iff (hr : r ∈ w.bank.registers) {code : Nat} :
    r.code? source = some code ↔ 1 ≤ code ∧ r.sources[code - 1]? = some source := by
  have hcode : r.code? source = some code ↔
      ∃ i, r.sources.idxOf? source = some i ∧ i + 1 = code := by
    cases hs : r.sources.idxOf? source <;> simp [code?, hs]
  rw [hcode]
  constructor
  · rintro ⟨i, hi, rfl⟩
    exact ⟨by omega, (idxOf?_eq_some_of_nodup (he.nodup r hr)).mp hi⟩
  · rintro ⟨hpos, hi⟩
    exact ⟨code - 1, (idxOf?_eq_some_of_nodup (he.nodup r hr)).mpr hi, by omega⟩

theorem tabulates (hr : w.bank.registers[id]? = some r) :
    r.Tabulates w.bank.pool (h.loadedInto id) := by
  have hmem : r ∈ w.bank.registers := mem_of_getElem? hr
  refine ⟨he.nodup r hmem, he.loaded id r hr, fun _ _ => he.code?_eq_some_iff hmem,
    fun sel hsel hsize => ?_⟩
  have hbits : (1 : Int) ≤ r.selectorBits := by
    unfold selectorBits
    rw [bitsFor_ofNat hsize]
    split <;> omega
  have hwidth : sel.bits = r.selectorBits := by
    rw [he.width r hmem sel hsel, clampWidth]
    omega
  rw [hwidth]
  exact ⟨hbits, lt_two_pow_bitsFor (Nat.le_refl _) hsize, fun n hn hlt => bitsFor_le hsize hn hlt⟩

end Encoded

/-! ### What the future cannot change -/

/-- Whatever is recorded in the first workshop is so in the second one, and a register that is
finalized in the first is the same in the second. -/
structure Lowering.Workshop.Lasts (w w' : Workshop) : Prop where
  grows : w.Grows w'
  finalized : ∀ (id : RegisterId) r, w.bank.registers[id]? = some r → r.selector.isSome →
    w'.bank.registers[id]? = some r

namespace Lowering.Workshop.Lasts

variable {w : Workshop}

theorem refl (w : Workshop) : w.Lasts w := ⟨.refl w, fun _ _ hr _ => hr⟩

theorem trans {w₁ w₂ w₃ : Workshop} (h : w₁.Lasts w₂) (h' : w₂.Lasts w₃) : w₁.Lasts w₃ :=
  ⟨h.grows.trans h'.grows, fun id r hr hsel => h'.finalized id r (h.finalized id r hr hsel) hsel⟩

/-- A register that changes is not finalized. -/
theorem finalized_set {id : RegisterId} {r : Register} (hr : w.bank.registers[id]? = some r)
    (hopen : r.selector = none) (r' : Register) (i : RegisterId) (x : Register)
    (hx : w.bank.registers[i]? = some x) (hsel : x.selector.isSome) :
    (w.bank.registers.set id r')[i]? = some x := by
  refine (getElem?_set_iff hr).mpr (.inr ⟨?_, hx⟩)
  rintro rfl
  obtain rfl := Option.some.inj (hr.symm.trans hx)
  simp [hopen] at hsel

theorem granted {o : Operation} {a : Answer} {w' : Workshop} (hg : Grants w o a w') :
    w.Lasts w' := by
  cases hg with
  | new name width =>
    exact ⟨⟨Nat.le_succ _, prefix_refl _, fun id r hr =>
      ⟨r, getElem?_concat_iff.mpr (.inl hr), rfl, prefix_refl _⟩⟩,
      fun id r hr _ => getElem?_concat_iff.mpr (.inl hr)⟩
  | load hr hopen v => exact ⟨.record hr v, finalized_set hr hopen _⟩
  | finalize hr hopen =>
    exact ⟨.set hr rfl (Nat.le_succ _) (prefix_refl _) rfl (prefix_refl _),
      finalized_set hr hopen _⟩
  | resolve id source s => exact .refl w
  | intern v =>
    exact ⟨⟨Nat.le_refl _, (w.bank.pool.intern_spec v).2.1,
      fun _ r hr => ⟨r, hr, rfl, prefix_refl _⟩⟩, fun _ _ hr _ => hr⟩
  | lookup v => exact .refl w

/-- No request changes what has been fixed. -/
theorem step {h : History} (he : Encoded h w) (o : Operation) : w.Lasts (o.outcome w).2 := by
  obtain ⟨f, hf⟩ | ⟨a, w', ha, hg⟩ := outcome_cases he.shared o
  · rw [hf]
    exact .refl w
  · rw [ha]
    exact granted hg

/-- No history changes what has been fixed. -/
theorem play {h : History} (he : Encoded h w) (os : List Operation) : w.Lasts (play w os).2 := by
  induction os generalizing h w with
  | nil => exact .refl w
  | cons o os ih => exact (step he o).trans (ih (he.step o))

end Lowering.Workshop.Lasts

/-- What stays as it is from one workshop to a later one: the numbers of values, the codes of
sources, and of a finalized register everything: its table, selector, source values and the code
of every value. -/
structure Lowering.Workshop.Preserves (w w' : Workshop) : Prop where
  numbers : ∀ v id, w.bank.pool.lookup v = some id → w'.bank.pool.lookup v = some id
  codes : ∀ (id : RegisterId) r, w.bank.registers[id]? = some r →
    ∃ r', w'.bank.registers[id]? = some r' ∧
      ∀ source code, r.code? source = some code → r'.code? source = some code
  finalized : ∀ (id : RegisterId) r, w.bank.registers[id]? = some r → r.selector.isSome →
    w'.bank.registers[id]? = some r ∧ w'.bank.sourceValues r = w.bank.sourceValues r ∧
      ∀ v, w'.bank.codeOf? r v = w.bank.codeOf? r v

namespace Encoded

variable {h h' : History} {w w' : Workshop}

theorem poolOf_eq (he : Encoded h w) (hr : r ∈ w.bank.registers) :
    w.bank.poolOf r = w.bank.pool := by simp [Bank.poolOf, he.shared r hr]

theorem codeOf?_eq (he : Encoded h w) (he' : Encoded h' w')
    (hp : w.bank.pool.values <+: w'.bank.pool.values) {id : RegisterId}
    (hr : w.bank.registers[id]? = some r) (hr' : w'.bank.registers[id]? = some r) (v : Value) :
    w'.bank.codeOf? r v = w.bank.codeOf? r v := by
  unfold Bank.codeOf?
  rw [he.poolOf_eq (mem_of_getElem? hr), he'.poolOf_eq (mem_of_getElem? hr')]
  cases hv : w.bank.pool.lookup v with
  | some source =>
    rw [lookup_eq_some_iff he.distinct] at hv
    rw [(lookup_eq_some_iff he'.distinct).mpr (value?_of_isPrefix hp hv)]
  | none =>
    cases hv' : w'.bank.pool.lookup v with
    | none => rfl
    | some source =>
      have hnot : source ∉ r.sources := by
        intro hs
        obtain ⟨u, hu⟩ := he.exists_value hr hs
        rw [lookup_eq_some_iff he'.distinct, value?_of_isPrefix hp hu] at hv'
        obtain rfl := some.inj hv'
        rw [(lookup_eq_some_iff he.distinct).mpr hu] at hv
        cases hv
      simp [code?, idxOf?_eq_none_iff.mpr hnot]

theorem preserves (he : Encoded h w) (he' : Encoded h' w') (hl : w.Lasts w') : w.Preserves w' := by
  have hp := hl.grows.pool
  refine ⟨fun v id hv => ?_, fun id r hr => ?_, fun id r hr hsel => ?_⟩
  · rw [lookup_eq_some_iff he.distinct] at hv
    rw [lookup_eq_some_iff he'.distinct]
    exact value?_of_isPrefix hp hv
  · obtain ⟨r', hr', -, hsources⟩ := hl.grows.registers id r hr
    refine ⟨r', hr', fun source code hcode => ?_⟩
    rw [he.code?_eq_some_iff (mem_of_getElem? hr)] at hcode
    rw [he'.code?_eq_some_iff (mem_of_getElem? hr')]
    exact ⟨hcode.1, getElem?_of_isPrefix hsources hcode.2⟩
  · have hr' := hl.finalized id r hr hsel
    refine ⟨hr', ?_, he.codeOf?_eq he' hp hr hr'⟩
    unfold Bank.sourceValues
    rw [he.poolOf_eq (mem_of_getElem? hr), he'.poolOf_eq (mem_of_getElem? hr')]
    refine filterMap_congr fun source hs => ?_
    obtain ⟨v, hv⟩ := he.exists_value hr hs
    rw [hv, value?_of_isPrefix hp hv]

end Encoded

/-! ### Answers -/

/-- How a register answers, given what was loaded into it. One that takes sources takes any value,
one that was loaded before without any change, can be finalized, and resolves nothing. A finalized
one resolves the loads of its sources and refuses all else. What is refused changes nothing. -/
structure Lowering.Workshop.Responds (w : Workshop) (id : RegisterId) (r : Register)
    (loaded : List Value) : Prop where
  load : r.selector = none → ∀ v, ∃ source w' r',
    (load id v).outcome w = (.ok (.load (.marker (.load id source))), w') ∧
      w'.bank.pool.lookup v = some source ∧ w'.bank.registers[id]? = some r' ∧
      (r'.code? source).isSome
  reload : r.selector = none → ∀ v ∈ loaded, ∃ source,
    (Operation.load id v).outcome w = (.ok (.load (.marker (.load id source))), w)
  finalize : r.selector = none → ∃ sel w',
    (finalize id).outcome w = (.ok .finalized, w') ∧
      w'.bank = w.bank.set id { r with selector := some sel }
  resolve : ∀ sel, r.selector = some sel → ∀ source code, r.code? source = some code →
    (resolve id source).outcome w = (.ok (.assignment
      (.assign sel (.ofLiteral (.sized (Int64.ofNat code) sel.bits)))), w)
  load_refused : r.selector.isSome → ∀ v, (Operation.load id v).outcome w =
    (.error (.register none (.loadAfterFinalize r.name)), w)
  finalize_refused : r.selector.isSome → (Operation.finalize id).outcome w =
    (.error (.register none (.finalizedTwice r.name)), w)
  resolve_refused : r.selector = none → ∀ source, (Operation.resolve id source).outcome w =
    (.error (.register none (.resolvedTooEarly r.name)), w)

namespace Encoded

variable {h : History} {w : Workshop} {id : RegisterId} {r : Register}

variable (he : Encoded h w) (hr : w.bank.registers[id]? = some r)

include he hr

theorem record_eq {v : Value} (hv : v ∈ h.loadedInto id) : w.record id r v = w := by
  have hmem : some v ∈ r.sources.map w.bank.pool.value? := by
    rw [he.loaded id r hr]
    exact mem_map_of_mem (mem_eraseDups.mpr hv)
  obtain ⟨source, hs, hvalue⟩ := mem_map.mp hmem
  have hintern : w.bank.pool.intern v = (source, w.bank.pool) := by
    unfold Pool.intern
    rw [(Pool.lookup_eq_some_iff he.distinct).mpr hvalue]
  have hadd : r.addSource source = r := if_pos hs
  have hset : w.bank.registers.set id r = w.bank.registers := by
    obtain ⟨hlt, rfl⟩ := List.getElem?_eq_some_iff.mp hr
    exact set_getElem_self hlt
  rw [record, hintern, hadd, hset]

theorem responds : w.Responds id r (h.loadedInto id) := by
  have hshared := he.shared r (mem_of_getElem? hr)
  constructor
  case load =>
    intro hopen v
    have hload := he.load hr hopen v (.register id)
    have hvalue := (w.bank.pool.intern_spec v).1
    obtain ⟨i, hi⟩ := getElem?_of_mem (r.sources_addSource (w.bank.pool.intern v).1).1
    have hrecord := (getElem?_set_iff (a := r.addSource (w.bank.pool.intern v).1) hr).mpr
      (.inl ⟨rfl, rfl⟩)
    refine ⟨_, _, _, outcome_load hr hshared hopen v,
      (Pool.lookup_eq_some_iff hload.distinct).mpr hvalue, hrecord, ?_⟩
    have hcode := (hload.code?_eq_some_iff (mem_of_getElem? hrecord)).mpr
      ⟨Nat.le_add_left 1 i, hi⟩
    rw [hcode]
    rfl
  case reload =>
    intro hopen v hv
    exact ⟨_, (outcome_load hr hshared hopen v).trans (by rw [he.record_eq hr hv]; rfl)⟩
  case finalize =>
    intro hopen
    exact ⟨_, _, outcome_finalize hr hopen, rfl⟩
  case resolve => exact fun sel hsel source code hcode => outcome_resolve hr hsel hcode
  case load_refused => exact fun hsel v => outcome_load_finalized hr hsel v
  case finalize_refused => exact fun hsel => outcome_finalize_finalized hr hsel
  case resolve_refused => exact fun hopen source => outcome_resolve_open hr hopen source

end Encoded

/-- **The registers keep their encoding over any history.** After any requests, granted or
refused, the pool numbers the values it has seen and every register tabulates what was loaded into
it; every register responds as its phase says, and no further requests change a number, a code or
a finalized register. -/
theorem register_history (supply : Nat) (past future : List Operation) :
    let before := play (.new supply) past
    let w := before.2
    w.bank.pool.Numbers (History.sighted before.1) ∧
      (∀ (id : RegisterId) r, w.bank.registers[id]? = some r →
        r.Tabulates w.bank.pool (History.loadedInto before.1 id) ∧
          w.Responds id r (History.loadedInto before.1 id)) ∧
      w.Preserves (play w future).2 := by
  have he : Encoded (play (.new supply) past).1 (play (.new supply) past).2 :=
    (Encoded.new supply).play past
  exact ⟨he.numbers, fun id r hr => ⟨he.tabulates hr, he.responds hr⟩,
    he.preserves (he.play future) (.play he future)⟩

end Sequencer
