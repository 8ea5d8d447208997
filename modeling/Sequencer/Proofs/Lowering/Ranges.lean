import Mathlib.Data.List.Forall2
import Mathlib.Tactic.Common
import Mathlib.Tactic.Ring
import Sequencer.Lowering.Stmt

/-!
# Ranges

The compiler finds the integers of a `range` by counting in 64-bit words, which wrap around.
`integersBefore` is the range over the integers. The two agree as long as the integer that ends the
counting is itself a 64-bit word.
-/

namespace Sequencer.Lowering

open List
open Program Int64 Except

/-! ### Ranges of integers -/

/-- The integer `v` lies before `stop` in the direction of `step`. -/
def Before (stop step v : Int) : Prop := (0 < step ∧ v < stop) ∨ (step < 0 ∧ stop < v)

instance (stop step v : Int) : Decidable (Before stop step v) :=
  inferInstanceAs (Decidable (_ ∨ _))

/-- How many of the integers `start, start + step, …` lie before `stop`: the distance over the
length of a step, rounded up. -/
def countBefore (start stop step : Int) : Nat :=
  if 0 < step then ((stop - start + (step - 1)) / step).toNat
  else ((start - stop + (-step - 1)) / -step).toNat

/-- The integers `start, start + step, …` that lie before `stop`. -/
def integersBefore (start stop step : Int) : List Int :=
  (List.range (countBefore start stop step)).map fun i : Nat => start + i * step

theorem toNat_ceil (distance : Int) {step : Int} (hstep : 0 < step) :
    ((distance + (step - 1)) / step).toNat =
      if 0 < distance then ((distance - step + (step - 1)) / step).toNat + 1 else 0 := by
  split
  · have hshift : distance + (step - 1) = distance - 1 + step := by omega
    have hshift' : distance - step + (step - 1) = distance - 1 := by omega
    have hnonneg : 0 ≤ (distance - 1) / step :=
      Int.ediv_nonneg (by omega) (Int.le_of_lt hstep)
    rw [hshift, hshift', Int.add_ediv_of_dvd_right (Int.dvd_refl step),
      Int.ediv_self (Int.ne_of_gt hstep)]
    omega
  · have hlt : (distance + (step - 1)) / step < 1 :=
      Int.ediv_lt_of_lt_mul hstep (by omega)
    omega

theorem length_integersBefore (start stop step : Int) :
    (integersBefore start stop step).length = countBefore start stop step := by
  simp [integersBefore]

theorem add_succ_mul (start step : Int) (n : Nat) :
    start + ((n + 1 : Nat) : Int) * step = start + step + n * step := by
  simp only [Int.natCast_add, Int.natCast_one]
  ring

section

variable {start stop step : Int} {n : Nat} (hstep : step ≠ 0)

include hstep

/-- A range has one integer more than the rest of it, if its first integer is in it. -/
theorem countBefore_eq :
    countBefore start stop step =
      if Before stop step start then countBefore (start + step) stop step + 1 else 0 := by
  unfold countBefore
  rcases Int.lt_or_gt_of_ne hstep with hneg | hpos
  · have hbefore : Before stop step start ↔ 0 < start - stop := by
      unfold Before
      omega
    have hdist : start + step - stop = start - stop - -step := by omega
    have hneg' : ¬ 0 < step := by omega
    rw [if_neg hneg', if_neg hneg', toNat_ceil _ (by omega), hdist]
    simp only [hbefore]
  · have hbefore : Before stop step start ↔ 0 < stop - start := by
      unfold Before
      omega
    have hdist : stop - (start + step) = stop - start - step := by omega
    rw [if_pos hpos, if_pos hpos, toNat_ceil _ hpos, hdist]
    simp only [hbefore]

theorem countBefore_pos_iff : 0 < countBefore start stop step ↔ Before stop step start := by
  rw [countBefore_eq hstep]
  split <;> simp_all

theorem countBefore_succ (h : countBefore start stop step = n + 1) :
    Before stop step start ∧ countBefore (start + step) stop step = n := by
  rw [countBefore_eq hstep] at h
  split at h
  · rename_i hb
    exact ⟨hb, by omega⟩
  · omega

theorem integersBefore_succ (h : countBefore start stop step = n + 1) :
    integersBefore start stop step = start :: integersBefore (start + step) stop step := by
  unfold integersBefore
  rw [h, (countBefore_succ hstep h).2, range_succ_eq_map]
  simp only [map_cons, map_map, cons.injEq]
  exact ⟨by simp, map_congr_left fun i _ => add_succ_mul start step i⟩

/-- Of `start, start + step, …` exactly the first ones lie before `stop`. -/
theorem lt_countBefore_iff (i : Nat) :
    i < countBefore start stop step ↔ Before stop step (start + i * step) := by
  induction i generalizing start with
  | zero => simpa using countBefore_pos_iff hstep
  | succ i ih =>
    rw [add_succ_mul, ← ih, countBefore_eq hstep]
    split
    · omega
    · -- What lies behind `stop` is followed by what lies behind it as well.
      rename_i hb
      have hnext : ¬ Before stop step (start + step) := by
        unfold Before at hb ⊢
        omega
      have hzero := (countBefore_pos_iff hstep).not.mpr hnext
      omega

/-- **Which integers are in a range**, place by place. -/
theorem getElem?_integersBefore (i : Nat) :
    (integersBefore start stop step)[i]? =
      if Before stop step (start + i * step) then some (start + i * step) else none := by
  have hiff : i < countBefore start stop step ↔ Before stop step (start + i * step) :=
    lt_countBefore_iff hstep i
  unfold integersBefore
  rw [getElem?_map]
  split
  · rename_i hb
    rw [getElem?_range (hiff.mpr hb)]
    rfl
  · rename_i hb
    rw [getElem?_eq_none (by simpa using hiff.not.mpr hb)]
    rfl

end

/-! ### Counting in words -/

variable {n fuel : Nat} {v stop step : Int64} {acc : List Int64}

/-- The integer is a 64-bit word. -/
def IsWord (n : Int) : Prop := -9223372036854775808 ≤ n ∧ n ≤ 9223372036854775807

theorem isWord_toInt (v : Int64) : IsWord v.toInt := ⟨v.le_toInt, v.toInt_le⟩

theorem toInt_add_of_isWord (h : IsWord (v.toInt + step.toInt)) :
    (v + step).toInt = v.toInt + step.toInt := by
  obtain ⟨hge, hle⟩ := h
  rw [toInt_add]
  exact Int.bmod_eq_of_le (by omega) (by omega)

theorem beforeStop_iff : beforeStop stop step v = true ↔ Before stop.toInt step.toInt v.toInt := by
  simp [beforeStop, Before, lt_iff_toInt_lt]

theorem isWord_of_before (h : Before stop.toInt step.toInt (v.toInt + step.toInt)) :
    IsWord (v.toInt + step.toInt) := by
  obtain ⟨hv, hv'⟩ := isWord_toInt v
  obtain ⟨hs, hs'⟩ := isWord_toInt stop
  unfold Before at h
  constructor <;> omega

/-- A step that leaves the words comes back on the near side of where it started. -/
theorem before_of_not_isWord (h : Before stop.toInt step.toInt v.toInt)
    (hw : ¬ IsWord (v.toInt + step.toInt)) : Before stop.toInt step.toInt (v + step).toInt := by
  obtain ⟨hv, hv'⟩ := isWord_toInt v
  obtain ⟨hs, hs'⟩ := isWord_toInt step
  unfold Before IsWord at *
  rw [toInt_add, Int.bmod_def]
  split <;> omega

theorem rangeFrom_of_not_before (h : ¬ Before stop.toInt step.toInt v.toInt) (fuel : Nat)
    (acc : List Int64) : rangeFrom stop step fuel v acc = some acc.reverse := by
  rw [← beforeStop_iff] at h
  cases fuel <;> rw [rangeFrom, if_neg h]

theorem rangeFrom_of_before (h : Before stop.toInt step.toInt v.toInt) (fuel : Nat)
    (acc : List Int64) :
    rangeFrom stop step (fuel + 1) v acc = rangeFrom stop step fuel (v + step) (v :: acc) := by
  rw [rangeFrom, if_pos (beforeStop_iff.mpr h)]

/-- Counting that is too long is given up. -/
theorem rangeFrom_eq_none (hstep : step.toInt ≠ 0)
    (h : fuel < countBefore v.toInt stop.toInt step.toInt) :
    rangeFrom stop step fuel v acc = none := by
  induction fuel generalizing v acc with
  | zero =>
    have hb := (countBefore_pos_iff hstep).mp h
    rw [rangeFrom, if_pos (beforeStop_iff.mpr hb)]
  | succ fuel ih =>
    obtain ⟨n, hn⟩ : ∃ n, countBefore v.toInt stop.toInt step.toInt = n + 1 :=
      ⟨_, (Nat.succ_pred_eq_of_pos (by omega)).symm⟩
    obtain ⟨hb, hrest⟩ := countBefore_succ hstep hn
    have hnext : Before stop.toInt step.toInt (v.toInt + step.toInt) :=
      (countBefore_pos_iff hstep).mp (by omega)
    rw [rangeFrom_of_before hb]
    refine ih ?_
    rw [toInt_add_of_isWord (isWord_of_before hnext)]
    omega

/-- Counting that ends at the stop gives the members of the range. -/
theorem rangeFrom_eq_some (hstep : step.toInt ≠ 0)
    (hn : countBefore v.toInt stop.toInt step.toInt = n) (hfuel : n ≤ fuel)
    (hend : IsWord (v.toInt + n * step.toInt)) :
    rangeFrom stop step fuel v acc =
      some (acc.reverse ++ (integersBefore v.toInt stop.toInt step.toInt).map ofInt) := by
  induction n generalizing fuel v acc with
  | zero =>
    have hb := (countBefore_pos_iff hstep).not.mp (Nat.not_lt.mpr (Nat.le_of_eq hn))
    rw [rangeFrom_of_not_before hb, integersBefore, hn]
    simp
  | succ n ih =>
    obtain ⟨hb, hrest⟩ := countBefore_succ hstep hn
    rw [add_succ_mul] at hend
    -- The next integer is in the range again, or it is the one that ends it.
    have hword : IsWord (v.toInt + step.toInt) := by
      rcases Nat.eq_zero_or_pos n with rfl | hpos
      · simpa using hend
      · exact isWord_of_before ((countBefore_pos_iff hstep).mp (hrest ▸ hpos))
    have hadd := toInt_add_of_isWord hword
    obtain ⟨k, rfl⟩ : ∃ k, fuel = k + 1 := ⟨fuel - 1, by omega⟩
    rw [rangeFrom_of_before hb, ih (by rw [hadd, hrest]) (by omega) (by rwa [hadd]), hadd,
      integersBefore_succ hstep hn]
    simp

theorem length_lt_of_rangeFrom {l : List Int64} (hb : Before stop.toInt step.toInt v.toInt)
    (h : rangeFrom stop step fuel v acc = some l) : acc.length < l.length := by
  induction fuel generalizing v acc with
  | zero =>
    rw [rangeFrom, if_pos (beforeStop_iff.mpr hb)] at h
    cases h
  | succ fuel ih =>
    rw [rangeFrom_of_before hb] at h
    by_cases hnext : Before stop.toInt step.toInt (v + step).toInt
    · have := ih hnext h
      simp only [length_cons] at this
      omega
    · rw [rangeFrom_of_not_before hnext] at h
      cases h
      simp

/-- Counting past the last word goes on for longer than the range. -/
theorem rangeFrom_wrapped (hstep : step.toInt ≠ 0) {l : List Int64}
    (hn : countBefore v.toInt stop.toInt step.toInt = n) (hfuel : n ≤ fuel)
    (hend : ¬ IsWord (v.toInt + n * step.toInt)) (h : rangeFrom stop step fuel v acc = some l) :
    acc.length + n < l.length := by
  induction n generalizing fuel v acc with
  | zero => exact absurd (isWord_toInt v) (by simpa using hend)
  | succ n ih =>
    obtain ⟨hb, hrest⟩ := countBefore_succ hstep hn
    rw [add_succ_mul] at hend
    obtain ⟨k, rfl⟩ : ∃ k, fuel = k + 1 := ⟨fuel - 1, by omega⟩
    rw [rangeFrom_of_before hb] at h
    rcases Nat.eq_zero_or_pos n with rfl | hpos
    · have hwrapped := before_of_not_isWord hb (by simpa using hend)
      have := length_lt_of_rangeFrom hwrapped h
      simpa using this
    · have hword := isWord_of_before ((countBefore_pos_iff hstep).mp (hrest ▸ hpos))
      have hadd := toInt_add_of_isWord hword
      have := ih (by rw [hadd, hrest]) (by omega) (by rwa [hadd]) h
      simp only [length_cons] at this
      omega

/-! ### Loops over ranges -/

theorem mapM_eq_ok_iff {ε α β : Type} {f : α → Except ε β} {l : List α} {bs : List β} :
    l.mapM f = .ok bs ↔ List.Forall₂ (fun a b => f a = .ok b) l bs := by
  induction l generalizing bs with
  | nil => simp [pure, Except.pure, eq_comm]
  | cons a l ih =>
    rw [mapM_cons, forall₂_cons_left_iff]
    simp only [← ih]
    cases f a with
    | error e => simp [bind, Except.bind]
    | ok b => cases l.mapM f <;> simp [bind, Except.bind, pure, Except.pure, eq_comm]

/-- The arguments of a call to `range`, and the bounds and the step that they give. -/
inductive RangeArgs : List Int64 → (start stop step : Int64) → Prop
  | upTo (stop : Int64) : RangeArgs [stop] 0 stop 1
  | between (start stop : Int64) : RangeArgs [start, stop] start stop 1
  | stepping (start stop step : Int64) : RangeArgs [start, stop, step] start stop step

/-- Evaluated to `r`, the iterable at `pos` runs over the integers `l`: it gives them if they are
not too many, and is refused for their number exactly if they are. -/
structure RunsOver (pos : Position) (r : Except Fault (List Int64)) (l : List Int) : Prop where
  values : l.length ≤ maxUnroll → ∃ vs, r = .ok vs ∧ vs.map toInt = l
  refused : r = .error (.unsupported pos (.tooManyIterations maxUnroll)) ↔ maxUnroll < l.length

variable {env : Env} {pos lparen rparen : Position} {args : List Expr} {values : List Int64}
  {start : Int64}

theorem iterValues_range (hvalues : args.mapM (constInt env) = .ok values)
    (hargs : RangeArgs values start stop step) (hstep : step ≠ 0) :
    iterValues env (.call (.name pos "range") lparen args rparen) =
      (rangeFrom stop step maxUnroll start []).elim
        (.error (.unsupported pos (.tooManyIterations maxUnroll))) .ok := by
  have hlen : args.length = values.length := (mapM_eq_ok_iff.mp hvalues).length_eq
  have hcount : (args.length < 1 || 3 < args.length) = false := by
    rw [hlen]
    cases hargs <;> rfl
  have hbounds : rangeBounds values = (start, stop, step) := by cases hargs <;> rfl
  simp only [iterValues, hcount, hvalues, hbounds, hstep, bind, Except.bind, pure, Except.pure,
    Bool.false_eq_true, if_false]
  cases rangeFrom stop step maxUnroll start [] <;> rfl

theorem isWord_of_mem_integersBefore (hstep : step.toInt ≠ 0) {n : Int}
    (hn : n ∈ integersBefore start.toInt stop.toInt step.toInt) : IsWord n := by
  obtain ⟨i, hi⟩ := getElem?_of_mem hn
  rw [getElem?_integersBefore hstep] at hi
  split at hi
  · rename_i hb
    obtain rfl := Option.some.inj hi
    obtain ⟨hs, hs'⟩ := isWord_toInt start
    obtain ⟨ht, ht'⟩ := isWord_toInt stop
    -- A range never goes back behind its start.
    rcases hb with ⟨hpos, hlt⟩ | ⟨hneg, hlt⟩
    · have hfar : 0 ≤ (i : Int) * step.toInt :=
        Int.mul_nonneg (Int.natCast_nonneg i) (Int.le_of_lt hpos)
      constructor <;> omega
    · have hfar : (i : Int) * step.toInt ≤ 0 :=
        Int.mul_nonpos_of_nonneg_of_nonpos (Int.natCast_nonneg i) (Int.le_of_lt hneg)
      constructor <;> omega
  · cases hi

theorem map_toInt_integersBefore (hstep : step.toInt ≠ 0) :
    ((integersBefore start.toInt stop.toInt step.toInt).map ofInt).map toInt =
      integersBefore start.toInt stop.toInt step.toInt := by
  rw [map_map]
  refine (map_congr_left fun n hn => ?_).trans (map_id _)
  obtain ⟨hge, hle⟩ := isWord_of_mem_integersBefore hstep hn
  exact toInt_ofInt_of_le hge (by omega)

section Loops

variable {r : Except Fault (List Int64)} {l : List Int} (hstep : step.toInt ≠ 0)
  (hr : r = (rangeFrom stop step maxUnroll start []).elim
    (.error (.unsupported pos (.tooManyIterations maxUnroll))) .ok)
  (hl : l = integersBefore start.toInt stop.toInt step.toInt)

include hstep hr hl

theorem runsOver_of_long (h : maxUnroll < l.length) : RunsOver pos r l := by
  rw [hr, rangeFrom_eq_none hstep (by rwa [← length_integersBefore, ← hl])]
  exact ⟨fun hshort => absurd h (Nat.not_lt.mpr hshort), fun _ => h, fun _ => rfl⟩

theorem runsOver_of_isWord (hshort : l.length ≤ maxUnroll)
    (hend : IsWord (start.toInt + l.length * step.toInt)) : RunsOver pos r l := by
  subst hl
  rw [hr, rangeFrom_eq_some hstep (length_integersBefore _ _ _).symm hshort hend, reverse_nil,
    nil_append]
  refine ⟨fun _ => ⟨_, rfl, map_toInt_integersBefore hstep⟩, fun h => ?_, fun h => ?_⟩
  · cases h
  · exact absurd hshort (Nat.not_le.mpr h)

theorem isWord_of_runsOver (h : RunsOver pos r l) (hshort : l.length ≤ maxUnroll) :
    IsWord (start.toInt + l.length * step.toInt) := by
  subst hl
  obtain ⟨vs, hvs, hmap⟩ := h.values hshort
  rw [hr] at hvs
  have hfound : rangeFrom stop step maxUnroll start [] = some vs := by
    cases hfrom : rangeFrom stop step maxUnroll start [] with
    | none =>
      rw [hfrom] at hvs
      cases hvs
    | some us =>
      rw [hfrom] at hvs
      rw [ok.inj hvs]
  by_contra hend
  have hmore := rangeFrom_wrapped hstep (length_integersBefore _ _ _).symm hshort hend hfound
  rw [← hmap] at hmore
  simp at hmore

end Loops

/-- **A loop runs over its range** unless counting wraps around. The loop gets the integers from
`start` on that lie before `stop`, or is refused if they are too many, exactly if they are too many
or the integer that ends them is a word. -/
theorem range_unrolls_iff (env : Env) (pos lparen rparen : Position) {args : List Expr}
    {values : List Int64} {start stop step : Int64}
    (hvalues : args.mapM (constInt env) = .ok values)
    (hargs : RangeArgs values start stop step) (hstep : step ≠ 0) :
    let l := integersBefore start.toInt stop.toInt step.toInt
    (∀ i : Nat, l[i]? = if Before stop.toInt step.toInt (start.toInt + i * step.toInt) then
      some (start.toInt + i * step.toInt) else none) ∧
    (RunsOver pos (iterValues env (.call (.name pos "range") lparen args rparen)) l ↔
      maxUnroll < l.length ∨ IsWord (start.toInt + l.length * step.toInt)) := by
  intro l
  have hstep' : step.toInt ≠ 0 := by simpa [← toInt_inj] using hstep
  have hr := @iterValues_range _ _ env pos lparen rparen _ _ _ hvalues hargs hstep
  refine ⟨getElem?_integersBefore hstep', fun h => ?_, fun h => ?_⟩
  · rcases Nat.lt_or_ge maxUnroll l.length with hlong | hshort
    · exact .inl hlong
    · exact .inr (isWord_of_runsOver hstep' hr rfl h hshort)
  · rcases Nat.lt_or_ge maxUnroll l.length with hlong | hshort
    · exact runsOver_of_long hstep' hr rfl hlong
    · exact runsOver_of_isWord hstep' hr rfl hshort (h.resolve_left (by omega))

def literals (values : List Int64) : List Expr := values.map fun n => .int ⟨1, 16⟩ n ""

def rangeCall (values : List Int64) : Expr :=
  .call (.name ⟨1, 10⟩ "range") ⟨1, 15⟩ (literals values) ⟨1, 60⟩

/-- A range that comes close to the last of all words and does not wrap around. -/
theorem range_near_last_word :
    RunsOver ⟨1, 10⟩ (iterValues .empty (rangeCall [9223372036854775801, 9223372036854775806, 3]))
      [9223372036854775801, 9223372036854775804] := by
  have hvalues : (literals [9223372036854775801, 9223372036854775806, 3]).mapM (constInt .empty) =
      .ok [9223372036854775801, 9223372036854775806, 3] := rfl
  have hword : IsWord (9223372036854775801 + 2 * 3) := by
    unfold IsWord
    decide
  exact (range_unrolls_iff .empty ⟨1, 10⟩ ⟨1, 15⟩ ⟨1, 60⟩ hvalues (.stepping _ _ _)
    (by decide)).2.mpr (.inr hword)

/-- A range with one integer, whose successor is no word. Counting goes on from the first of all
words, and the loop is refused as too long. -/
theorem range_past_last_word :
    integersBefore 9223372036854775806 9223372036854775807 2 = [9223372036854775806] ∧
    iterValues .empty (rangeCall [9223372036854775806, 9223372036854775807, 2]) =
      .error (.unsupported ⟨1, 10⟩ (.tooManyIterations maxUnroll)) ∧
    ¬ RunsOver ⟨1, 10⟩ (iterValues .empty (rangeCall [9223372036854775806, 9223372036854775807, 2]))
      [9223372036854775806] := by
  have hnone : rangeFrom 9223372036854775807 2 maxUnroll 9223372036854775806 [] = none := by
    rw [show maxUnroll = 65535 + 1 from rfl, rangeFrom_of_before (by decide)]
    exact rangeFrom_eq_none (by decide) (by decide)
  have herror : iterValues .empty (rangeCall [9223372036854775806, 9223372036854775807, 2]) =
      .error (.unsupported ⟨1, 10⟩ (.tooManyIterations maxUnroll)) := by
    rw [rangeCall, iterValues_range rfl (.stepping _ _ _) (by decide), hnone]
    rfl
  refine ⟨by decide, herror, fun h => ?_⟩
  have hlong := h.refused.mp herror
  simp [maxUnroll] at hlong

end Sequencer.Lowering
