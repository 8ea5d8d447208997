import Sequencer.Proofs.Lowering.Lockstep

/-!
# Making values

`Makes` is what one step of lowering does: it takes tags and nothing else, the value reads nothing
but registers, and in a **twin** of the workshop, with registers of the same widths, the same step
makes a value like it.
-/

namespace Sequencer.Lowering

open Circuit Program Signal Value Workshop Build

/-- The signals that hold the values of the registers, in the order of their places. -/
def Workshop.storages (w : Workshop) : List Signal := w.bank.registers.map Register.storage

/-- Two workshops whose registers have the same widths. -/
def Twin (w t : Workshop) : Prop := w.storages.map bits = t.storages.map bits

/-- A name that does not stand for a hardware value, nor for anything but a channel of `rs`. -/
def Binding.Plain (rs : List Resource) : Binding → Prop
  | .value _ => False
  | .resource r => r ∈ rs ∧ ∀ d, r ≠ .device d
  | _ => True

/-- A name that does not stand for a device. -/
def Binding.Deviceless : Binding → Prop
  | .resource (.device _) => False
  | _ => True

/-- Everything that a name stands for satisfies `P`. -/
def Env.All (P : Binding → Prop) (env : Env) : Prop := ∀ p ∈ env.bindings, P p.2

/-- A scope without hardware values, in which every resource is a channel of `rs`. -/
def Env.Plain (rs : List Resource) (env : Env) : Prop := ∀ p ∈ env.bindings, p.2.Plain rs

/-- The second workshop is the first with some more tags handed out. -/
def OnlyTags (w w' : Workshop) : Prop := ∃ n, w.supply ≤ n ∧ w' = { w with supply := n }

/-- A step that makes a value: it only takes tags, the value is built on the registers there are,
and a twin of the workshop gives a value like it. -/
structure Makes (x : Build Value) (w : Workshop) (v : Value) (w' : Workshop) : Prop where
  onlyTags : OnlyTags w w'
  built : v.BuiltOn w.storages
  echoes : ∀ t, Twin w t → ∃ u t', Gives x t u t' ∧ OnlyTags t t' ∧
    Alike w.storages t.storages v u

variable {env : Env} {rs : List Resource} {w t w' : Workshop} {v : Value} {pos : Position}

theorem Env.All.lookup {P : Binding → Prop} (h : env.All P) {name : String} {b : Binding}
    (hb : env.lookup name = some b) : P b := by
  obtain ⟨before, after, hl, -⟩ := List.lookup_eq_some_iff.mp hb
  exact h (name, b) (by simp [hl])

theorem Env.Plain.lookup (h : env.Plain rs) {name : String} {b : Binding}
    (hb : env.lookup name = some b) : b.Plain rs :=
  All.lookup h hb

theorem Env.Plain.deviceless (h : env.Plain rs) : env.All Binding.Deviceless := by
  intro p hp
  have hplain := h p hp
  obtain ⟨name, b⟩ := p
  cases b with
  | resource r =>
    cases r with
    | device d => exact hplain.2 d rfl
    | sink | source => trivial
  | value | register | int | intrinsic => trivial

@[simp]
theorem Workshop.storages_tick (w : Workshop) : w.tick.storages = w.storages := rfl

theorem Workshop.storages_getElem? {id : RegisterId} {r : Register}
    (hr : w.bank.registers[id]? = some r) : w.storages[id]? = some r.storage := by
  simp [storages, hr]

theorem Twin.length_eq (h : Twin w t) : w.bank.registers.length = t.bank.registers.length := by
  simpa [storages] using congrArg List.length h

theorem Twin.getElem?_storages (h : Twin w t) {id : Nat} {x : Signal}
    (hx : w.storages[id]? = some x) : ∃ y, t.storages[id]? = some y ∧ x.bits = y.bits := by
  have hid : (w.storages.map bits)[id]? = (t.storages.map bits)[id]? := by rw [h]
  cases hy : t.storages[id]? with
  | none => simp [hx, hy] at hid
  | some y => exact ⟨y, rfl, by simpa [hx, hy] using hid⟩

theorem Twin.getElem? (h : Twin w t) {id : RegisterId} {r : Register}
    (hr : w.bank.registers[id]? = some r) :
    ∃ r', t.bank.registers[id]? = some r' ∧ r.storage.bits = r'.storage.bits := by
  obtain ⟨y, hy, hbits⟩ := h.getElem?_storages (storages_getElem? hr)
  obtain ⟨r', hr', rfl⟩ : ∃ r', t.bank.registers[id]? = some r' ∧ r'.storage = y := by
    simpa [storages] using hy
  exact ⟨r', hr', hbits⟩

theorem OnlyTags.refl (w : Workshop) : OnlyTags w w := ⟨w.supply, Nat.le_refl _, rfl⟩

theorem OnlyTags.succ (w : Workshop) : OnlyTags w w.tick :=
  ⟨_, Nat.le_succ _, rfl⟩

theorem OnlyTags.trans {w₁ w₂ w₃ : Workshop} (h : OnlyTags w₁ w₂) (h' : OnlyTags w₂ w₃) :
    OnlyTags w₁ w₃ := by
  obtain ⟨n, hn, rfl⟩ := h
  obtain ⟨m, hm, rfl⟩ := h'
  exact ⟨m, Nat.le_trans hn hm, rfl⟩

theorem OnlyTags.storages (h : OnlyTags w w') : w'.storages = w.storages := by
  obtain ⟨n, _, rfl⟩ := h
  rfl

theorem Twin.onlyTags {t' : Workshop} (h : Twin w t) (hw : OnlyTags w w') (ht : OnlyTags t t') :
    Twin w' t' := by
  unfold Twin
  rw [hw.storages, ht.storages, h]

/-! ### Twins side by side -/

/-- Values alike, the first of them built on the registers there are. -/
def Peers (ss ts : List Signal) (v u : Value) : Prop := v.BuiltOn ss ∧ v.Alike ss ts u

/-- On twins expressions are lowered in lockstep, with nothing but tags taken. -/
theorem Twin.coupling (h : Twin w t) (henv : env.Plain rs) :
    Coupling (fun w' t' => OnlyTags w w' ∧ OnlyTags t t') (fun _ => True)
      (Peers w.storages t.storages) (fun _ => none) env env where
  reads := .refl env
  expected _ := trivial
  tick htags := ⟨htags.1.trans (.succ _), htags.2.trans (.succ _)⟩
  value hb := (henv.lookup hb).elim
  register _ htags := by
    refine ⟨fun _ => trivial, fun hr => ?_⟩
    obtain ⟨r', hr', hbits⟩ := (h.onlyTags htags.1 htags.2).getElem? hr
    have hx := htags.1.storages ▸ storages_getElem? hr
    have hx' := htags.2.storages ▸ storages_getElem? hr'
    exact ⟨r', hr', List.mem_of_getElem? hx, .signal hx hx' hbits⟩
  const _ _ := ⟨trivial, .const _ _ _⟩
  binary _ hop hl hr := ⟨⟨hop, hl.1, hr.1⟩, .binary _ _ _ hl.2 hr.2⟩
  slice _ hv hbounds := ⟨⟨hbounds, hv.1⟩, .slice _ _ _ _ hv.2⟩
  measure hv := ⟨hv.2.measurable_eq.symm, hv.2.width_eq.symm⟩

/-- In lockstep with a twin, started on the workshops themselves. -/
theorem Twin.gives {α : Type} {R : α → α → Prop} {x y : Build α} {a : α}
    (h : Lockstep (fun w' t' => OnlyTags w w' ∧ OnlyTags t t') (fun _ => True) R x y)
    (hx : Gives x w a w') : OnlyTags w w' ∧ ∃ b t', Gives y t b t' ∧ OnlyTags t t' ∧ R a b := by
  obtain ⟨b, t', hb, htags, hR⟩ := h.gives ⟨.refl w, .refl t⟩ hx
  exact ⟨htags.1, b, t', hb, htags.2, hR⟩

theorem Peers.hole (ss ts : List Signal) : Peers ss ts .hole .hole := ⟨trivial, .hole⟩

/-- **Lowering an expression makes a value.** -/
theorem makes_lowerExpr (henv : env.Plain rs) (e : Expr) (h : Gives (lowerExpr env e) w v w') :
    Makes (lowerExpr env e) w v w' := by
  have hlock : ∀ t, Twin w t → OnlyTags w w' ∧ ∃ u t', Gives (lowerExpr env e) t u t' ∧
      OnlyTags t t' ∧ Peers w.storages t.storages v u := fun t ht =>
    Twin.gives ((ht.coupling henv).lowerExpr_same (.inl (.hole _ _))) h
  obtain ⟨htags, _, _, -, -, hbuilt, -⟩ := hlock w rfl
  refine ⟨htags, hbuilt, fun t ht => ?_⟩
  obtain ⟨-, u, t', hu, htags', hpeers⟩ := hlock t ht
  exact ⟨u, t', hu, htags', hpeers.2⟩

theorem Build.gives_ofFresh_pure {α : Type} {a b : α} :
    Gives (ofFresh (pure a)) w b w' ↔ a = b ∧ w' = w := gives_ofFresh

/-- What widening a value to its target does. -/
theorem extend_spec {u : Value} {width : Int} (h : Gives (ofFresh (v.extend width)) w u w') :
    OnlyTags w w' ∧ (∀ ss, v.BuiltOn ss → u.BuiltOn ss) ∧
      ∀ ss ts v', Alike ss ts v v' → Alike ss ts u (v'.widened width) := by
  cases v with
  | const tag l =>
    unfold extend at h
    by_cases hneg : l.value < 0 ∧ l.bits < width
    · simp only [hneg, decide_true, Bool.and_self, if_true, gives_newConst] at h
      obtain ⟨rfl, rfl⟩ := h
      refine ⟨.succ w, fun _ _ => trivial, ?_⟩
      rintro ss ts _ (_ | _ | ⟨_, tag', _⟩)
      simp only [widened, if_pos hneg]
      exact .const _ _ _
    · have hkeep : ¬ (decide (l.value < 0) && decide (l.bits < width)) = true := by
        simpa using hneg
      simp only [if_neg hkeep] at h
      obtain ⟨rfl, rfl⟩ := gives_ofFresh_pure.mp h
      refine ⟨.refl _, fun _ h => h, ?_⟩
      rintro ss ts _ (_ | _ | ⟨_, tag', _⟩)
      simp only [widened, if_neg hneg]
      exact .const _ _ _
  | hole | signal | binary | slice =>
    obtain ⟨rfl, rfl⟩ := gives_ofFresh_pure.mp h
    refine ⟨.refl _, fun _ h => h, fun ss ts v' hal => ?_⟩
    have hself : v'.widened width = v' := by cases hal; all_goals rfl
    rwa [hself]

/-- An operand that is a value is lowered alike in a twin of the workshop. -/
theorem lowerOperand_value (henv : env.Plain rs) {e : Expr} {allow : Bool}
    (h : Gives (lowerOperand env e allow) w (.value v) w') :
    OnlyTags w w' ∧ v.BuiltOn w.storages ∧ ∀ t, Twin w t → ∃ u t',
      Gives (lowerOperand env e allow) t (.value u) t' ∧ OnlyTags t t' ∧
        Alike w.storages t.storages v u := by
  have hlock : ∀ t, Twin w t → OnlyTags w w' ∧ ∃ u t', Gives (lowerOperand env e allow) t u t' ∧
      OnlyTags t t' ∧ Operand.Rel (Peers w.storages t.storages) (.value v) u := fun t ht =>
    Twin.gives ((ht.coupling henv).lowerOperand_same (.inl (.hole _ _)) allow) h
  obtain ⟨htags, _, _, -, -, ⟨hbuilt, -⟩⟩ := hlock w rfl
  refine ⟨htags, hbuilt, fun t ht => ?_⟩
  obtain ⟨-, _, t', hu, htags', ⟨-, halike⟩⟩ := hlock t ht
  exact ⟨_, t', hu, htags', halike⟩

/-- An operand that declares a register does so in every workshop. -/
theorem lowerOperand_register {e : Expr} {allow : Bool} {width : Int}
    (h : Gives (lowerOperand env e allow) w (.register width) w') :
    w' = w ∧ 1 ≤ width ∧ ∀ t, Gives (lowerOperand env e allow) t (.register width) t := by
  have hvalue : ∀ {x : Build Value},
      ¬ Gives (do return Operand.value (← x)) w (.register width) w' := by
    intro x hx
    obtain ⟨_, _, -, hx⟩ := gives_bind.mp hx
    cases (gives_pure.mp hx).1
  unfold lowerOperand at h ⊢
  split at h
  · rename_i func lparen args rparen
    obtain ⟨i, hi, h⟩ := gives_ofExcept_bind.mp h
    simp only [gives_ofExcept_bind]
    cases i with
    | bitslice | unknown code => exact (hvalue h).elim
    | register =>
      cases allow with
      | false => exact (not_gives_throw h).elim
      | true =>
        match args with
        | [] | _ :: _ :: _ => exact (not_gives_throw h).elim
        | [size] =>
          obtain ⟨n, hn, h⟩ := gives_ofExcept_bind.mp h
          split at h
          · exact (not_gives_throw h).elim
          · rename_i hpos
            obtain ⟨⟨⟩, rfl⟩ := gives_pure.mp h
            refine ⟨rfl, by simpa [Int64.lt_iff_toInt_lt] using hpos, fun t => ⟨_, hi, ?_⟩⟩
            refine gives_ofExcept_bind.mpr ⟨n, hn, ?_⟩
            rw [if_neg hpos]
            exact gives_pure.mpr ⟨rfl, rfl⟩
  · exact (hvalue h).elim

end Sequencer.Lowering
