import Sequencer.Proofs.Lowering.Derivation

/-!
# Statements in corresponding scopes

Two sessions are compared by a relation between their scopes that lowering respects (`Exchange`),
such as the loss of a loop variable whose value is written out. The exits of a statement carry new
labels (`Block.Within`); both facts follow the same recursion.
-/

namespace Sequencer.Lowering

open List
open Circuit Program Lowering Lower Block Resource Build Workshop State Env

/-! ### Blocks -/

namespace Block

/-- A number below `hi`. -/
def Below (hi n : Nat) : Prop := n < hi

/-- A number from `lo` up to `hi`. -/
def Between (lo hi n : Nat) : Prop := lo ≤ n ∧ n < hi

/-- The labels of a block are below `hi`, and those of its exits are not below `lo` either. -/
structure Within (b : Block) (lo hi : Nat) : Prop where
  labels : ∀ s ∈ b.states, Below hi s.label
  exits : ∀ x ∈ b.exits, Between lo hi x

variable {a b : Block} {lo lo' hi hi' : Nat}

theorem Within.empty : Within .empty lo hi := ⟨by simp [Block.empty], by simp [Block.empty]⟩

theorem Within.single {s : State} (h : Between lo hi s.label) : (single s).Within lo hi := by
  constructor
  · simpa [Block.single, Below] using h.2
  · simpa [Block.single] using h

theorem Within.mono (h : b.Within lo hi) (hlo : lo' ≤ lo) (hhi : hi ≤ hi') : b.Within lo' hi' :=
  ⟨fun s hs => Nat.lt_of_lt_of_le (h.labels s hs) hhi,
    fun x hx => ⟨Nat.le_trans hlo (h.exits x hx).1, Nat.lt_of_lt_of_le (h.exits x hx).2 hhi⟩⟩

theorem map_label_connect (ss : List State) (xs : List StateId) (t : StateId) :
    (connect ss xs t).map label = ss.map label := by
  induction xs generalizing ss with
  | nil => rfl
  | cons x xs ih =>
    show (connect _ xs t).map label = _
    rw [ih, map_map]
    refine map_congr_left fun s _ => ?_
    simp only [Function.comp]
    split <;> rfl

theorem forall_label_connect {P : StateId → Prop} {ss : List State} (h : ∀ s ∈ ss, P s.label)
    (xs : List StateId) (t : StateId) : ∀ s ∈ connect ss xs t, P s.label := by
  intro s hs
  have hmem : s.label ∈ ss.map label := by
    rw [← map_label_connect ss xs t]
    exact mem_map_of_mem hs
  obtain ⟨s₀, hs₀, heq⟩ := mem_map.mp hmem
  exact heq ▸ h s₀ hs₀

theorem Within.andThen (ha : a.Within lo hi) (hb : b.Within lo hi) :
    (a.andThen b).Within lo hi := by
  unfold Block.andThen
  split
  · exact ha
  · exact ⟨forall_mem_append.mpr ⟨forall_label_connect ha.labels _ _, hb.labels⟩, hb.exits⟩

/-- A block with exits that are new since `mid`, put after a block from before. -/
theorem Within.followed {mid : Nat} (ha : a.Within lo mid) (hb : b.Within mid hi) (hlo : lo ≤ mid)
    (hhi : mid ≤ hi) : (a.andThen b).Within lo hi :=
  (ha.mono (Nat.le_refl _) hhi).andThen (hb.mono hlo (Nat.le_refl _))

end Block

/-! ### Resources -/

/-- A step that goes on from new states only, once the tags below `n` are taken. -/
def MakesStates (n : Nat) (x : Build Block) : Prop :=
  ∀ w b w', n ≤ w.supply → Gives x w b w' → b.Within w.supply w'.supply

/-- A device that looks at its arguments through the lowerer only, and that goes on from new states
only, once the tags below `n` are taken. -/
def RegularDevice (n : Nat) (d : Device) : Prop :=
  ∀ (l l' : Lowerer) (args args' : List Expr), List.Forall₂ (fun a a' =>
      Repeats (l.value a) (l'.value a') ∧ Repeats (l.register a) (l'.register a')) args args' →
    Repeats (d.sequence l args) (d.sequence l' args') ∧ MakesStates n (d.sequence l args)

/-- What a name stands for, where all devices are regular. -/
def Binding.Regular (n : Nat) : Binding → Prop
  | .resource (.device d) => RegularDevice n d
  | _ => True

theorem Gives.tryCatch {ε τ α : Type} {x : ExceptT ε (StateM τ) α} {h : ε → ExceptT ε (StateM τ) α}
    {s s' : τ} {a : α} (hx : Gives x s a s') : Gives (tryCatch x h) s a s' := by
  unfold Gives at hx ⊢
  rw [run_tryCatch, hx]

section Resources

variable {n : Nat} {σ : String → Option Int64} {e e' : Env} (c : Channel)

theorem repeats_send (v : Value) : Repeats (send c v) (send c v) :=
  (repeats_ofFresh fun n => Nat.le_succ n).bind fun _ => (repeats_extend v _).bind fun _ =>
    (repeats_ofFresh fun n => Nat.le_succ n).bind fun _ => repeats_pure _

theorem repeats_receive (id : RegisterId) : Repeats (receive c id) (receive c id) :=
  (repeats_ofFresh fun n => Nat.le_succ n).bind fun _ => (repeats_load id _).bind fun _ =>
    repeats_pure _

theorem makesStates_fresh {f : StateId → Build Block}
    (hf : ∀ l w b w', Gives (f l) w b w' →
      w.supply ≤ w'.supply ∧ ∃ s : State, s.label = l ∧ b = .single s) :
    MakesStates n (ofFresh fresh >>= f) := by
  intro w b w' _ h
  obtain ⟨l, w₁, hl, h⟩ := gives_bind.mp h
  obtain ⟨rfl, rfl⟩ := gives_fresh.mp hl
  obtain ⟨hle, s, hs, rfl⟩ := hf _ _ _ _ h
  exact Within.single ⟨Nat.le_of_eq hs.symm, by rw [hs]; exact hle⟩

theorem Repeats.makesStates_bind {α : Type} {x y : Build α} (hx : Repeats x y)
    {f : α → Build Block} (hf : ∀ a, MakesStates n (f a)) : MakesStates n (x >>= f) := by
  intro w b w' hn h
  obtain ⟨a, w₁, ha, h⟩ := gives_bind.mp h
  obtain ⟨hle, -⟩ := hx w w (.refl w) a w₁ ha
  exact (hf a w₁ b w' (Nat.le_trans hn hle) h).mono hle (Nat.le_refl _)

theorem makesStates_throw (e : Fault) : MakesStates n (throw e) :=
  fun _ _ _ _ h => (not_gives_throw h).elim

theorem makesStates_send (v : Value) : MakesStates n (send c v) := by
  refine makesStates_fresh fun l w b w' h => ?_
  obtain ⟨data, w₁, hdata, h⟩ := gives_bind.mp h
  obtain ⟨waiting, w₂, hwaiting, h⟩ := gives_bind.mp h
  obtain ⟨rfl, rfl⟩ := gives_newBinary.mp hwaiting
  obtain ⟨rfl, rfl⟩ := gives_pure.mp h
  exact ⟨Nat.le_succ_of_le (repeats_extend _ _ w w (.refl w) _ _ hdata).1, _, rfl, rfl⟩

theorem makesStates_receive (id : RegisterId) : MakesStates n (receive c id) := by
  refine makesStates_fresh fun l w b w' h => ?_
  obtain ⟨load, w₁, hload, h⟩ := gives_bind.mp h
  obtain ⟨rfl, rfl⟩ := gives_pure.mp h
  exact ⟨(repeats_load _ _ w w (.refl w) _ _ hload).1, _, rfl, rfl⟩

theorem repeats_sequence (h : Reads σ e e') {r : Resource}
    (hr : Binding.Regular n (.resource r)) (args : List Expr) :
    Repeats (r.sequence e.lowerer args) (r.sequence e'.lowerer (substExprs σ args)) ∧
      MakesStates n (r.sequence e.lowerer args) := by
  have hvalue : ∀ a, Repeats (e.lowerer.value a) (e'.lowerer.value (a.subst σ)) :=
    fun a => repeats_lowerExpr h a
  have hregister : ∀ a, Repeats (e.lowerer.register a) (e'.lowerer.register (a.subst σ)) :=
    fun a => repeats_ofExcept fun _ hid => h.registerArg hid
  cases r with
  | device d =>
    refine hr e.lowerer e'.lowerer args _ ?_
    rw [substExprs_eq_map, forall₂_map_right_iff, forall₂_same]
    exact fun a _ => ⟨hvalue a, hregister a⟩
  | sink c =>
    match args with
    | [a] =>
      exact ⟨(hvalue a).bind fun v => repeats_send c v,
        (hvalue a).makesStates_bind fun v => makesStates_send c v⟩
    | [] | _ :: _ :: _ => exact ⟨repeats_throw _ _, makesStates_throw _⟩
  | source c =>
    match args with
    | [a] =>
      exact ⟨(hregister a).bind fun id => repeats_receive c id,
        (hregister a).makesStates_bind fun id => makesStates_receive c id⟩
    | [] | _ :: _ :: _ => exact ⟨repeats_throw _ _, makesStates_throw _⟩

theorem repeats_lowerYield (h : Reads σ e e') (he : e.All (Binding.Regular n)) (pos : Position)
    (value : Option Expr) :
    Repeats (lowerYield e pos value) (lowerYield e' pos (substOption σ value)) ∧
      MakesStates n (lowerYield e pos value) := by
  unfold lowerYield
  split
  · rename_i func lparen args rparen
    rw [substOption, Expr.subst]
    dsimp only
    split
    · rename_i fpos ident
      cases hb : e.lookup ident with
      | none => exact ⟨repeats_throw _ _, makesStates_throw _⟩
      | some b =>
        cases b with
        | resource r =>
          rw [h.lookup_eq (by simp [hb]), hb]
          obtain ⟨hsame, hmakes⟩ := repeats_sequence h (he.lookup hb) args
          -- A fault of the resource is only given its place in the text.
          constructor
          · intro w w' hw b u hb
            have hseq := hb.of_tryCatch fun f => by cases f <;> exact ⟨_, rfl⟩
            obtain ⟨hle, u', hu', hlog⟩ := hsame w w' hw b u hseq
            exact ⟨hle, u', hu'.tryCatch, hlog⟩
          · intro w b w' hn hb
            exact hmakes w b w' hn (hb.of_tryCatch fun f => by cases f <;> exact ⟨_, rfl⟩)
        | value | register | int | intrinsic => exact ⟨repeats_throw _ _, makesStates_throw _⟩
    · exact ⟨repeats_throw _ _, makesStates_throw _⟩
  · exact ⟨repeats_throw _ _, makesStates_throw _⟩

end Resources

/-! ### Statements -/

/-- A relation between scopes that lowering respects, where the names that `σ` gives an integer are
written out in the second scope. The list holds the loop variables that were bound since. -/
structure Exchange (n : Nat) (σ : String → Option Int64)
    (R : List String → Env → Env → Prop) : Prop where
  reads : ∀ {inner e e'}, R inner e e' → Reads σ e e'
  regular : ∀ {inner e e'}, R inner e e' → e.All (Binding.Regular n)
  bind : ∀ {inner e e' name id f}, R inner e e' → e.bind name (.register id) = some f →
    ∃ f', e'.bind name (.register id) = some f' ∧ R inner f f'
  push : ∀ {inner e e' name} v, R inner e e' → e.lookup name = none →
    R (name :: inner) ((e.push name (.int v)).getD e) ((e'.push name (.int v)).getD e')
  pop : ∀ {inner e e' name f}, R (name :: inner) e e' → e.pop name = some f →
    ∃ f', e'.pop name = some f' ∧ R inner f f'

/-- The scopes and the workshops of two sessions correspond, and the tags below `n` are taken. -/
structure Session.Corresponds (n : Nat) (R : List String → Env → Env → Prop) (inner : List String)
    (s t : Session) : Prop where
  env : R inner s.env t.env
  shop : s.shop.UpToLog t.shop
  le : n ≤ s.shop.supply

/-- The step `y`, taken in the session `t`, gives what was given from the session `s` to `s'`. -/
structure Follows {α : Type} (n : Nat) (R : List String → Env → Env → Prop) (inner : List String)
    (y : Lower α) (t s : Session) (a : α) (s' : Session) : Prop where
  le : s.shop.supply ≤ s'.shop.supply
  again : ∃ t', Gives y t a t' ∧ s'.Corresponds n R inner t'

/-- The step `y` follows, and the exits of the block are new. -/
def Places (n : Nat) (R : List String → Env → Env → Prop) (inner : List String)
    (y : Lower Block) (t s : Session) (b : Block) (s' : Session) : Prop :=
  Follows n R inner y t s b s' ∧ b.Within s.shop.supply s'.shop.supply

section Follows

variable {α β : Type} {n : Nat} {R : List String → Env → Env → Prop} {inner : List String}
  {s s₁ s' t : Session}

variable {a : α}

theorem Follows.bind {y : Lower α} {g : α → Lower β} {b : β} (h : Follows n R inner y t s a s₁)
    (hg : ∀ t₁, s₁.Corresponds n R inner t₁ → Follows n R inner (g a) t₁ s₁ b s') :
    Follows n R inner (y >>= g) t s b s' := by
  obtain ⟨t₁, hy, hc⟩ := h.again
  obtain ⟨hle, t', hgive, hc'⟩ := hg t₁ hc
  exact ⟨Nat.le_trans h.le hle, t', gives_bind.mpr ⟨a, t₁, hy, hgive⟩, hc'⟩

theorem Follows.leads {y : Lower α} {g : α → Lower Block} {b : Block} {lo : Nat}
    (h : Follows n R inner y t s a s₁)
    (hg : ∀ t₁, s₁.Corresponds n R inner t₁ →
      Follows n R inner (g a) t₁ s₁ b s' ∧ b.Within lo s'.shop.supply) :
    Follows n R inner (y >>= g) t s b s' ∧ b.Within lo s'.shop.supply := by
  refine ⟨h.bind fun t₁ hc => (hg t₁ hc).1, ?_⟩
  obtain ⟨t₁, -, hc⟩ := h.again
  exact (hg t₁ hc).2

/-- A block that is put after `acc`, and what is put after both. -/
theorem Places.leads {y : Lower Block} {g : Block → Lower Block} {acc b₁ b : Block} {lo : Nat}
    (h : Places n R inner y t s b₁ s₁) (hacc : acc.Within lo s.shop.supply)
    (hlo : lo ≤ s.shop.supply)
    (hg : ∀ t₁, s₁.Corresponds n R inner t₁ → (acc.andThen b₁).Within lo s₁.shop.supply →
      lo ≤ s₁.shop.supply → Follows n R inner (g b₁) t₁ s₁ b s' ∧ b.Within lo s'.shop.supply) :
    Follows n R inner (y >>= g) t s b s' ∧ b.Within lo s'.shop.supply :=
  h.1.leads fun t₁ hc => hg t₁ hc (hacc.followed h.2 hlo h.1.le) (Nat.le_trans hlo h.1.le)

theorem follows_build (h : s.Corresponds n R inner t) {f g : Env → Build α}
    (hfg : Repeats (f s.env) (g t.env)) (ha : Gives (build f) s a s') :
    Follows n R inner (build g) t s a s' := by
  obtain ⟨w, hw, rfl⟩ := gives_build.mp ha
  obtain ⟨hle, w', hw', hlog⟩ := hfg s.shop t.shop h.shop a w hw
  exact ⟨hle, ⟨t.env, w'⟩, gives_build.mpr ⟨w', hw', rfl⟩, h.env, hlog, Nat.le_trans h.le hle⟩

theorem places_build (h : s.Corresponds n R inner t) {f g : Env → Build Block}
    (hfg : Repeats (f s.env) (g t.env)) (hf : MakesStates n (f s.env)) {b : Block}
    (hb : Gives (build f) s b s') : Places n R inner (build g) t s b s' := by
  refine ⟨follows_build h hfg hb, ?_⟩
  obtain ⟨w, hw, rfl⟩ := gives_build.mp hb
  exact hf s.shop b w h.le hw

end Follows

/-! ### Guards -/

theorem repeats_guarded {empty : Fault} {body : Block} {test : Value}
    {orElse : Option (List Circuit.Stmt)} {block : State → Block} :
    Repeats (guarded empty body test orElse block) (guarded empty body test orElse block) := by
  unfold guarded
  split
  · exact repeats_throw _ _
  · exact (repeats_newState _).bind fun _ => repeats_pure _

variable {pos : Position} {b : Block} {w w' : Workshop}

theorem within_guardCond {test : Value} {yes no : Block} {lo : Nat} (hlo : lo ≤ w.supply)
    (hyes : yes.Within lo w.supply) (hno : no.Within lo w.supply)
    (h : Gives (guardCond pos test yes no) w b w') : b.Within lo w'.supply := by
  obtain ⟨_, -, rfl, rfl⟩ := gives_guarded.mp h
  have hyes' := hyes.mono (Nat.le_refl _) (Nat.le_succ w.supply)
  have hno' := hno.mono (Nat.le_refl _) (Nat.le_succ w.supply)
  have hnew : Between lo w.tick.supply w.supply := ⟨hlo, Nat.lt_succ_self _⟩
  refine ⟨forall_mem_cons.mpr ⟨hnew.2, forall_mem_append.mpr ⟨hyes'.labels, hno'.labels⟩⟩,
    forall_mem_append.mpr ⟨forall_mem_append.mpr ⟨hyes'.exits, hno'.exits⟩, ?_⟩⟩
  split
  · exact nofun
  · exact forall_mem_singleton.mpr hnew

theorem within_guardLoop {test : Value} {body : Block} {lo : Nat} (hlo : lo ≤ w.supply)
    (hbody : body.Within lo w.supply) (h : Gives (guardLoop pos test body) w b w') :
    b.Within lo w'.supply := by
  obtain ⟨_, -, rfl, rfl⟩ := gives_guarded.mp h
  have hbody' := hbody.mono (Nat.le_refl _) (Nat.le_succ w.supply)
  have hnew : Between lo w.tick.supply w.supply := ⟨hlo, Nat.lt_succ_self _⟩
  exact ⟨forall_mem_cons.mpr ⟨hnew.2, forall_label_connect hbody'.labels _ _⟩,
    forall_mem_singleton.mpr hnew⟩

/-! ### Statements with their names written out -/

theorem Workshop.UpToLog.noted (h : w.UpToLog w') (m m' : String) :
    (w.noted m).UpToLog (w'.noted m') := ⟨h.supply, h.bank, h.declared⟩

namespace Exchange

variable {n : Nat} {σ : String → Option Int64} {R : List String → Env → Env → Prop}
  {inner : List String} {s s' t : Session}

section

variable (hx : Exchange n σ R)

include hx

theorem bindNames {names : List (Position × String)} {id : RegisterId}
    {e e' f : Env} (h : R inner e e') (hf : e.bindNames id names = some f) :
    ∃ f', e'.bindNames id names = some f' ∧ R inner f f' := by
  induction names generalizing e e' with
  | nil =>
    cases hf
    exact ⟨e', rfl, h⟩
  | cons n names ih =>
    simp only [Env.bindNames, foldlM_cons, Option.bind_eq_bind, Option.bind_eq_some_iff] at hf ⊢
    obtain ⟨e₁, he₁, hf⟩ := hf
    obtain ⟨e₁', he₁', h₁⟩ := hx.bind h he₁
    obtain ⟨f', hf', hR⟩ := ih h₁ hf
    exact ⟨f', ⟨e₁', he₁', hf'⟩, hR⟩

theorem declare (h : s.Corresponds n R inner t) {targets : List Expr}
    {width : Int} (hb : Gives (declare targets width) s b s') :
    Places n R inner (declare targets width) t s b s' := by
  obtain ⟨f, hf, rfl, rfl⟩ := gives_declare.mp hb
  obtain ⟨f', hf', hR⟩ := hx.bindNames h.env hf
  refine ⟨⟨Nat.le_succ _, _, gives_declare.mpr ⟨f', ?_, rfl, rfl⟩, hR, ?_,
    Nat.le_succ_of_le h.le⟩, Within.empty⟩
  · rw [h.shop.bank, hf']
  · rw [h.shop.supply]
    exact ⟨by simp [declareRegister, h.shop.supply],
      by simp [declareRegister, h.shop.bank],
      by simp [declareRegister, h.shop.bank, h.shop.declared]⟩

theorem lowerAssign (h : s.Corresponds n R inner t) {targets : List Expr} {value : Expr}
    (hb : Gives (lowerAssign targets value) s b s') :
    Places n R inner (lowerAssign targets (value.subst σ)) t s b s' := by
  obtain ⟨o, s₁, ho, hb⟩ := gives_bind.mp hb
  have hoperand := follows_build h (g := fun env => lowerOperand env (value.subst σ) _)
    (repeats_lowerOperand (hx.reads h.env) value _) ho
  refine hoperand.leads fun t₁ h₁ => ?_
  suffices hplaces : Places .. from ⟨hplaces.1, hplaces.2.mono hoperand.le (Nat.le_refl _)⟩
  cases o with
  | register width => exact hx.declare h₁ hb
  | value v =>
    have hstores := repeats_stores (hx.reads h₁.env) v targets
    refine places_build h₁ (hstores.bind fun _ => (repeats_newState _).bind fun _ =>
      repeats_pure _) (hstores.makesStates_bind fun loads w b w' _ hstate => ?_) hb
    obtain ⟨st, w₁, hst, hstate⟩ := gives_bind.mp hstate
    obtain ⟨rfl, rfl⟩ := gives_newState.mp hst
    obtain ⟨rfl, rfl⟩ := gives_pure.mp hstate
    exact Within.single ⟨Nat.le_refl _, Nat.lt_succ_self _⟩

variable {name : String} {body body' : Lower Block}
  (hbody : ∀ {s s' t : Session} {b : Block}, s.Corresponds n R (name :: inner) t →
    Gives body s b s' → Places n R (name :: inner) body' t s b s')

include hbody

theorem withLoopVar {v : Int64} (h : s.Corresponds n R inner t)
    (hfree : s.env.lookup name = none) (hb : Gives (withLoopVar name v body) s b s') :
    Places n R inner (withLoopVar name v body') t s b s' ∧ s'.env.lookup name = none := by
  obtain ⟨s₁, env, hs₁, hpop, rfl⟩ := gives_withLoopVar.mp hb
  have hpush : Session.Corresponds n R (name :: inner)
      ⟨(s.env.push name (.int v)).getD s.env, s.shop⟩
      ⟨(t.env.push name (.int v)).getD t.env, t.shop⟩ := ⟨hx.push v h.env hfree, h.shop, h.le⟩
  obtain ⟨⟨hle, t₁, ht₁, h₁⟩, hwithin⟩ := hbody hpush hs₁
  obtain ⟨env', hpop', hR⟩ := hx.pop h₁.env hpop
  exact ⟨⟨⟨hle, ⟨env', t₁.shop⟩, gives_withLoopVar.mpr ⟨t₁, env', ht₁, hpop', rfl⟩, hR,
    h₁.shop, h₁.le⟩, hwithin⟩, lookup_of_pop hpop⟩

theorem unroll (values : List Int64) {acc : Block} {lo : Nat}
    (h : s.Corresponds n R inner t) (hfree : s.env.lookup name = none)
    (hacc : acc.Within lo s.shop.supply) (hlo : lo ≤ s.shop.supply)
    (hb : Gives (unroll name body acc values) s b s') :
    Follows n R inner (unroll name body' acc values) t s b s' ∧
      b.Within lo s'.shop.supply := by
  induction values generalizing s t acc with
  | nil =>
    obtain ⟨rfl, rfl⟩ := gives_pure.mp hb
    exact ⟨⟨Nat.le_refl _, t, gives_pure.mpr ⟨rfl, rfl⟩, h⟩, hacc⟩
  | cons v vs ih =>
    obtain ⟨b₁, s₁, hb₁, hb⟩ := gives_bind.mp hb
    obtain ⟨hcopy, hfree₁⟩ := hx.withLoopVar hbody h hfree hb₁
    exact hcopy.leads hacc hlo fun t₁ h₁ hacc₁ hlo₁ => ih h₁ hfree₁ hacc₁ hlo₁ hb

end

mutual

/-- **A statement is lowered in the same way with its names written out**, and its exits are
new. -/
theorem lowerStmt (hx : Exchange n σ R) (st : Program.Stmt) {inner : List String} {s s' t : Session}
    {b : Block} (h : s.Corresponds n R inner t) (hb : Gives (lowerStmt st) s b s') :
    Places n R inner (Lowering.lowerStmt (st.subst σ)) t s b s' := by
  match st with
  | .assign target others opPos value =>
    rw [Lowering.lowerStmt] at hb
    rw [Stmt.subst, Lowering.lowerStmt]
    exact hx.lowerAssign h hb
  | .cond pos test body orElse =>
    rw [Lowering.lowerStmt] at hb
    rw [Stmt.subst, Lowering.lowerStmt]
    obtain ⟨v, s₁, hv, hb⟩ := gives_bind.mp hb
    obtain ⟨yes, s₂, hyes, hb⟩ := gives_bind.mp hb
    obtain ⟨no, s₃, hno, hb⟩ := gives_bind.mp hb
    have htest := follows_build h (g := fun env => lowerExpr env (test.subst σ))
      (repeats_lowerExpr (hx.reads h.env) test) hv
    refine htest.leads fun t₁ h₁ => ?_
    obtain ⟨hyes, hyesIn⟩ := lowerStmts hx body h₁ .empty htest.le hyes
    have hle₂ := Nat.le_trans htest.le hyes.le
    refine hyes.leads fun t₂ h₂ => ?_
    obtain ⟨hno, hnoIn⟩ := lowerStmts hx orElse h₂ .empty hle₂ hno
    refine hno.leads fun t₃ h₃ => ⟨follows_build h₃ repeats_guarded hb, ?_⟩
    obtain ⟨w, hw, rfl⟩ := gives_build.mp hb
    exact within_guardCond (Nat.le_trans hle₂ hno.le) (hyesIn.mono (Nat.le_refl _) hno.le) hnoIn hw
  | .loop pos test body =>
    rw [Lowering.lowerStmt] at hb
    rw [Stmt.subst, Lowering.lowerStmt]
    obtain ⟨v, s₁, hv, hb⟩ := gives_bind.mp hb
    obtain ⟨blk, s₂, hbody, hb⟩ := gives_bind.mp hb
    have htest := follows_build h (g := fun env => lowerExpr env (test.subst σ))
      (repeats_lowerExpr (hx.reads h.env) test) hv
    refine htest.leads fun t₁ h₁ => ?_
    obtain ⟨hbody, hbodyIn⟩ := lowerStmts hx body h₁ .empty htest.le hbody
    refine hbody.leads fun t₂ h₂ => ⟨follows_build h₂ repeats_guarded hb, ?_⟩
    obtain ⟨w, hw, rfl⟩ := gives_build.mp hb
    exact within_guardLoop (Nat.le_trans htest.le hbody.le) hbodyIn hw
  | .each pos target iter body =>
    have hreads := hx.reads h.env
    obtain ⟨name, values, s₁, htarget, hiter, hunroll, rfl⟩ := gives_each.mp hb
    have hfree := lookup_of_loopTarget htarget
    obtain ⟨hcopies, hwithin⟩ := hx.unroll (fun hc hgive => lowerStmts hx body hc .empty
      (Nat.le_refl _) hgive) values h hfree .empty (Nat.le_refl _) hunroll
    obtain ⟨t₁, ht₁, h₁⟩ := hcopies.again
    rw [Stmt.subst]
    exact ⟨⟨hcopies.le, _, gives_each.mpr ⟨name, values, t₁, hreads.loopTarget htarget,
      hreads.knows.iterValues hiter, ht₁, rfl⟩, h₁.env, h₁.shop.noted _ _, h₁.le⟩, hwithin⟩
  | .expr e =>
    cases e with
    | yield pos value =>
      rw [Lowering.lowerStmt] at hb
      rw [Stmt.subst, Expr.subst, Lowering.lowerStmt]
      obtain ⟨hsame, hmakes⟩ := repeats_lowerYield (hx.reads h.env) (hx.regular h.env) pos value
      exact places_build h hsame hmakes hb
    | _ => simp [Lowering.lowerStmt] at hb
  | .funcDef .. | .ret .. | .pass .. | .brk .. | .cont .. => simp [Lowering.lowerStmt] at hb

/-- Statements after those of `acc`, whose exits are not below `lo`. -/
theorem lowerStmts (hx : Exchange n σ R) (ss : List Program.Stmt) {inner : List String}
    {s s' t : Session} {acc b : Block} {lo : Nat} (h : s.Corresponds n R inner t)
    (hacc : acc.Within lo s.shop.supply) (hlo : lo ≤ s.shop.supply)
    (hb : Gives (lowerStmts acc ss) s b s') :
    Follows n R inner (Lowering.lowerStmts acc (substStmts σ ss)) t s b s' ∧
      b.Within lo s'.shop.supply := by
  match ss with
  | [] =>
    obtain ⟨rfl, rfl⟩ := gives_pure.mp hb
    exact ⟨⟨Nat.le_refl _, t, gives_pure.mpr ⟨rfl, rfl⟩, h⟩, hacc⟩
  | st :: ss =>
    rw [Lowering.lowerStmts] at hb
    rw [substStmts, Lowering.lowerStmts]
    obtain ⟨b₁, s₁, hb₁, hb⟩ := gives_bind.mp hb
    exact (lowerStmt hx st h hb₁).leads hacc hlo fun t₁ h₁ hacc₁ hlo₁ =>
      lowerStmts hx ss h₁ hacc₁ hlo₁ hb

end

end Exchange

end Sequencer.Lowering
