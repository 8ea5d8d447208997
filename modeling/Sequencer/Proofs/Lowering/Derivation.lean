import Sequencer.Proofs.Lowering.Plan
import Sequencer.Proofs.Lowering.Repetition

/-!
# Lowering as a relation

`Lowers s j p s'` says that the piece of program `j`, lowered in the session `s`, has the plan `p`
and leaves the session `s'`. Each rule is one form of statement. Only this module looks at how a
derivation was found.
-/

namespace Sequencer.Lowering

open List
open Circuit Program Build Plan Lower Resource
open Binding (Deviceless)

namespace Lower

theorem gives_bindRegister {pos : Position} {name : String} {id : RegisterId} {s s' : Session}
    {u : Unit} : Gives (bindRegister pos name id) s u s' ↔
      ∃ env, s.env.bind name (.register id) = some env ∧ s' = ⟨env, s.shop⟩ := by
  unfold Gives bindRegister
  cases s.env.bind name (.register id) with
  | none => simp
  | some env => simp [eq_comm]

/-- The loop variable is bound around the step, and unbound again behind it. -/
theorem gives_withLoopVar {α : Type} {name : String} {v : Int64} {x : Lower α} {s s' : Session}
    {a : α} : Gives (withLoopVar name v x) s a s' ↔
      ∃ s₁ env, Gives x ⟨(s.env.push name (.int v)).getD s.env, s.shop⟩ a s₁ ∧
        s₁.env.pop name = some env ∧ s' = ⟨env, s₁.shop⟩ := by
  obtain ⟨⟨r, s₁⟩, hx⟩ : ∃ p : Except Fault α × Session,
    x ⟨(s.env.push name (.int v)).getD s.env, s.shop⟩ = p := ⟨_, rfl⟩
  unfold Gives withLoopVar
  rw [hx]
  cases hp : s₁.env.pop name with
  | none =>
    simp only [hp, Prod.mk.injEq, reduceCtorEq, false_and, false_iff]
    rintro ⟨s₂, env, ⟨rfl, rfl⟩, hp', _⟩
    simp [hp] at hp'
  | some env =>
    simp only [Prod.mk.injEq, hp]
    constructor
    · rintro ⟨rfl, rfl⟩
      exact ⟨s₁, env, ⟨rfl, rfl⟩, hp, rfl⟩
    · rintro ⟨s₂, env', ⟨rfl, rfl⟩, hp', rfl⟩
      rw [hp] at hp'
      cases hp'
      exact ⟨rfl, rfl⟩

end Lower

/-! ### Declarations -/

def Env.bindNames (id : RegisterId) (e : Env) (names : List (Position × String)) : Option Env :=
  names.foldlM (fun e n => e.bind n.2 (.register id)) e

variable {names : List (Position × String)} {id : RegisterId} {s s' : Session} {w w' : Workshop}
  {b : Block} {v : Value} {env : Env} {m n : Nat} {p : Plan} {j : Job} {pos : Position}

theorem gives_bindNames {u : PUnit} :
    Gives (names.forM fun n => bindRegister n.1 n.2 id) s u s' ↔
      ∃ env, s.env.bindNames id names = some env ∧ s' = ⟨env, s.shop⟩ := by
  induction names generalizing s with
  | nil => simp [Env.bindNames, eq_comm]
  | cons n names ih =>
    show Gives (bindRegister n.1 n.2 id >>= fun _ => names.forM _) s u s' ↔ _
    simp only [gives_bind, gives_bindRegister, ih, Env.bindNames, foldlM_cons,
      Option.bind_eq_bind, Option.bind_eq_some_iff]
    constructor
    · rintro ⟨_, _, ⟨e, he, rfl⟩, e', he', rfl⟩
      exact ⟨e', ⟨e, he, he'⟩, rfl⟩
    · rintro ⟨e', ⟨e, he, he'⟩, rfl⟩
      exact ⟨(), _, ⟨e, he, rfl⟩, e', he', rfl⟩

theorem Env.bindNames_induct {P : Env → Prop} {e e' : Env} (hb : e.bindNames id names = some e')
    (h : P e)
    (hbind : ∀ {e e'} {name : String}, P e → e.bind name (.register id) = some e' → P e') :
    P e' := by
  induction names generalizing e with
  | nil =>
    cases hb
    exact h
  | cons n names ih =>
    simp only [bindNames, foldlM_cons, Option.bind_eq_bind, Option.bind_eq_some_iff] at hb
    obtain ⟨e₁, he₁, hb⟩ := hb
    exact ih hb (hbind h he₁)

theorem Env.All.bindNames {P : Binding → Prop} {e e' : Env} (h : e.All P) (hid : P (.register id))
    (hb : e.bindNames id names = some e') : e'.All P :=
  bindNames_induct hb h fun h => h.bind hid

def declaredRegister (targets : List Expr) (width : Int) (tag : Nat) : Register :=
  let name := ((targets.filterMap targetName?).head?.map Prod.snd).getD ""
  ⟨name, ⟨tag, name, clampWidth width, 0⟩, none, [], none⟩

def Workshop.declareRegister (w : Workshop) (r : Register) : Workshop :=
  { supply := w.supply + 1
    bank := { w.bank with registers := w.bank.registers ++ [r] }
    declared := w.declared ++ [w.bank.registers.length]
    log := s!"register {Text.quote r.name} width {r.storage.bits}" :: w.log }

theorem Twin.declareRegister {t : Workshop} (h : Twin w t) (targets : List Expr) (width : Int) :
    Twin (w.declareRegister (declaredRegister targets width w.supply))
      (t.declareRegister (declaredRegister targets width t.supply)) := by
  have h' : (w.bank.registers.map Register.storage).map Signal.bits =
    (t.bank.registers.map Register.storage).map Signal.bits := h
  simp only [Twin, Workshop.storages, Workshop.declareRegister, map_append, h']
  rfl

theorem Build.gives_newRegister {name : String} {width : Int} {pool : Option Pool} :
    Gives (newRegister name width pool) w id w' ↔ id = w.bank.registers.length ∧
      w' = { w with
        supply := w.supply + 1
        bank := { w.bank with registers := w.bank.registers ++
          [⟨name, ⟨w.supply, name, clampWidth width, 0⟩, pool, [], none⟩] } } := by
  unfold newRegister
  simp only [gives_bind, gives_ofFresh, gives_onBank]
  constructor
  · rintro ⟨r, w₁, ⟨rfl, rfl⟩, bank, hadd, rfl⟩
    cases hadd
    exact ⟨rfl, rfl⟩
  · rintro ⟨rfl, rfl⟩
    exact ⟨_, _, ⟨rfl, rfl⟩, _, rfl, rfl⟩

theorem gives_declare {targets : List Expr} {width : Int} :
    Gives (declare targets width) s b s' ↔ ∃ env,
      s.env.bindNames s.shop.bank.registers.length (targets.filterMap targetName?) = some env ∧
        b = .empty ∧
        s' = ⟨env, s.shop.declareRegister (declaredRegister targets width s.shop.supply)⟩ := by
  unfold declare
  simp only [gives_bind, gives_build, gives_pure, gives_newRegister,
    gives_register, gives_note, gives_modify, gives_bindNames]
  constructor
  · rintro ⟨id, s₁, ⟨w, ⟨_, _, ⟨rfl, rfl⟩, _, _, rfl, rfl, rfl⟩, rfl⟩,
      _, s₂, ⟨env, henv, rfl⟩, _, s₃, ⟨_, ⟨r, _, ⟨hr, rfl⟩, rfl⟩, rfl⟩, rfl, rfl⟩
    refine ⟨env, henv, rfl, ?_⟩
    simp only [getElem?_append_right (Nat.le_refl _), Nat.sub_self, getElem?_cons_zero,
      Option.some.injEq] at hr
    subst hr
    rfl
  · rintro ⟨env, henv, rfl, rfl⟩
    refine ⟨s.shop.bank.registers.length, _, ⟨_, ⟨_, _, ⟨rfl, rfl⟩, ⟨⟩, _, rfl, rfl, rfl⟩, rfl⟩,
      ⟨⟩, _, ⟨env, henv, rfl⟩, ⟨⟩, _,
      ⟨_, ⟨declaredRegister targets width s.shop.supply, _, ⟨?_, rfl⟩, rfl⟩, rfl⟩, rfl, rfl⟩
    simp only [getElem?_append_right (Nat.le_refl _), Nat.sub_self, getElem?_cons_zero]
    rfl

/-- The loads of one value into some targets. -/
inductive Stores (env : Env) (v : Value) :
    Workshop → List Expr → List (RegisterId × SourceId) → Workshop → Prop
  | nil (w : Workshop) : Stores env v w [] [] w
  | cons {w w₁ w₂ w₃ : Workshop} {t : Expr} {ts : List Expr} {id : RegisterId} {r : Register}
      {u : Value} {source : SourceId} {loads : List (RegisterId × SourceId)}
      (target : storeTarget env t = .ok id)
      (register : w.bank.registers[id]? = some r)
      (widened : Gives (ofFresh (v.extend r.storage.bits)) w u w₁)
      (load : Gives (load id u) w₁ (loadMarker id source) w₂)
      (others : Stores env v w₂ ts loads w₃) : Stores env v w (t :: ts) ((id, source) :: loads) w₃

/-- A piece of program to be lowered. -/
inductive Job where
  | stmt (s : Program.Stmt)
  | block (ss : List Program.Stmt)
  | copies (name : String) (body : List Program.Stmt) (values : List Int64)

/-- The variable of a loop that is to be unrolled is not bound. -/
def Job.Free (env : Env) : Job → Prop
  | .copies name _ _ => env.lookup name = none
  | _ => True

/-- **Derivations of lowering.** Lowered in the first session, the piece of program has the given
plan and leaves the second session. The label of a guard is the last tag, since its branches are
lowered before it. -/
inductive Lowers : Session → Job → Plan → Session → Prop
  | nil (s : Session) : Lowers s (.block []) .finish s
  | cons {s s₁ s₂ : Session} {a : Program.Stmt} {ss : List Program.Stmt} {p q : Plan}
      (first : Lowers s (.stmt a) p s₁) (others : Lowers s₁ (.block ss) q s₂) :
      Lowers s (.block (a :: ss)) (p.append q) s₂
  | declare {s s' : Session} {target : Expr} {others : List Expr} {pos : Position} {value : Expr}
      {w : Workshop} {width : Int}
      (operand : Gives (lowerOperand s.env value
        ((target :: others).all fun t => (targetName? t).isSome)) s.shop (.register width) w)
      (declared : Gives (declare (target :: others) width) ⟨s.env, w⟩ .empty s') :
      Lowers s (.stmt (.assign target others pos value)) .finish s'
  | store {s : Session} {target : Expr} {others : List Expr} {pos : Position} {value : Expr}
      {w w' : Workshop} {v : Value} {loads : List (RegisterId × SourceId)}
      (operand : Gives (lowerOperand s.env value
        ((target :: others).all fun t => (targetName? t).isSome)) s.shop (.value v) w)
      (stores : Stores s.env v w (target :: others) loads w') :
      Lowers s (.stmt (.assign target others pos value)) (.act w'.supply (.store loads) .finish)
        ⟨s.env, w'.tick⟩
  | send {s : Session} {pos fpos lparen rparen : Position} {ident : String} {arg : Expr}
      {c : Channel} {v data : Value} {w w' : Workshop}
      (resource : s.env.lookup ident = some (.resource (.sink c)))
      (value : Gives (lowerExpr s.env arg) s.shop v w)
      (widened : Gives (ofFresh (v.extend c.data.bits)) w.tick data w') :
      Lowers s (.stmt (.expr (.yield pos (some (.call (.name fpos ident) lparen [arg] rparen)))))
        (.act w.supply (.send c data w'.supply) .finish)
        ⟨s.env, w'.tick⟩
  | receive {s : Session} {pos fpos lparen rparen : Position} {ident : String} {arg : Expr}
      {c : Channel} {id : RegisterId} {source : SourceId} {w : Workshop}
      (resource : s.env.lookup ident = some (.resource (.source c)))
      (register : registerArg s.env arg = .ok id)
      (load : Gives (load id (.signal c.data)) s.shop.tick (loadMarker id source) w) :
      Lowers s (.stmt (.expr (.yield pos (some (.call (.name fpos ident) lparen [arg] rparen)))))
        (.act s.shop.supply (.receive c id source) .finish) ⟨s.env, w⟩
  | cond {s s₁ s₂ : Session} {pos : Position} {test : Expr} {body orElse : List Program.Stmt}
      {t : Value} {w : Workshop} {yes no : Plan}
      (value : Gives (lowerExpr s.env test) s.shop t w)
      (taken : Lowers ⟨s.env, w⟩ (.block body) yes s₁) (nonempty : yes ≠ .finish)
      (other : Lowers s₁ (.block orElse) no s₂) :
      Lowers s (.stmt (.cond pos test body orElse)) (.cond s₂.shop.supply t yes no .finish)
        ⟨s₂.env, s₂.shop.tick⟩
  | loop {s s₁ : Session} {pos : Position} {test : Expr} {body : List Program.Stmt}
      {t : Value} {w : Workshop} {p : Plan}
      (value : Gives (lowerExpr s.env test) s.shop t w)
      (repeated : Lowers ⟨s.env, w⟩ (.block body) p s₁) (nonempty : p ≠ .finish) :
      Lowers s (.stmt (.loop pos test body)) (.loop s₁.shop.supply t p .finish)
        ⟨s₁.env, s₁.shop.tick⟩
  | each {s s' : Session} {pos : Position} {target iter : Expr} {body : List Program.Stmt}
      {name : String} {values : List Int64} {p : Plan} {log : List String}
      (fresh : loopTarget s.env target = .ok name) (range : iterValues s.env iter = .ok values)
      (copies : Lowers s (.copies name body values) p s') :
      Lowers s (.stmt (.each pos target iter body)) p ⟨s'.env, { s'.shop with log }⟩
  | noCopy (s : Session) (name : String) (body : List Program.Stmt) :
      Lowers s (.copies name body []) .finish s
  | copy {s s₁ s₂ : Session} {name : String} {body : List Program.Stmt} {v : Int64}
      {vs : List Int64} {env : Env} {p q : Plan}
      (first : Lowers ⟨(s.env.push name (.int v)).getD s.env, s.shop⟩ (.block body) p s₁)
      (popped : s₁.env.pop name = some env)
      (others : Lowers ⟨env, s₁.shop⟩ (.copies name body vs) q s₂) :
      Lowers s (.copies name body (v :: vs)) (p.append q) s₂

/-! ### Tags -/

theorem Build.gives_load {st : Circuit.Stmt} :
    Gives (load id v) w st w' ↔ ∃ source bank,
      w.bank.load id v = .ok (.load id source, bank) ∧ st = loadMarker id source ∧
        w' = { w with bank } := by
  unfold load
  simp only [gives_bind, gives_onBank, gives_pure]
  constructor
  · rintro ⟨m, _, ⟨bank, hm, rfl⟩, rfl, rfl⟩
    obtain ⟨source, rfl⟩ : ∃ source, m = .load id source := by
      unfold Bank.load at hm
      cases hr : w.bank.get id with
      | error e => simp [hr, bind, Except.bind] at hm
      | ok r =>
        by_cases hsel : r.selector.isSome = true
        · simp [hr, hsel, bind, Except.bind, throw, throwThe, MonadExceptOf.throw] at hm
        · simp [hr, hsel, bind, Except.bind, pure, Except.pure] at hm
          exact ⟨_, hm.1.symm⟩
    exact ⟨source, bank, hm, rfl, rfl⟩
  · rintro ⟨source, bank, hm, rfl, rfl⟩
    exact ⟨_, _, ⟨bank, hm, rfl⟩, rfl, rfl⟩

theorem Stores.supply_le {ts : List Expr} {loads : List (RegisterId × SourceId)}
    (h : Stores env v w ts loads w') : w.supply ≤ w'.supply := by
  induction h with
  | nil => exact Nat.le_refl _
  | cons target register widened load others ih =>
    obtain ⟨n, hn, rfl⟩ := (extend_spec widened).1
    obtain ⟨source, bank, -, -, rfl⟩ := gives_load.mp load
    exact Nat.le_trans hn ih

/-- The labels of a plan are different tags from `m` up to but not including `n`. -/
structure Advances (m : Nat) (p : Plan) (n : Nat) : Prop where
  le : m ≤ n
  nodup : p.labels.Nodup
  range : ∀ l : Nat, l ∈ p.labels → m ≤ l ∧ l < n

theorem Advances.refl (m : Nat) : Advances m .finish m :=
  ⟨Nat.le_refl _, .nil, by simp [labels]⟩

theorem Advances.append {k : Nat} {q : Plan} (hp : Advances k p m) (hq : Advances m q n) :
    Advances k (p.append q) n := by
  have h₁ := hp.le
  have h₂ := hq.le
  refine ⟨Nat.le_trans h₁ h₂, ?_, fun l hl => ?_⟩
  · rw [labels_append, nodup_append']
    exact ⟨hp.nodup, hq.nodup,
      fun l hl hl' => Nat.lt_irrefl _ (Nat.lt_of_lt_of_le (hp.range l hl).2 (hq.range l hl').1)⟩
  · rw [labels_append, mem_append] at hl
    obtain hl | hl := hl
    · have := hp.range l hl
      omega
    · have := hq.range l hl
      omega

/-- A state in front of what has been lowered gets its label last. -/
theorem Advances.guard {q : Plan} (h : Advances m p n) (hq : q.labels = n :: p.labels) :
    Advances m q (n + 1) := by
  have hle := h.le
  refine ⟨Nat.le_succ_of_le hle, ?_, fun l hl => ?_⟩
  · rw [hq, nodup_cons]
    exact ⟨fun hm => Nat.lt_irrefl _ (h.range _ hm).2, h.nodup⟩
  · rw [hq, mem_cons] at hl
    obtain rfl | hl := hl
    · omega
    · have := h.range l hl
      omega

theorem Advances.mono {k o : Nat} (h : Advances m p n) (hk : k ≤ m) (ho : n ≤ o) :
    Advances k p o := by
  have hle := h.le
  refine ⟨by omega, h.nodup, fun l hl => ?_⟩
  have := h.range l hl
  omega

theorem OnlyTags.supply_le (h : OnlyTags w w') : w.supply ≤ w'.supply := by
  obtain ⟨n, hn, rfl⟩ := h
  exact hn

/-- **Lowering hands out tags in order**, some of them as the labels of the states. -/
theorem Lowers.tags (h : Lowers s j p s') : Advances s.shop.supply p s'.shop.supply := by
  induction h with
  | nil s => exact .refl _
  | cons first others ih₁ ih₂ => exact ih₁.append ih₂
  | declare operand declared =>
    obtain ⟨rfl, -⟩ := lowerOperand_register operand
    obtain ⟨env, henv, -, rfl⟩ := gives_declare.mp declared
    exact (Advances.refl _).mono (Nat.le_refl _) (Nat.le_succ _)
  | store operand stores =>
    have h₁ := (repeats_lowerOperand (.refl _) _ _ _ _ (.refl _) _ _ operand).1
    have h₂ := stores.supply_le
    exact ((Advances.refl _).guard rfl).mono (Nat.le_trans h₁ h₂) (Nat.le_refl _)
  | send resource value widened =>
    have h₁ := supply_le_lowerExpr value
    have h₂ := (extend_spec widened).1.supply_le
    exact ((Advances.refl _).guard rfl).mono h₁ (Nat.le_succ_of_le h₂)
  | receive resource register load =>
    obtain ⟨source, bank, -, -, rfl⟩ := gives_load.mp load
    exact (Advances.refl _).guard rfl
  | cond value taken nonempty other ihy ihn =>
    refine ((ihy.append ihn).guard ?_).mono (supply_le_lowerExpr value) (Nat.le_refl _)
    simp [labels, labels_append]
  | loop value repeated nonempty ih =>
    refine (ih.guard ?_).mono (supply_le_lowerExpr value) (Nat.le_refl _)
    simp [labels]
  | each fresh range copies ih => exact ih
  | noCopy s => exact .refl _
  | copy first popped others ih₁ ih₂ => exact ih₁.append ih₂

theorem Lowers.all {P : Binding → Prop} (h : Lowers s j p s') (hregister : ∀ id, P (.register id))
    (hint : ∀ v, P (.int v)) (hs : s.env.All P) : s'.env.All P := by
  induction h with
  | nil | noCopy | store | send | receive => exact hs
  | cons first others ih₁ ih₂ => exact ih₂ (ih₁ hs)
  | declare operand declared =>
    obtain ⟨env, henv, -, rfl⟩ := gives_declare.mp declared
    exact hs.bindNames (hregister _) henv
  | cond value taken nonempty other ihy ihn => exact ihn (ihy hs)
  | loop value repeated nonempty ih => exact ih hs
  | each fresh range copies ih => exact ih hs
  | copy first popped others ih₁ ih₂ => exact ih₂ ((ih₁ (hs.push (hint _))).pop popped)

theorem Lowers.deviceless (h : Lowers s j p s') (hs : s.env.All Deviceless) :
    s'.env.All Deviceless :=
  h.all (fun _ => trivial) (fun _ => trivial) hs

theorem Lowers.advances {rs : List Resource} (h : Lowers s j p s') (hs : s.env.Plain rs) :
    Advances s.shop.supply p s'.shop.supply ∧ s'.env.Plain rs :=
  ⟨h.tags, Lowers.all h (fun _ => trivial) (fun _ => trivial) hs⟩

/-! ### From compilation steps to derivations -/

theorem gives_store {t : Expr} {st : Circuit.Stmt} (h : Gives (store env v t) w st w') :
    ∃ id source, st = loadMarker id source ∧ Stores env v w [t] [(id, source)] w' := by
  obtain ⟨id, hid, h⟩ := gives_ofExcept_bind.mp h
  simp only [gives_bind, gives_register] at h
  obtain ⟨r, _, ⟨hr, rfl⟩, u, w₁, hu, hload⟩ := h
  obtain ⟨source, bank, -, rfl, -⟩ := gives_load.mp hload
  exact ⟨id, source, rfl, .cons hid hr hu hload (.nil _)⟩

theorem Stores.append {w₁ : Workshop} {ts us : List Expr}
    {loads others : List (RegisterId × SourceId)} (h : Stores env v w ts loads w₁)
    (h' : Stores env v w₁ us others w') : Stores env v w (ts ++ us) (loads ++ others) w' := by
  induction h with
  | nil => exact h'
  | cons target register widened load _ ih => exact .cons target register widened load (ih h')

theorem stores_of_gives {targets : List Expr} {stmts : List Circuit.Stmt}
    (h : Gives (targets.mapM (store env v)) w stmts w') :
    ∃ loads, stmts = loads.map (fun l => loadMarker l.1 l.2) ∧ Stores env v w targets loads w' := by
  induction targets generalizing w stmts with
  | nil =>
    rw [mapM_nil, gives_pure] at h
    obtain ⟨rfl, rfl⟩ := h
    exact ⟨[], rfl, .nil w⟩
  | cons t ts ih =>
    rw [mapM_cons] at h
    simp only [gives_bind, gives_pure] at h
    obtain ⟨st, w₂, hstore, rest, w₃, hrest, rfl, rfl⟩ := h
    obtain ⟨id, source, rfl, hfirst⟩ := gives_store hstore
    obtain ⟨loads, rfl, hloads⟩ := ih hrest
    exact ⟨(id, source) :: loads, rfl, hfirst.append hloads⟩

theorem lowers_of_lowerAssign {target : Expr} {others : List Expr} {value : Expr}
    (h : Gives (lowerAssign (target :: others) value) s b s') :
    ∃ p : Plan, b = p.block ∧ Lowers s (.stmt (.assign target others pos value)) p s' := by
  obtain ⟨operand, _, hbuild, hrest⟩ := gives_bind.mp h
  obtain ⟨w, hop, rfl⟩ := gives_build.mp hbuild
  cases operand with
  | register width =>
    obtain ⟨env, -, rfl, -⟩ := gives_declare.mp hrest
    exact ⟨.finish, rfl, .declare hop hrest⟩
  | value v =>
    obtain ⟨w', hstate, rfl⟩ := gives_build.mp hrest
    simp only [gives_bind, gives_newState, gives_pure] at hstate
    obtain ⟨stmts, w₁, hstores, _, _, ⟨rfl, rfl⟩, rfl, rfl⟩ := hstate
    obtain ⟨loads, rfl, hloads⟩ := stores_of_gives hstores
    exact ⟨.act w₁.supply (.store loads) .finish, rfl, .store hop hloads⟩

theorem lowers_of_lowerYield (henv : env.All Deviceless) {value : Option Expr}
    (h : Gives (lowerYield env pos value) w b w') :
    ∃ p : Plan, b = p.block ∧ Lowers ⟨env, w⟩ (.stmt (.expr (.yield pos value))) p ⟨env, w'⟩ := by
  unfold lowerYield at h
  split at h
  · rename_i func lp args rp
    split at h
    · split at h
      · simp at h
      · rename_i r hr
        -- A fault of the resource is only given its place in the text.
        have hseq := h.of_tryCatch fun e => by cases e <;> exact ⟨_, rfl⟩
        cases r with
        | device d => exact (henv.lookup hr).elim
        | sink c =>
          rcases args with _ | ⟨arg, _ | ⟨_, _⟩⟩
          · simp [Resource.sequence] at hseq
          · obtain ⟨v, w₁, hv, hsend⟩ := gives_bind.mp hseq
            unfold send at hsend
            simp only [gives_bind, gives_fresh, gives_newBinary, gives_pure] at hsend
            obtain ⟨_, _, ⟨rfl, rfl⟩, data, w₂, hdata, _, _, ⟨rfl, rfl⟩, rfl, rfl⟩ := hsend
            exact ⟨.act w₁.supply (.send c data w₂.supply) .finish, rfl, .send hr hv hdata⟩
          · simp [Resource.sequence] at hseq
        | source c =>
          rcases args with _ | ⟨arg, _ | ⟨_, _⟩⟩
          · simp [Resource.sequence] at hseq
          · obtain ⟨id, hid, hrecv⟩ := gives_ofExcept_bind.mp hseq
            unfold receive at hrecv
            simp only [gives_bind, gives_fresh, gives_pure] at hrecv
            obtain ⟨_, _, ⟨rfl, rfl⟩, st, w₂, hload, rfl, rfl⟩ := hrecv
            obtain ⟨source, bank, -, rfl, -⟩ := gives_load.mp hload
            exact ⟨.act w.supply (.receive c id source) .finish, rfl, .receive hr hid hload⟩
          · simp [Resource.sequence] at hseq
      · simp at h
    · simp at h
  · simp at h

theorem gives_guarded {empty : Fault} {body : Block} {test : Value}
    {orElse : Option (List Circuit.Stmt)} {block : State → Block} :
    Gives (guarded empty body test orElse block) w b w' ↔ ∃ entry, body.entry? = some entry ∧
      b = block ⟨w.supply, [.branch test [goto entry] orElse]⟩ ∧ w' = w.tick := by
  unfold guarded
  split
  · simp [*]
  · simp only [*, gives_bind, gives_newState, gives_pure, Option.some.injEq, exists_eq_left',
      exists_and_left, and_assoc, exists_eq_left, eq_comm]

theorem gives_guardCond {test : Value} {yes no : Plan}
    (h : Gives (guardCond pos test yes.block no.block) w b w') :
    yes ≠ .finish ∧ b = (Plan.cond w.supply test yes no .finish).block ∧ w' = w.tick := by
  obtain ⟨entry, hentry, rfl, rfl⟩ := gives_guarded.mp h
  rw [entry?_block] at hentry
  refine ⟨?_, ?_, rfl⟩
  · rintro rfl
    simp [Plan.entry] at hentry
  · rw [entry?_block]
    cases hno : no.entry none with
    | none =>
      have : no = .finish := by cases no <;> simp_all [Plan.entry]
      subst this
      simp [Plan.block, Plan.nodes, Plan.exits, hentry, Node.state, Node.body, Duty.body]
    | some l =>
      have : no.isFinish = false := by cases no <;> simp_all [Plan.entry, Plan.isFinish]
      simp [Plan.block, Plan.nodes, Plan.exits, this, hentry, hno, Node.state,
        Node.body, Duty.body]

theorem gives_guardLoop {test : Value} {body : Plan} (hbody : body.labels.Nodup)
    (h : Gives (guardLoop pos test body.block) w b w') :
    body ≠ .finish ∧ b = (Plan.loop w.supply test body .finish).block ∧ w' = w.tick := by
  obtain ⟨entry, hentry, rfl, rfl⟩ := gives_guarded.mp h
  rw [entry?_block] at hentry
  refine ⟨?_, ?_, rfl⟩
  · rintro rfl
    simp [Plan.entry] at hentry
  · simp [Plan.block, Plan.nodes, Plan.exits, connect_nodes hbody, hentry,
      Node.state, Node.body, Duty.body]

/-- A workshop with one more progress message. -/
def Workshop.noted (w : Workshop) (message : String) : Workshop :=
  { w with log := message :: w.log }

theorem gives_each {target iter : Expr} {body : List Program.Stmt} :
    Gives (lowerStmt (.each pos target iter body)) s b s' ↔
      ∃ name values s₁, loopTarget s.env target = .ok name ∧ iterValues s.env iter = .ok values ∧
        Gives (unroll name (lowerStmts .empty body) .empty values) s b s₁ ∧
        s' = ⟨s₁.env, s₁.shop.noted
          s!"unrolled for {name} over {values.length} values into {b.states.length} states"⟩ := by
  rw [lowerStmt]
  simp only [gives_bind, gives_build, gives_ofExcept, gives_note, gives_pure]
  constructor
  · rintro ⟨name, _, ⟨_, ⟨hname, rfl⟩, rfl⟩, values, _, ⟨_, ⟨hvalues, rfl⟩, rfl⟩, b', s₁, hunroll,
      _, _, ⟨_, rfl, rfl⟩, rfl, rfl⟩
    exact ⟨name, values, s₁, hname, hvalues, hunroll, rfl⟩
  · rintro ⟨name, values, s₁, hname, hvalues, hunroll, rfl⟩
    exact ⟨name, s, ⟨_, ⟨hname, rfl⟩, rfl⟩, values, s, ⟨_, ⟨hvalues, rfl⟩, rfl⟩, b, s₁, hunroll,
      (), _, ⟨_, rfl, rfl⟩, rfl, rfl⟩

theorem lowers_of_unroll {name : String} {body : List Program.Stmt}
    (hbody : ∀ s b s', s.env.All Deviceless → Gives (lowerStmts .empty body) s b s' →
      ∃ p : Plan, b = p.block ∧ Lowers s (.block body) p s') {values : List Int64} (p₀ : Plan)
    (h : Gives (unroll name (lowerStmts .empty body) p₀.block values) s b s')
    (hs : s.env.All Deviceless) (hp₀ : Advances m p₀ s.shop.supply) :
    ∃ p : Plan, b = (p₀.append p).block ∧ Lowers s (.copies name body values) p s' := by
  induction values generalizing p₀ s with
  | nil =>
    obtain ⟨rfl, rfl⟩ := gives_pure.mp h
    exact ⟨.finish, by rw [append_finish], .noCopy _ _ _⟩
  | cons v vs ih =>
    obtain ⟨b₁, s₁, hcopy, hrest⟩ := gives_bind.mp h
    obtain ⟨s₂, env, hfirst, hpop, rfl⟩ := gives_withLoopVar.mp hcopy
    have hpush : ((s.env.push name (.int v)).getD s.env).All Deviceless :=
      hs.push trivial
    obtain ⟨p, rfl, hp⟩ := hbody _ _ _ hpush hfirst
    rw [block_andThen hp₀.nodup] at hrest
    obtain ⟨q, rfl, hq⟩ :=
      ih (p₀.append p) hrest ((hp.deviceless hpush).pop hpop) (hp₀.append hp.tags)
    exact ⟨p.append q, by rw [Plan.append_assoc], .copy hp hpop hq⟩

mutual

/-- **What the compiler lowers has a derivation**, and its block is that of the plan. -/
theorem lowers_of_lowerStmt (st : Program.Stmt) {s s' : Session} {b : Block}
    (h : Gives (lowerStmt st) s b s') (hs : s.env.All Deviceless) :
    ∃ p : Plan, b = p.block ∧ Lowers s (.stmt st) p s' := by
  match st with
  | .assign .. =>
    exact lowers_of_lowerAssign h
  | .cond pos test body orElse =>
    rw [lowerStmt] at h
    simp only [gives_bind, gives_build] at h
    obtain ⟨t, _, ⟨w, ht, rfl⟩, yes, s₁, hyes, no, s₂, hno, w', hguard, rfl⟩ := h
    obtain ⟨p, rfl, hp⟩ := lowers_of_lowerStmts body .finish hyes hs (.refl _)
    obtain ⟨q, rfl, hq⟩ := lowers_of_lowerStmts orElse .finish hno (hp.deviceless hs) (.refl _)
    obtain ⟨hne, rfl, rfl⟩ := gives_guardCond hguard
    exact ⟨_, rfl, .cond ht hp hne hq⟩
  | .loop pos test body =>
    rw [lowerStmt] at h
    simp only [gives_bind, gives_build] at h
    obtain ⟨t, _, ⟨w, ht, rfl⟩, b₁, s₁, hbody, w', hguard, rfl⟩ := h
    obtain ⟨p, rfl, hp⟩ := lowers_of_lowerStmts body .finish hbody hs (.refl _)
    obtain ⟨hne, rfl, rfl⟩ := gives_guardLoop hp.tags.nodup hguard
    exact ⟨_, rfl, .loop ht hp hne⟩
  | .each pos target iter body =>
    obtain ⟨name, values, s₁, hname, hvalues, hcopies, rfl⟩ := gives_each.mp h
    obtain ⟨p, rfl, hp⟩ := lowers_of_unroll
      (fun s b s' hs h => lowers_of_lowerStmts body .finish h hs (.refl _)) .finish hcopies hs
      (.refl _)
    exact ⟨p, rfl, .each hname hvalues hp⟩
  | .expr e =>
    cases e with
    | yield pos value =>
      rw [lowerStmt] at h
      obtain ⟨w, hy, rfl⟩ := gives_build.mp h
      exact lowers_of_lowerYield hs hy
    | _ => simp [lowerStmt] at h
  | .funcDef .. | .ret .. | .pass .. | .brk .. | .cont .. => simp [lowerStmt] at h

/-- The block so far is that of `p₀`, whose labels are all older than what is lowered now. -/
theorem lowers_of_lowerStmts (ss : List Program.Stmt) (p₀ : Plan)
    {s s' : Session} {b : Block} {m : Nat} (h : Gives (lowerStmts p₀.block ss) s b s')
    (hs : s.env.All Deviceless) (hp₀ : Advances m p₀ s.shop.supply) :
    ∃ p : Plan, b = (p₀.append p).block ∧ Lowers s (.block ss) p s' := by
  match ss with
  | [] =>
    obtain ⟨rfl, rfl⟩ := h
    exact ⟨.finish, by rw [append_finish], .nil _⟩
  | st :: ss =>
    obtain ⟨b₁, s₁, hst, hrest⟩ := gives_bind.mp h
    obtain ⟨p, rfl, hp⟩ := lowers_of_lowerStmt st hst hs
    rw [block_andThen hp₀.nodup] at hrest
    obtain ⟨q, rfl, hq⟩ :=
      lowers_of_lowerStmts ss (p₀.append p) hrest (hp.deviceless hs) (hp₀.append hp.tags)
    exact ⟨p.append q, by rw [Plan.append_assoc], .cons hp hq⟩

end

end Sequencer.Lowering
