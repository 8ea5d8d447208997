import Sequencer.Proofs.Reference.Routine

/-!
# Plans and routines

The compiler and the interpreter read the same text with the same scopes, but each makes registers
of its own. `Matches` relates a plan to a routine that does the same step by step.
-/

namespace Sequencer.Reference

open Circuit Lowering Program Value Build Workshop Progress Lower List

/-- A load of the plan stands for a store of the value into the signal `x`. -/
def StoresTo (w t : Workshop) (value : Value) (l : RegisterId × SourceId) (x : Signal) : Prop :=
  t.storages[l.1]? = some x ∧
    ∃ u, w.Recorded l.1 l.2 u ∧ Alike w.storages t.storages u (value.widened x.bits)

/-- A plan and a routine that do the same, step by step. -/
inductive Matches (w t : Workshop) : Plan → Routine → Prop
  | finish : Matches w t .finish .finish
  | store {label : StateId} {loads : List (RegisterId × SourceId)} {targets : List Signal}
      {value : Value} {p : Plan} {r : Routine}
      (stores : Forall₂ (StoresTo w t value) loads targets) (rest : Matches w t p r) :
      Matches w t (.act label (.store loads) p) (.store targets value r)
  | send {label : StateId} {c : Channel} {data value : Value} {tag : Nat} {p : Plan} {r : Routine}
      (alike : Alike w.storages t.storages data (value.widened c.data.bits))
      (rest : Matches w t p r) :
      Matches w t (.act label (.send c data tag) p) (.send c value r)
  | receive {label : StateId} {c : Channel} {id : RegisterId} {source : SourceId} {x : Signal}
      {p : Plan} {r : Routine} (recorded : w.Recorded id source (.signal c.data))
      (target : t.storages[id]? = some x) (rest : Matches w t p r) :
      Matches w t (.act label (.receive c id source) p) (.receive c x r)
  | cond {label : StateId} {test test' : Value} {yes no p : Plan} {yes' no' r : Routine}
      (alike : Alike w.storages t.storages test test') (taken : Matches w t yes yes')
      (other : Matches w t no no') (rest : Matches w t p r) :
      Matches w t (.cond label test yes no p) (.cond test' yes' no' r)
  | loop {label : StateId} {test test' : Value} {body p : Plan} {body' r : Routine}
      (alike : Alike w.storages t.storages test test') (repeated : Matches w t body body')
      (rest : Matches w t p r) :
      Matches w t (.loop label test body p) (.loop test' body' r)

namespace Matches

variable {w w' t t' : Workshop} {p q : Plan} {r s : Routine}

theorem mono (h : Matches w t p r) (hw : w.Grows w') (ht : t.storages <+: t'.storages) :
    Matches w' t' p r := by
  have halike : ∀ {u v}, Alike w.storages t.storages u v →
      Alike w'.storages t'.storages u v := fun h => h.mono hw.storages ht
  induction h with
  | finish => exact .finish
  | store stores _ ih =>
    refine .store (stores.imp fun l x hlx => ?_) ih
    obtain ⟨hx, u, hu, hal⟩ := hlx
    exact ⟨getElem?_of_isPrefix ht hx, u, hu.mono hw, halike hal⟩
  | send alike _ ih => exact .send (halike alike) ih
  | receive recorded target _ ih =>
    exact .receive (recorded.mono hw) (getElem?_of_isPrefix ht target) ih
  | cond alike _ _ _ ihy ihn ih => exact .cond (halike alike) ihy ihn ih
  | loop alike _ _ ihb ih => exact .loop (halike alike) ihb ih

theorem append (hp : Matches w t p r) (hq : Matches w t q s) :
    Matches w t (p.append q) (r.append s) := by
  induction hp with
  | finish => exact hq
  | store stores _ ih => exact .store stores ih
  | send alike _ ih => exact .send alike ih
  | receive recorded target _ ih => exact .receive recorded target ih
  | cond alike taken other _ _ _ ih => exact .cond alike taken other ih
  | loop alike repeated _ _ ih => exact .loop alike repeated ih

end Matches

def resolveJob : Job → Lower Routine
  | .stmt s => resolveStmt s
  | .block ss => resolveStmts ss
  | .copies name body values => resolveCopies name (resolveStmts body) values

theorem gives_storageOf {id : RegisterId} {t t' : Workshop} {x : Signal} :
    Gives (storageOf id) t x t' ↔ t.storages[id]? = some x ∧ t' = t := by
  unfold storageOf
  simp only [gives_bind, gives_register, gives_pure, storages, getElem?_map, Option.map_eq_some_iff]
  constructor
  · rintro ⟨r, _, ⟨hr, rfl⟩, rfl, rfl⟩
    exact ⟨⟨r, hr, rfl⟩, rfl⟩
  · rintro ⟨⟨r, hr, rfl⟩, rfl⟩
    exact ⟨r, _, ⟨hr, rfl⟩, rfl, rfl⟩

theorem storesTo_of_stores {rs : List Resource} {base : Nat} {env : Env} {v v' : Value}
    {w w' t : Workshop} {ts : List Expr} {loads : List (RegisterId × SourceId)}
    (h : Stores env v w ts loads w') (hw : w.Tidy rs base) (hv : v.BuiltOn w.storages)
    (ht : Twin w t) (hal : Alike w.storages t.storages v v') :
    w'.storages = w.storages ∧ ∃ xs,
      Gives (ts.mapM fun e => do storageOf (← Build.ofExcept (storeTarget env e))) t xs t ∧
        Forall₂ (StoresTo w' t v') loads xs := by
  induction h with
  | nil w => exact ⟨rfl, [], by simp, .nil⟩
  | cons target register widened load others ih =>
    obtain ⟨htags, hbuilt, halike⟩ := extend_spec widened
    have h₁ := onlyTags hw htags
    obtain ⟨h₂, hrec⟩ := Progress.load h₁.tidy (.inl (htags.storages ▸ hbuilt _ hv)) load
    have hst := (h₁.tidy.storages_load load).trans htags.storages
    have hgrows := (others.progress h₂.tidy (hst ▸ hv)).1.grows
    obtain ⟨hst', xs, hxs, hall⟩ :=
      ih h₂.tidy (hst ▸ hv) (by unfold Twin; rw [hst]; exact ht) (hst ▸ hal)
    obtain ⟨x, hx, hbits⟩ := ht.getElem?_storages (storages_getElem? register)
    refine ⟨hst'.trans hst, x :: xs, ?_, .cons ⟨hx, _, hrec.mono hgrows, ?_⟩ hall⟩
    · rw [mapM_cons]
      simp only [gives_bind, gives_pure]
      refine ⟨x, t, ?_, xs, t, hxs, rfl, rfl⟩
      exact ⟨_, t, gives_ofExcept.mpr ⟨target, rfl⟩, gives_storageOf.mpr ⟨hx, rfl⟩⟩
    · rw [hst', hst, ← hbits]
      exact halike _ _ _ hal

/-! ### Resolving statements -/

/-- A session of the compiler, and the workshop of the interpreter beside it. -/
structure Abreast (rs : List Resource) (base : Nat) (s : Session) (t : Workshop) : Prop where
  plain : s.env.Plain rs
  shop : s.shop.Tidy rs base
  twin : Twin s.shop t
  tidy : t.Tidy rs base

/-- Both go on side by side. -/
structure Moves (rs : List Resource) (base : Nat) (s : Session) (t : Workshop) (s' : Session)
    (t' : Workshop) : Prop where
  abreast : Abreast rs base s' t'
  shop : s.shop.Grows s'.shop
  grows : t.Grows t'

/-- Where the compiler plans `p` for a piece of program, the interpreter can resolve the piece, and
what it resolves does the same. -/
def Resolves (rs : List Resource) (base : Nat) (s : Session) (j : Job) (p : Plan) (s' : Session) :
    Prop :=
  ∀ t, Abreast rs base s t → ∃ r t', Gives (resolveJob j) ⟨s.env, t⟩ r ⟨s'.env, t'⟩ ∧
    Moves rs base s t s' t' ∧ Matches s'.shop t' p r

section Statements

variable {rs : List Resource} {base : Nat} {s s' s₁ s₂ : Session} {p q : Plan} {pos : Position}
  {t t' t₁ w w' : Workshop} {target arg e test iter : Expr} {others : List Expr} {v : Value}
  {body orElse : List Program.Stmt} {name : String}

theorem Moves.trans (h : Moves rs base s t s₁ t₁) (h' : Moves rs base s₁ t₁ s' t') :
    Moves rs base s t s' t' :=
  ⟨h'.abreast, h.shop.trans h'.shop, h.grows.trans h'.grows⟩

theorem Matches.after {r : Routine} (h : Matches s.shop t p r) (hm : Moves rs base s t s' t') :
    Matches s'.shop t' p r :=
  h.mono hm.shop hm.grows.storages

theorem Abreast.onlyTags (ha : Abreast rs base s t) (hw : OnlyTags s.shop w) (ht : OnlyTags t t') :
    Moves rs base s t ⟨s.env, w⟩ t' :=
  have h := Progress.onlyTags ha.shop hw
  have h' := Progress.onlyTags ha.tidy ht
  ⟨⟨ha.plain, h.tidy, ha.twin.onlyTags hw ht, h'.tidy⟩, h.grows, h'.grows⟩

/-- The interpreter makes a value like the one that the compiler makes. -/
theorem Abreast.value (ha : Abreast rs base s t) (hv : Gives (lowerExpr s.env test) s.shop v w) :
    ∃ u t', Gives (lowerExpr s.env test) t u t' ∧ Moves rs base s t ⟨s.env, w⟩ t' ∧
      Alike s.shop.storages t.storages v u := by
  have m := makes_lowerExpr ha.plain _ hv
  obtain ⟨u, t', hu, htags, hal⟩ := m.echoes t ha.twin
  exact ⟨u, t', hu, ha.onlyTags m.onlyTags htags, hal⟩

theorem resolves_cons {a : Program.Stmt} (h : Resolves rs base s (.stmt a) p s₁)
    (h' : Resolves rs base s₁ (.block body) q s') :
    Resolves rs base s (.block (a :: body)) (p.append q) s' := by
  intro t ha
  obtain ⟨r₁, t₁, hr₁, hm₁, h₁⟩ := h t ha
  obtain ⟨r₂, t₂, hr₂, hm₂, h₂⟩ := h' t₁ hm₁.abreast
  refine ⟨r₁.append r₂, t₂, ?_, hm₁.trans hm₂, (h₁.after hm₂).append h₂⟩
  simp only [resolveJob, resolveStmts, gives_bind, gives_pure]
  exact ⟨r₁, _, hr₁, r₂, _, hr₂, rfl, rfl⟩

theorem resolves_declare {width : Int} (operand : Gives (lowerOperand s.env e
      ((target :: others).all fun t => (targetName? t).isSome)) s.shop (.register width) w)
    (declared : Gives (declare (target :: others) width) ⟨s.env, w⟩ .empty s') :
    Resolves rs base s (.stmt (.assign target others pos e)) .finish s' := by
  intro t ha
  obtain ⟨rfl, -, hop⟩ := lowerOperand_register operand
  obtain ⟨env, henv, -, rfl⟩ := gives_declare.mp declared
  have h := Progress.declare ha.shop (target :: others) width
  have h' := Progress.declare ha.tidy (target :: others) width
  refine ⟨.finish, _, ?_, ⟨⟨Env.All.bindNames ha.plain trivial henv, h.tidy,
    ha.twin.declareRegister _ _, h'.tidy⟩, h.grows, h'.grows⟩, .finish⟩
  simp only [resolveJob, resolveStmt, resolveAssign, gives_bind, gives_build]
  refine ⟨_, _, ⟨t, hop t, rfl⟩, ?_⟩
  simp only [gives_bind, gives_pure]
  refine ⟨_, _, gives_declare.mpr ⟨env, ?_, rfl, rfl⟩, trivial, rfl⟩
  rw [← ha.twin.length_eq]
  exact henv

theorem resolves_store {loads : List (RegisterId × SourceId)}
    (operand : Gives (lowerOperand s.env e
      ((target :: others).all fun t => (targetName? t).isSome)) s.shop (.value v) w)
    (stores : Stores s.env v w (target :: others) loads w') :
    Resolves rs base s (.stmt (.assign target others pos e))
      (.act w'.supply (.store loads) .finish) ⟨s.env, w'.tick⟩ := by
  intro t ha
  obtain ⟨htags, hbuilt, hechoes⟩ := lowerOperand_value ha.plain operand
  obtain ⟨u, t₁, hu, htags', hal⟩ := hechoes t ha.twin
  have hm := ha.onlyTags htags htags'
  obtain ⟨hst, xs, hxs, hall⟩ := storesTo_of_stores stores hm.abreast.shop
    (htags.storages ▸ hbuilt) hm.abreast.twin (by rwa [htags.storages, htags'.storages])
  have hw₁ := (stores.progress hm.abreast.shop (htags.storages ▸ hbuilt)).1
  have hw₂ := Progress.onlyTags hw₁.tidy (.succ _)
  have htwin : Twin w'.tick t₁ := by
    simp only [Twin, storages_tick, hst]
    exact hm.abreast.twin
  refine ⟨.store xs u .finish, t₁, ?_, hm.trans ⟨⟨ha.plain, hw₂.tidy, htwin, hm.abreast.tidy⟩,
    (hw₁.trans hw₂).grows, .refl _⟩, (Matches.store hall .finish).mono hw₂.grows (prefix_refl _)⟩
  simp only [resolveJob, resolveStmt, resolveAssign, gives_bind, gives_build]
  refine ⟨_, _, ⟨t₁, hu, rfl⟩, ?_⟩
  simp only [gives_build, gives_bind, gives_pure]
  exact ⟨t₁, ⟨xs, t₁, hxs, rfl, rfl⟩, rfl⟩

section Yields

variable {c : Channel} {fpos lparen rparen : Position}

theorem resolves_send {data : Value} (resource : s.env.lookup name = some (.resource (.sink c)))
    (value : Gives (lowerExpr s.env arg) s.shop v w)
    (widened : Gives (ofFresh (v.extend c.data.bits)) w.tick data w') :
    Resolves rs base s
      (.stmt (.expr (.yield pos (some (.call (.name fpos name) lparen [arg] rparen)))))
      (.act w.supply (.send c data w'.supply) .finish) ⟨s.env, w'.tick⟩ := by
  intro t ha
  obtain ⟨htags, -, halike⟩ := extend_spec widened
  obtain ⟨u, t₁, hu, hm, hal⟩ := ha.value value
  have hm' := hm.abreast.onlyTags ((OnlyTags.succ _).trans (htags.trans (.succ _))) (.refl _)
  have hall := hm.trans hm'
  refine ⟨.send c u .finish, t₁, ?_, hall,
    .send ((halike _ _ _ hal).mono hall.shop.storages hall.grows.storages) .finish⟩
  simp only [resolveJob, resolveStmt, resolveYield, resource, gives_build, gives_bind, gives_pure]
  exact ⟨t₁, ⟨u, t₁, hu, rfl, rfl⟩, rfl⟩

theorem resolves_receive {id : RegisterId} {source : SourceId}
    (resource : s.env.lookup name = some (.resource (.source c)))
    (register : registerArg s.env arg = .ok id)
    (load : Gives (load id (.signal c.data)) s.shop.tick (loadMarker id source) w) :
    Resolves rs base s
      (.stmt (.expr (.yield pos (some (.call (.name fpos name) lparen [arg] rparen)))))
      (.act s.shop.supply (.receive c id source) .finish) ⟨s.env, w⟩ := by
  intro t ha
  have h₁ := Progress.onlyTags ha.shop (.succ _)
  obtain ⟨h₂, hrec⟩ := Progress.load h₁.tidy (.inr ⟨_, (ha.plain.lookup resource).1, rfl⟩) load
  have hst := h₁.tidy.storages_load load
  have ⟨r, hr, _⟩ := hrec
  obtain ⟨x, hx, -⟩ := ha.twin.getElem?_storages (hst ▸ storages_getElem? hr)
  have htwin : Twin w t := by
    simp only [Twin, hst]
    exact ha.twin
  refine ⟨.receive c x .finish, t, ?_,
    ⟨⟨ha.plain, h₂.tidy, htwin, ha.tidy⟩, (h₁.trans h₂).grows, .refl _⟩, .receive hrec hx .finish⟩
  simp only [resolveJob, resolveStmt, resolveYield, resource, gives_build, gives_bind, gives_pure]
  exact ⟨t, ⟨_, t, gives_ofExcept.mpr ⟨register, rfl⟩, x, t,
    gives_storageOf.mpr ⟨hx, rfl⟩, rfl, rfl⟩, rfl⟩

end Yields

theorem resolves_cond (value : Gives (lowerExpr s.env test) s.shop v w)
    (taken : Resolves rs base ⟨s.env, w⟩ (.block body) p s₁)
    (other : Resolves rs base s₁ (.block orElse) q s₂) :
    Resolves rs base s (.stmt (.cond pos test body orElse))
      (.cond s₂.shop.supply v p q .finish) ⟨s₂.env, s₂.shop.tick⟩ := by
  intro t ha
  obtain ⟨u, t₁, hu, hm₁, hal⟩ := ha.value value
  obtain ⟨ry, t₂, hry, hm₂, hy⟩ := taken t₁ hm₁.abreast
  obtain ⟨rn, t₃, hrn, hm₃, hn⟩ := other t₂ hm₂.abreast
  have hm₄ := hm₃.abreast.onlyTags (.succ _) (.refl _)
  have hall := (hm₁.trans hm₂).trans (hm₃.trans hm₄)
  refine ⟨.cond u ry rn .finish, t₃, ?_, hall,
    .cond (hal.mono hall.shop.storages hall.grows.storages) (hy.after (hm₃.trans hm₄))
      (hn.after hm₄) .finish⟩
  simp only [resolveJob, resolveStmt, gives_build, gives_bind, gives_pure]
  exact ⟨u, _, ⟨t₁, hu, rfl⟩, ry, _, hry, rn, _, hrn, rfl, rfl⟩

theorem resolves_loop (value : Gives (lowerExpr s.env test) s.shop v w)
    (repeated : Resolves rs base ⟨s.env, w⟩ (.block body) p s₁) :
    Resolves rs base s (.stmt (.loop pos test body)) (.loop s₁.shop.supply v p .finish)
      ⟨s₁.env, s₁.shop.tick⟩ := by
  intro t ha
  obtain ⟨u, t₁, hu, hm₁, hal⟩ := ha.value value
  obtain ⟨rb, t₂, hrb, hm₂, hb⟩ := repeated t₁ hm₁.abreast
  have hm₃ := hm₂.abreast.onlyTags (.succ _) (.refl _)
  have hall := (hm₁.trans hm₂).trans hm₃
  refine ⟨.loop u rb .finish, t₂, ?_, hall,
    .loop (hal.mono hall.shop.storages hall.grows.storages) (hb.after hm₃) .finish⟩
  simp only [resolveJob, resolveStmt, gives_build, gives_bind, gives_pure]
  exact ⟨u, _, ⟨t₁, hu, rfl⟩, rb, _, hrb, rfl, rfl⟩

section Copies

variable {n : Int64} {vs : List Int64}

theorem resolves_each {log : List String} (fresh : loopTarget s.env target = .ok name)
    (range : iterValues s.env iter = .ok vs)
    (copies : Resolves rs base s (.copies name body vs) p s') :
    Resolves rs base s (.stmt (.each pos target iter body)) p
      ⟨s'.env, { s'.shop with log }⟩ := by
  intro t ha
  obtain ⟨r, t₁, hr, hm, h⟩ := copies t ha
  have hlog : Progress rs base s'.shop [] { s'.shop with log } :=
    ofBank hm.abreast.shop (Nat.le_refl _) rfl rfl
  have hm' : Moves rs base s' t₁ ⟨s'.env, { s'.shop with log }⟩ t₁ :=
    ⟨⟨hm.abreast.plain, hlog.tidy, hm.abreast.twin, hm.abreast.tidy⟩, hlog.grows, .refl _⟩
  refine ⟨r, t₁, ?_, hm.trans hm', h.after hm'⟩
  simp only [resolveJob, resolveStmt, gives_build, gives_bind]
  exact ⟨_, _, ⟨t, gives_ofExcept.mpr ⟨fresh, rfl⟩, rfl⟩, _, _,
    ⟨t, gives_ofExcept.mpr ⟨range, rfl⟩, rfl⟩, hr⟩

theorem resolves_copy {env : Env} (popped : s₁.env.pop name = some env)
    (h : Resolves rs base ⟨(s.env.push name (.int n)).getD s.env, s.shop⟩ (.block body) p s₁)
    (h' : Resolves rs base ⟨env, s₁.shop⟩ (.copies name body vs) q s₂) :
    Resolves rs base s (.copies name body (n :: vs)) (p.append q) s₂ := by
  intro t ha
  obtain ⟨r₁, t₁, hr₁, ⟨ha₁, hs₁, ht₁⟩, h₁⟩ := h t ⟨ha.plain.push name n, ha.shop, ha.twin, ha.tidy⟩
  have hm₁ : Moves rs base s t ⟨env, s₁.shop⟩ t₁ :=
    ⟨⟨ha₁.plain.pop popped, ha₁.shop, ha₁.twin, ha₁.tidy⟩, hs₁, ht₁⟩
  obtain ⟨r₂, t₂, hr₂, hm₂, h₂⟩ := h' t₁ hm₁.abreast
  refine ⟨r₁.append r₂, t₂, ?_, hm₁.trans hm₂,
    (h₁.mono hm₂.shop hm₂.grows.storages).append h₂⟩
  simp only [resolveJob, resolveCopies, gives_bind, gives_withLoopVar, gives_pure]
  exact ⟨r₁, _, ⟨_, _, hr₁, popped, rfl⟩, r₂, _, hr₂, rfl, rfl⟩

end Copies

/-- **Resolving follows lowering**: wherever a piece of program can be lowered, its names can be
resolved, and what is resolved does the same as the plan. -/
theorem resolves_of_lowers {j : Job} (h : Lowers s j p s') : Resolves rs base s j p s' := by
  induction h with
  | nil s => exact fun t ha => ⟨.finish, t, by simp [resolveJob, resolveStmts],
      ha.onlyTags (.refl _) (.refl _), .finish⟩
  | cons _ _ ih₁ ih₂ => exact resolves_cons ih₁ ih₂
  | declare operand declared => exact resolves_declare operand declared
  | store operand stores => exact resolves_store operand stores
  | send resource value widened => exact resolves_send resource value widened
  | receive resource register load => exact resolves_receive resource register load
  | cond value _ _ _ ihy ihn => exact resolves_cond value ihy ihn
  | loop value _ _ ih => exact resolves_loop value ih
  | each fresh range _ ih => exact resolves_each fresh range ih
  | noCopy s => exact fun t ha => ⟨.finish, t, by simp [resolveJob, resolveCopies],
      ha.onlyTags (.refl _) (.refl _), .finish⟩
  | copy _ popped _ ih₁ ih₂ => exact resolves_copy popped ih₁ ih₂

end Statements

/-- A function that does what a plan does, on registers of its own. -/
structure Follows (rs : List Resource) (base : Nat) (w : Workshop) (p : Plan) (f : Function)
    (t : Workshop) : Prop where
  twin : Twin w t
  tidy : t.Tidy rs base
  body : Matches w t p f.body
  registers : f.registers = t.storages
  resources : f.resources = rs

/-- A program that can be compiled can be resolved, and its plan does what the function does. -/
theorem follows_of_lowers {text : List Char} {o : Options} {supply : Nat} {m : Module}
    {name : String} {body : List Program.Stmt} {env env' : Env} {p : Plan} {w : Workshop}
    (hm : readProgram text = .ok m) (hbody : Design.onlyFunction m = .ok (name, body))
    (henv : o.env = .ok env) (hplain : env.Plain o.resources)
    (hp : Lowers ⟨env, new supply⟩ (.block body) p ⟨env', w⟩) :
    ∃ f t, Gives (resolve text o) (new supply) f t ∧
      Follows o.resources supply w p f t := by
  have htidy := Design.tidy_new o.resources supply
  obtain ⟨r, t, hr, ⟨ha, -, -⟩, hmatches⟩ :=
    resolves_of_lowers hp _ ⟨hplain, htidy, rfl, htidy⟩
  refine ⟨⟨r, t.storages, o.resources⟩, t, ?_, ha.twin, ha.tidy, hmatches, rfl, rfl⟩
  refine gives_ofExcept_bind.mpr ⟨m, hm, gives_ofExcept_bind.mpr ⟨(name, body), hbody,
    gives_ofExcept_bind.mpr ⟨env, henv, gives_bind.mpr ⟨r, t, ?_, ?_⟩⟩⟩⟩
  · exact gives_within.mpr ⟨env', hr⟩
  · exact gives_bind.mpr ⟨t, t, gives_get.mpr ⟨rfl, rfl⟩, gives_pure.mpr ⟨rfl, rfl⟩⟩

end Sequencer.Reference
