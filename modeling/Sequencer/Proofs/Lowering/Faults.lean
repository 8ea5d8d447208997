import Sequencer.Proofs.Lowering.Evaluation
import Sequencer.Proofs.Lowering.Scoping

/-!
# How compilation fails

A program is either lowered or **refused**, or else slices a value that has no width. The registers
that names stand for stay open meanwhile.
-/

namespace Sequencer.Lowering

open Circuit Program Simulation Build Workshop.Keeps Lower List

/-! ### What lowering leaves behind -/

def Duty.Solid : Duty → Prop
  | .act (.send _ data _) => data.Solid
  | .guard test _ _ => test.Solid
  | _ => True

def Plan.Solid (p : Plan) : Prop := ∀ d ∈ p.duties, d.Solid

theorem Plan.Solid.append {p q : Plan} (hp : p.Solid) (hq : q.Solid) : (p.append q).Solid := by
  rw [Solid, duties_append]
  exact forall_mem_append.mpr ⟨hp, hq⟩

/-- A piece of program in which every comparison has something on its right. -/
def Job.Linked : Job → Prop
  | .stmt s => s.Linked
  | .block ss => ∀ s ∈ ss, s.Linked
  | .copies _ body _ => ∀ s ∈ body, s.Linked

/-- What is kept by lowering to the plan `p`. -/
structure Maintains (s : Session) (p : Plan) (s' : Session) : Prop where
  shop : s.shop.Keeps s'.shop
  opens : s'.env.Open s'.shop
  solid : p.Solid

section Statements

variable {rs : List Resource} {env : Env} {w w' : Workshop}

theorem Stores.keeps {v : Value} {ts : List Expr} {loads : List (RegisterId × SourceId)}
    (h : Stores env v w ts loads w') (hv : v.Solid) (hopen : env.Open w) : w.Keeps w' := by
  induction h with
  | nil w => exact .ofBank rfl
  | cons target register widened load others ih =>
    obtain ⟨htags, hu⟩ := (evaluates_extend hv _).gives _ _ widened
    have h₁ := onlyTags htags
    have hid := target ▸ finds_storeTarget (hopen.mono h₁) _
    have h₂ := h₁.trans (.load hid hu load)
    exact h₂.trans (ih (hopen.mono h₂))

theorem linked_arg {pos lparen rparen : Position} {func arg : Expr}
    (h : Stmt.Linked (.expr (.yield pos (some (.call func lparen [arg] rparen))))) :
    arg.Linked := by
  cases h with
  | expr hyield =>
    cases hyield with
    | yield hvalue =>
      cases hvalue _ rfl with
      | call hfunc hargs => exact hargs arg (by simp)

/-- **Lowering keeps registers open**, and makes no value with missing or empty parts. -/
theorem Lowers.keeps {s s' : Session} {j : Job} {p : Plan} (h : Lowers s j p s')
    (hs : s.env.Plain rs) (hopen : s.env.Open s.shop) (hlinked : j.Linked) : Maintains s p s' := by
  induction h with
  | nil s | noCopy s => exact ⟨.ofBank rfl, hopen, nofun⟩
  | cons first others ih₁ ih₂ =>
    obtain ⟨hfirst, hothers⟩ := forall_mem_cons.mp hlinked
    have h₁ := ih₁ hs hopen hfirst
    have h₂ := ih₂ (first.advances hs).2 h₁.opens hothers
    exact ⟨h₁.shop.trans h₂.shop, h₂.opens, h₁.solid.append h₂.solid⟩
  | @declare s _ target others _ _ _ width operand declared =>
    obtain ⟨rfl, -⟩ := lowerOperand_register operand
    obtain ⟨env, henv, -, rfl⟩ := gives_declare.mp declared
    obtain ⟨hkeeps, hid⟩ := add
      (show (s.shop.declareRegister (declaredRegister (target :: others) width
        s.shop.supply)).bank.registers = _ from rfl) rfl rfl
    exact ⟨hkeeps, Env.All.bindNames (hopen.mono hkeeps) hid henv, nofun⟩
  | store operand stores =>
    cases hlinked with
    | assign hvalue =>
      obtain ⟨htags, hv⟩ := (evaluates_lowerOperand hs hopen hvalue _).gives _ _ operand
      have h₁ := onlyTags htags
      have h₂ := h₁.trans (stores.keeps (hv _ rfl) (hopen.mono h₁))
      have h₃ := h₂.trans (.tick _)
      exact ⟨h₃, hopen.mono h₃, forall_mem_singleton.mpr trivial⟩
  | send resource value widened =>
    obtain ⟨htags, hv⟩ := (evaluates_lowerExpr hs hopen (linked_arg hlinked)).gives _ _ value
    obtain ⟨htags', hdata⟩ := (evaluates_extend hv _).gives _ _ widened
    have h := onlyTags
      (htags.trans ((OnlyTags.succ _).trans (htags'.trans (.succ _))))
    exact ⟨h, hopen.mono h, forall_mem_singleton.mpr hdata⟩
  | receive resource register load =>
    have hid := register ▸ finds_registerArg (hopen.mono (.tick _)) _
    have h := (tick _).trans (.load (v := .signal _) hid trivial load)
    exact ⟨h, hopen.mono h, forall_mem_singleton.mpr trivial⟩
  | cond value taken nonempty other ihy ihn =>
    cases hlinked with
    | cond htest hbody helse =>
      obtain ⟨htags, ht⟩ := (evaluates_lowerExpr hs hopen htest).gives _ _ value
      have h₁ := onlyTags htags
      have hy := ihy hs (hopen.mono h₁) hbody
      have hn := ihn (taken.advances hs).2 hy.opens helse
      exact ⟨h₁.trans (hy.shop.trans (hn.shop.trans (.tick _))), hn.opens.mono (.tick _),
        forall_mem_cons.mpr
          ⟨ht, by simpa [Plan.duties] using forall_mem_append.mpr ⟨hy.solid, hn.solid⟩⟩⟩
  | loop value repeated nonempty ih =>
    cases hlinked with
    | loop htest hbody =>
      obtain ⟨htags, ht⟩ := (evaluates_lowerExpr hs hopen htest).gives _ _ value
      have h₁ := onlyTags htags
      have hb := ih hs (hopen.mono h₁) hbody
      exact ⟨h₁.trans (hb.shop.trans (.tick _)), hb.opens.mono (.tick _),
        forall_mem_cons.mpr ⟨ht, by simpa [Plan.duties, Plan.Solid] using hb.solid⟩⟩
  | each fresh range copies ih =>
    cases hlinked with
    | each hbody =>
      have h := ih hs hopen hbody
      exact ⟨h.shop.trans (.ofBank rfl), h.opens.mono (.ofBank rfl), h.solid⟩
  | copy first popped others ih₁ ih₂ =>
    have h₁ := ih₁ (hs.push _ _) (Env.All.push hopen trivial) hlinked
    have h₂ := ih₂ ((first.advances (hs.push _ _)).2.pop popped) (Env.All.pop h₁.opens popped)
      hlinked
    exact ⟨h₁.shop.trans h₂.shop, h₂.opens, h₁.solid.append h₂.solid⟩

end Statements

/-! ### Steps that do not fail -/

section Steps

variable {w w' : Workshop} {e : Fault}

theorem not_fails_send {c : Channel} {v : Value} : ¬ Fails (Resource.send c v) w e w' := by
  intro h
  unfold Resource.send at h
  simp only [fails_bind, not_fails_ofFresh, not_fails_pure, false_or, and_false, exists_false] at h

variable {name : String}

theorem Lower.fails_bindRegister {pos : Position} {id : RegisterId} {s s' : Session}
    (h : Fails (bindRegister pos name id) s e s') : e = .scope pos name .loopVariable ∧ s' = s := by
  unfold Fails bindRegister at h
  cases hbind : s.env.bind name (.register id) with
  | none =>
    rw [hbind] at h
    cases h
    exact ⟨rfl, rfl⟩
  | some env =>
    rw [hbind] at h
    cases h

end Steps

/-! ### Refusals -/

/-- Started on `s`, the step fails only as expected. -/
def Refuses {α : Type} (x : Lower α) (s : Session) : Prop := ∀ e s', Fails x s e s' → e.Expected

section Refuses

variable {α β : Type} {s : Session}

theorem Refuses.bind {x : Lower α} {f : α → Lower β} (hx : Refuses x s)
    (hf : ∀ a s', Gives x s a s' → Refuses (f a) s') : Refuses (x >>= f) s := by
  intro e s' h
  obtain h | ⟨a, s₁, ha, h⟩ := fails_bind.mp h
  · exact hx e s' h
  · exact hf a s₁ ha e s' h

theorem refuses_throw {e : Fault} (he : e.isRefusal = true) : Refuses (throw e : Lower α) s := by
  intro e' s' h
  obtain ⟨rfl, rfl⟩ := fails_throw.mp h
  exact .inl he

theorem refuses_pure (a : α) : Refuses (pure a) s := fun _ _ h => (not_fails_pure h).elim

theorem refuses_build {f : Env → Build α} (h : ∀ e w, Fails (f s.env) s.shop e w → e.Expected) :
    Refuses (build f) s := by
  intro e s' hfails
  obtain ⟨w, hw, rfl⟩ := fails_build.mp hfails
  exact h e w hw

theorem Refuses.build_bind {f : Env → Build α} {g : α → Lower β}
    (h : ∀ e w, Fails (f s.env) s.shop e w → e.Expected)
    (hg : ∀ a w, Gives (f s.env) s.shop a w → Refuses (g a) ⟨s.env, w⟩) :
    Refuses (build f >>= g) s := by
  refine (refuses_build h).bind fun a s' ha => ?_
  obtain ⟨w, hw, rfl⟩ := gives_build.mp ha
  exact hg a w hw

theorem Refuses.withLoopVar {v : Int64} {names : List String} {x : Lower α}
    (hfree : s.env.lookup name = none)
    (hx : Refuses x ⟨(s.env.push name (.int v)).getD s.env, s.shop⟩)
    (hspares : Spares names x ⟨(s.env.push name (.int v)).getD s.env, s.shop⟩) :
    Refuses (withLoopVar name v x) s := by
  intro e s' h
  obtain ⟨env, -, -, heq⟩ := withLoopVar_eq hfree hspares
  have hfault := congrArg Prod.fst (heq.symm.trans h)
  exact hx e (x _).2 (Prod.ext hfault rfl)

end Refuses

/-! ### Statements -/

section Statements

variable {rs : List Resource}

variable {s : Session} {env : Env} {w w' : Workshop} {e : Fault} {pos : Position}

theorem fails_bindNames {names : List (Position × String)} {id : RegisterId} :
    Refuses (names.forM fun n => bindRegister n.1 n.2 id) s := by
  induction names generalizing s with
  | nil => exact refuses_pure _
  | cons n names ih =>
    refine Refuses.bind (fun e s' h => ?_) fun _ _ _ => ih
    obtain ⟨rfl, rfl⟩ := fails_bindRegister h
    exact .inl rfl

theorem refuses_declare (targets : List Expr) (width : Int) (s : Session) :
    Refuses (declare targets width) s := by
  refine Refuses.build_bind (fun e w h => ?_) fun id w hid => ?_
  · obtain h | ⟨_, _, -, h⟩ := fails_bind.mp h
    · exact (not_fails_newRegister h).elim
    · obtain h | ⟨_, _, -, h⟩ := fails_bind.mp h
      · exact (not_fails_modify h).elim
      · exact (not_fails_pure h).elim
  obtain ⟨_, _, ⟨rfl, rfl⟩, _, _, rfl, rfl, rfl⟩ := hid
  refine fails_bindNames.bind fun _ s' hnames => ?_
  obtain ⟨env, henv, rfl⟩ := gives_bindNames.mp hnames
  refine Refuses.build_bind (fun e w h => ?_) fun _ w _ => refuses_pure _
  obtain h | ⟨_, _, -, h⟩ := fails_bind.mp h
  · exact (fails_register ⟨_, by simp; rfl, rfl⟩ h).elim
  · exact (not_fails_note h).elim

theorem expected_store {v : Value} {t : Expr} (hopen : env.Open w)
    (h : Fails (store env v t) w e w') : e.Expected := by
  obtain ⟨h, -⟩ | ⟨id, hid, h⟩ := fails_ofExcept_bind.mp h
  · exact .inl (show w.Finds (.error e) from h ▸ finds_storeTarget hopen t)
  have hhas := hid ▸ finds_storeTarget hopen t
  obtain h | ⟨r, w₂, hr, hload⟩ := fails_bind.mp h
  · exact (fails_register hhas h).elim
  obtain ⟨-, rfl⟩ := gives_register.mp hr
  obtain h | ⟨u, w₃, hu, h⟩ := fails_bind.mp hload
  · exact (not_fails_ofFresh h).elim
  exact (fails_load ((onlyTags (extend_spec hu).1).registers id hhas) h).elim

theorem expected_stores {v : Value} {targets : List Expr} (hv : v.Solid) (hopen : env.Open w)
    (h : Fails (targets.mapM (store env v)) w e w') : e.Expected := by
  induction targets generalizing w with
  | nil => exact (not_fails_pure h).elim
  | cons t ts ih =>
    rw [mapM_cons] at h
    obtain h | ⟨st, w₁, hst, h⟩ := fails_bind.mp h
    · exact expected_store hopen h
    obtain ⟨id, source, -, hstores⟩ := gives_store hst
    obtain h | ⟨_, _, -, h⟩ := fails_bind.mp h
    · exact ih (hopen.mono (hstores.keeps hv hopen)) h
    · exact (not_fails_pure h).elim

theorem refuses_lowerAssign (targets : List Expr) {value : Expr} (hs : s.env.Plain rs)
    (hopen : s.env.Open s.shop) (hvalue : value.Linked) :
    Refuses (lowerAssign targets value) s := by
  have heval := evaluates_lowerOperand hs hopen hvalue
  refine Refuses.build_bind (fun e w => (heval _).fails e w) fun operand w hoperand => ?_
  obtain ⟨htags, hsolid⟩ := (heval _).gives _ _ hoperand
  cases operand with
  | register width => exact refuses_declare targets width _
  | value v =>
    refine refuses_build fun e w' h => ?_
    obtain h | ⟨loads, w₁, -, h⟩ := fails_bind.mp h
    · exact expected_stores (hsolid v rfl) (hopen.mono (.onlyTags htags)) h
    · exact (not_fails_newState h).elim

theorem fails_sequence {r : Resource} {args : List Expr} (henv : env.Plain rs) (hopen : env.Open w)
    (hr : ∀ d, r ≠ .device d) (hargs : ∀ a ∈ args, a.Linked)
    (h : Fails (r.sequence env.lowerer args) w e w') :
    e.Expected ∨ ∃ name given wanted, e = .argument name given wanted := by
  cases r with
  | device d => exact absurd rfl (hr d)
  | sink c =>
    match args with
    | [] | _ :: _ :: _ => exact .inr ⟨_, _, _, (fails_throw.mp h).1⟩
    | [arg] =>
      obtain h | ⟨v, w₁, -, h⟩ := fails_bind.mp h
      · exact .inl ((evaluates_lowerExpr henv hopen (hargs arg (by simp))).fails e w' h)
      · exact (not_fails_send h).elim
  | source c =>
    match args with
    | [] | _ :: _ :: _ => exact .inr ⟨_, _, _, (fails_throw.mp h).1⟩
    | [arg] =>
      obtain ⟨h, -⟩ | ⟨id, hid, h⟩ := fails_ofExcept_bind.mp h
      · exact .inl (.inl (show w.Finds (.error e) from h ▸ finds_registerArg hopen arg))
      obtain h | ⟨label, w₁, hlabel, h⟩ := fails_bind.mp h
      · exact (not_fails_ofFresh h).elim
      obtain ⟨-, rfl⟩ := gives_fresh.mp hlabel
      have hhas := hid ▸ finds_registerArg (hopen.mono (.tick _)) arg
      obtain h | ⟨_, _, -, h⟩ := fails_bind.mp h
      · exact (fails_load hhas h).elim
      · exact (not_fails_pure h).elim

theorem expected_lowerYield {value : Option Expr} (henv : env.Plain rs) (hopen : env.Open w)
    (hvalue : ∀ x ∈ value, x.Linked) (h : Fails (lowerYield env pos value) w e w') :
    e.Expected := by
  have hthrow : ∀ {e' : Fault}, e'.isRefusal = true → Fails (throw e' : Build Block) w e w' →
      e.Expected := fun he' h => .inl ((fails_throw.mp h).1 ▸ he')
  unfold lowerYield at h
  split at h
  · rename_i func lp args rp
    split at h
    · split at h
      · exact hthrow rfl h
      · rename_i r hr
        obtain ⟨e', w₁, hseq, h⟩ := fails_tryCatch.mp h
        have hargs : ∀ a ∈ args, a.Linked := by
          cases hvalue _ rfl with
          | call hfunc hargs => exact hargs
        obtain he' | ⟨name, given, wanted, rfl⟩ :=
          fails_sequence henv hopen (henv.lookup hr).2 hargs hseq
        · obtain ⟨rfl, -⟩ : e = e' ∧ w' = w₁ := by
            split at h
            · obtain he' | he' := he' <;> cases he'
            · exact fails_throw.mp h
          exact he'
        · exact .inl ((fails_throw.mp h).1 ▸ rfl)
      · exact hthrow rfl h
    · exact hthrow rfl h
  · exact hthrow rfl h

theorem expected_guarded {empty : Fault} {body : Block} {test : Value}
    {orElse : Option (List Circuit.Stmt)} {block : State → Block} (he : empty.Expected)
    (h : Fails (guarded empty body test orElse block) w e w') : e.Expected := by
  unfold guarded at h
  split at h
  · exact (fails_throw.mp h).1 ▸ he
  · exact (not_fails_newState h).elim

theorem refuses_unroll {body : List Program.Stmt} {values : List Int64}
    (hbody : ∀ s : Session, s.env.Plain rs → s.env.Open s.shop → Refuses (lowerStmts .empty body) s)
    (hlinked : ∀ st ∈ body, st.Linked) (acc : Block) (hs : s.env.Plain rs)
    (hopen : s.env.Open s.shop) (hfree : s.env.lookup name = none) :
    Refuses (unroll name (lowerStmts .empty body) acc values) s := by
  induction values generalizing acc s with
  | nil => exact refuses_pure _
  | cons v vs ih =>
    have hpush := hs.push name v
    have hopush : ((s.env.push name (.int v)).getD s.env).Open s.shop := Env.All.push hopen trivial
    refine Refuses.bind (.withLoopVar hfree (hbody _ hpush hopush) (spares_lowerStmts body _ _))
      fun b s' h => ?_
    obtain ⟨s₁, env, h₁, hpop, rfl⟩ := gives_withLoopVar.mp h
    obtain ⟨p, -, hp⟩ := lowers_of_lowerStmts body .finish h₁ hpush.deviceless (.refl _)
    exact ih _ ((hp.advances hpush).2.pop hpop)
      (Env.All.pop (hp.keeps hpush hopush hlinked).opens hpop) (Env.lookup_of_pop hpop)

mutual

theorem refuses_lowerStmt (st : Program.Stmt) {s : Session} (hs : s.env.Plain rs)
    (hopen : s.env.Open s.shop) (hst : st.Linked) : Refuses (lowerStmt st) s := by
  match st with
  | .assign target others pos value =>
    cases hst with
    | assign hvalue => exact refuses_lowerAssign _ hs hopen hvalue
  | .cond pos test body orElse =>
    obtain ⟨htest, hbody, helse⟩ : test.Linked ∧ (∀ s ∈ body, s.Linked) ∧
        ∀ s ∈ orElse, s.Linked := by
      cases hst
      exact ⟨‹_›, ‹_›, ‹_›⟩
    have heval := evaluates_lowerExpr hs hopen htest
    refine Refuses.build_bind heval.fails fun t w ht => ?_
    have hopen₁ := hopen.mono (.onlyTags (heval.gives t w ht).1)
    refine (refuses_lowerStmts body .empty (s := ⟨s.env, w⟩) hs hopen₁ hbody).bind
      fun yes s₁ hyes => ?_
    obtain ⟨p, -, hp⟩ := lowers_of_lowerStmts body .finish hyes hs.deviceless (.refl _)
    have hs₁ := (hp.advances hs).2
    have hm := hp.keeps hs hopen₁ hbody
    exact (refuses_lowerStmts orElse .empty hs₁ hm.opens helse).bind
      fun no s₂ hno => refuses_build fun _ _ => expected_guarded (.inl rfl)
  | .loop pos test body =>
    obtain ⟨htest, hbody⟩ : test.Linked ∧ ∀ s ∈ body, s.Linked := by
      cases hst
      exact ⟨‹_›, ‹_›⟩
    have heval := evaluates_lowerExpr hs hopen htest
    refine Refuses.build_bind heval.fails fun t w ht => ?_
    have hopen₁ := hopen.mono (.onlyTags (heval.gives t w ht).1)
    exact (refuses_lowerStmts body .empty (s := ⟨s.env, w⟩) hs hopen₁ hbody).bind
      fun b s₁ hb => refuses_build fun _ _ => expected_guarded (.inl rfl)
  | .each pos target iter body =>
    have hbody : ∀ s ∈ body, s.Linked := by
      cases hst
      assumption
    refine Refuses.build_bind (fun e w h => .inl (isRefusal_loopTarget
      (fails_ofExcept.mp h).1)) fun name w hgives => ?_
    obtain ⟨hname, rfl⟩ := gives_ofExcept.mp hgives
    refine Refuses.build_bind (fun e w h => .inl (isRefusal_iterValues
      (fails_ofExcept.mp h).1)) fun values w hvalues => ?_
    obtain ⟨-, rfl⟩ := gives_ofExcept.mp hvalues
    have hfree := lookup_of_loopTarget hname
    refine (refuses_unroll (fun s hs hopen => refuses_lowerStmts body .empty hs hopen hbody) hbody
      .empty hs hopen hfree).bind fun b s₁ hb => ?_
    exact Refuses.build_bind (fun e w h => (not_fails_note h).elim)
      fun _ _ _ => refuses_pure _
  | .expr e =>
    cases hst with
    | expr hlinked =>
      cases hlinked with
      | yield hvalue =>
        rw [lowerStmt]
        exact refuses_build fun e w h => expected_lowerYield hs hopen hvalue h
      | _ => exact refuses_throw rfl
  | .funcDef .. | .ret .. | .pass .. | .brk .. | .cont .. => exact refuses_throw rfl

/-- Statements that are not lowered are refused. -/
theorem refuses_lowerStmts (ss : List Program.Stmt) (acc : Block) {s : Session}
    (hs : s.env.Plain rs) (hopen : s.env.Open s.shop) (hss : ∀ st ∈ ss, st.Linked) :
    Refuses (lowerStmts acc ss) s := by
  match ss with
  | [] =>
    exact refuses_pure acc
  | st :: ss =>
    obtain ⟨hst, hrest⟩ := forall_mem_cons.mp hss
    refine (refuses_lowerStmt st hs hopen hst).bind fun b s₁ hb => ?_
    obtain ⟨p, -, hp⟩ := lowers_of_lowerStmt st hb hs.deviceless
    exact refuses_lowerStmts ss _ (hp.advances hs).2 (hp.keeps hs hopen hst).opens hrest

end

end Statements

/-! ### The scope of loop variables -/

/-- **Loop variables are bound in the body of their loop and nowhere else**, in every session. A
loop whose target is bound in any way is refused, and nothing is changed. Otherwise the variable can
be bound for each copy of the body, and the copy is lowered in exactly that scope; wherever lowering
comes to in the copy, the variable is active and stands for its integer; and it can be unbound
behind the copy, with whatever the copy has ended in. When lowering of the loop ends or fails, the
variable is not bound, the active loop variables are those from before, and at most other names that
the body assigns have become names of registers. Nor can the name of an active loop variable be
taken: a declaration of a register under it is refused. So lowering never finds the loop variables
out of order, where every resource is a channel (a device may fail as it likes). -/
theorem loop_variables_scoped (t : Session) :
    (∀ pos p name iter body, t.env.lookup name ≠ none →
      Fails (lowerStmt (.each pos (.name p name) iter body)) t (.scope p name .alreadyBound) t) ∧
    (∀ pos target iter body name, loopTarget t.env target = .ok name →
      (∀ us v vs b s, iterValues t.env iter = .ok (us ++ v :: vs) →
        Gives (unroll name (lowerStmts .empty body) .empty us) t b s →
        ∃ env, s.env.push name (.int v) = some env ∧ (∀ ss s', Meets body ⟨env, s.shop⟩ ss s' →
            name ∈ s'.env.loopVars ∧ s'.env.lookup name = some (.int v)) ∧
          ∃ env', (left (lowerStmts .empty body) ⟨env, s.shop⟩).pop name = some env' ∧
            withLoopVar name v (lowerStmts .empty body) s =
              ((lowerStmts .empty body ⟨env, s.shop⟩).1,
                ⟨env', (lowerStmts .empty body ⟨env, s.shop⟩).2.shop⟩)) ∧
      (left (lowerStmt (.each pos target iter body)) t).lookup name = none ∧
      t.env.Grows ((assignedAll body).filter (· ≠ name))
        (left (lowerStmt (.each pos target iter body)) t)) ∧
    (∀ target others pos value width n s₁,
      Gives (Lower.build fun env => lowerOperand env value
        ((target :: others).all fun t => (targetName? t).isSome)) t (.register width) s₁ →
      n ∈ assigned (.assign target others pos value) → n ∈ t.env.loopVars →
      ∃ p m s', Fails (lowerStmt (.assign target others pos value)) t
        (.scope p m .loopVariable) s' ∧ (p, m) ∈ (target :: others).filterMap targetName? ∧
          m ∈ t.env.loopVars) ∧
    ∀ rs acc ss name s', t.env.Plain rs → t.env.Open t.shop → (∀ st ∈ ss, st.Linked) →
      ¬ Fails (lowerStmts acc ss) t (.unbalanced name) s' := by
  refine ⟨fun pos p name iter body hbound => ?_,
    fun pos target iter body name hname => ⟨?_, ?_, ?_⟩,
    fun target others pos value width n s₁ hoperand hn hactive => ?_,
    fun rs acc ss name s' hplain hopen hlinked hfails => ?_⟩
  · rw [lowerStmt]
    refine fails_bind.mpr (.inl (Lower.fails_build.mpr ⟨t.shop, ?_, rfl⟩))
    exact Build.fails_ofExcept.mpr ⟨if_pos (Option.isSome_iff_ne_none.mpr hbound), rfl⟩
  · intro us v vs b s hvs hus
    have hgrows := grows_of_unroll hname hus
    have hfree := hgrows.lookup_eq_none (by simp) (lookup_of_loopTarget hname)
    have hpush : s.env.push name (.int v) =
        some ⟨s.env.bindings ++ [(name, .int v)], name :: s.env.loopVars⟩ := by
      simp [Env.push, Env.set, hfree]
    obtain ⟨env', hpop, -, heq⟩ := withLoopVar_eq hfree (v := v) (spares_lowerStmts body .empty _)
    rw [hpush] at hpop heq
    refine ⟨_, hpush, fun ss s' hmeets => hmeets.lookup_eq mem_cons_self ?_, env', hpop, heq⟩
    rw [Env.lookup, lookup_append, show s.env.bindings.lookup name = none from hfree]
    simp
  · exact Env.Grows.lookup_eq_none (spares_each hname (spares_lowerStmts body _)) (by simp)
      (lookup_of_loopTarget hname)
  · exact spares_each hname (spares_lowerStmts body _)
  · rw [lowerStmt]
    exact fails_lowerAssign hoperand hn hactive
  · obtain h | h := refuses_lowerStmts ss acc hplain hopen hlinked _ _ hfails <;> cases h

/-- A session in which nothing was made yet. -/
def untouched : Session := ⟨⟨[("Register", .intrinsic .register)], []⟩, .new 0⟩

/-- The statement `a = Register(8)`. -/
def declaration : Program.Stmt :=
  .assign (.name ⟨2, 3⟩ "a") [] ⟨2, 5⟩
    (.call (.name ⟨2, 7⟩ "Register") ⟨2, 15⟩ [.int ⟨2, 16⟩ 8 "8"] ⟨2, 17⟩)

/-- The statement `for i in [7]: a = Register(8)`. -/
def declaring : Program.Stmt :=
  .each ⟨1, 1⟩ (.name ⟨1, 5⟩ "i") (.list ⟨1, 10⟩ [.int ⟨1, 11⟩ 7 "7"] ⟨1, 12⟩) [declaration]

/-- The loop binds its variable to the integer while its body is lowered, and releases it. -/
theorem declaring_scoped :
    loopTarget untouched.env (.name ⟨1, 5⟩ "i") = .ok "i" ∧
    (∃ env, untouched.env.push "i" (.int 7) = some env ∧
      ∀ ss s', Meets [declaration] ⟨env, untouched.shop⟩ ss s' →
        "i" ∈ s'.env.loopVars ∧ s'.env.lookup "i" = some (.int 7)) ∧
    (left (lowerStmt declaring) untouched).lookup "i" = none ∧
    untouched.env.Grows ["a"] (left (lowerStmt declaring) untouched) := by
  have hname : loopTarget untouched.env (.name ⟨1, 5⟩ "i") = .ok "i" := rfl
  obtain ⟨hcopies, hleft⟩ := (loop_variables_scoped untouched).2.1 ⟨1, 1⟩ _
    (.list ⟨1, 10⟩ [.int ⟨1, 11⟩ 7 "7"] ⟨1, 12⟩) [declaration] "i" hname
  obtain ⟨env, hpush, hmeets, -⟩ := hcopies [] 7 [] _ untouched rfl rfl
  exact ⟨hname, ⟨env, hpush, hmeets⟩, hleft⟩

end Sequencer.Lowering
