import Mathlib.Logic.Relation
import Sequencer.Proofs.Design.Statements
import Sequencer.Proofs.Lowering.Counting

/-!
# The control flow of a design

The states of a design form a graph. The way on from a statement is added by whatever follows it, at
the front of states that were made deep inside the statement, so no place of the compiler shows that
the graph is connected. Plans do: all states of a part of a plan are reached from its entry. Devices
are excluded, since they bring states of their own.
-/

namespace Sequencer

open List
open Circuit Lowering Relation Duty Binding Design

namespace Lowering

/-! ### Paths through a plan -/

/-- A node with the label `a` may go to `b`. -/
def Leads (nodes : List Node) (a b : StateId) : Prop := ∃ n ∈ nodes, n.label = a ∧ b ∈ n.jumps

theorem Leads.mono {ns ms : List Node} (h : ns ⊆ ms) {a b : StateId} (hl : Leads ns a b) :
    Leads ms a b := by
  obtain ⟨n, hn, hab⟩ := hl
  exact ⟨n, h hn, hab⟩

theorem reaches_mono {ns ms : List Node} (h : ns ⊆ ms) {a b : StateId}
    (hr : ReflTransGen (Leads ns) a b) : ReflTransGen (Leads ms) a b :=
  ReflTransGen.mono (fun _ _ hl => Leads.mono h hl) a b hr

namespace Plan

variable {p : Plan} {after : Option StateId}

theorem exists_entry {l : StateId} (h : l ∈ p.labels ∨ after = some l) :
    ∃ e, p.entry after = some e := by
  cases p with
  | finish => exact ⟨l, h.resolve_left (by simp [labels])⟩
  | act label | cond label | loop label => exact ⟨label, rfl⟩

/-- **Control can get anywhere in a plan, and out of it**: from its entry every state can be
reached, and what follows. -/
theorem Guarded.reaches (hp : p.Guarded) {e : StateId} (he : p.entry after = some e) {l : StateId}
    (hl : l ∈ p.labels ∨ after = some l) : ReflTransGen (Leads (p.nodes after)) e l := by
  induction p generalizing after e l with
  | finish =>
    obtain hl | hl := hl
    · simp [labels] at hl
    · cases he.symm.trans hl
      exact .refl
  | act label a rest ih =>
    obtain rfl : label = e := by simpa [entry] using he
    simp only [labels, mem_cons, or_assoc] at hl
    obtain rfl | hl := hl
    · exact .refl
    obtain ⟨next, hnext⟩ := exists_entry hl
    refine .head ⟨_, mem_cons_self, rfl, ?_⟩
      (reaches_mono (subset_cons_self _ _) (ih hp hnext hl))
    simp [Node.jumps, hnext]
  | cond label test yes no rest ihy ihn ih =>
    obtain ⟨hne, hy, hno, hr⟩ := hp
    obtain rfl : label = e := by simpa [entry] using he
    obtain ⟨first, -, hfirst⟩ := entry_mem hne
    -- A guard with an alternative has no way on of its own, but its first branch always has one.
    have hyes : ∀ {l}, l ∈ yes.labels ∨ rest.entry after = some l →
        ReflTransGen (Leads ((cond label test yes no rest).nodes after)) label l := by
      intro l hl
      refine .head ⟨_, mem_cons_self, rfl, ?_⟩
        (reaches_mono ?_ (ihy hy (hfirst _) hl))
      · simp [Node.jumps, jumps, hfirst]
      · exact fun n hn => by simp [nodes, hn]
    simp only [labels, mem_cons, mem_append, or_assoc] at hl
    obtain rfl | hl | hl | hl := hl
    · exact .refl
    · exact hyes (.inl hl)
    · have hne' : no ≠ finish := by
        rintro rfl
        simp [labels] at hl
      obtain ⟨first', -, hfirst'⟩ := entry_mem hne'
      refine .head ⟨_, mem_cons_self, rfl, ?_⟩
        (reaches_mono ?_ (ihn hno (hfirst' (rest.entry after)) (.inl hl)))
      · simp [Node.jumps, jumps, hfirst']
      · exact fun n hn => by simp [nodes, hn]
    · obtain ⟨next, hnext⟩ := exists_entry hl
      refine (hyes (.inr hnext)).trans (reaches_mono ?_ (ih hr hnext hl))
      exact fun n hn => by simp [nodes, hn]
  | loop label test body rest ihb ih =>
    obtain ⟨hne, hb, hr⟩ := hp
    obtain rfl : label = e := by simpa [entry] using he
    simp only [labels, mem_cons, mem_append, or_assoc] at hl
    obtain rfl | hl | hl := hl
    · exact .refl
    · obtain ⟨first, -, hfirst⟩ := entry_mem hne
      refine .head ⟨_, mem_cons_self, rfl, ?_⟩
        (reaches_mono ?_ (ihb hb (hfirst (some label)) (.inl hl)))
      · simp [Node.jumps, jumps, hfirst]
      · exact fun n hn => by simp [nodes, hn]
    · obtain ⟨next, hnext⟩ := exists_entry hl
      refine .head ⟨_, mem_cons_self, rfl, ?_⟩ (reaches_mono ?_ (ih hr hnext hl))
      · simp [Node.jumps, hnext]
      · exact fun n hn => by simp [nodes, hn]

/-! ### Exits -/

/-- Control leaves a guarded plan from some state. -/
theorem Guarded.exits_ne_nil (hp : p.Guarded) (h : p ≠ finish) : p.exits ≠ [] := by
  induction p with
  | finish => exact absurd rfl h
  | act label a rest ih =>
    rw [exits]
    split
    · simp
    · rename_i hrest
      exact ih hp (by simpa using hrest)
  | cond label test yes no rest ihy ihn ih =>
    obtain ⟨hne, hy, -, hr⟩ := hp
    rw [exits]
    split
    · simp [ihy hy hne]
    · rename_i hrest
      exact ih hr (by simpa using hrest)
  | loop label test body rest ihb ih =>
    rw [exits]
    split
    · simp
    · rename_i hrest
      exact ih hp.2.2 (by simpa using hrest)

/-- No state is listed twice among those from which control leaves. -/
theorem nodup_exits (h : p.labels.Nodup) : p.exits.Nodup := by
  induction p with
  | finish => simp [exits]
  | act label a rest ih =>
    rw [exits]
    split
    · simp
    · exact ih (nodup_cons.mp h).2
  | cond label test yes no rest ihy ihn ih =>
    rw [labels, nodup_cons, nodup_append', nodup_append'] at h
    obtain ⟨hlabel, ⟨hy, hn, hyn⟩, hr, -⟩ := h
    rw [exits]
    split
    · have hyn' : (yes.exits ++ no.exits).Nodup :=
        nodup_append'.mpr ⟨ihy hy, ihn hn,
          fun x hx hx' => hyn (exits_subset_labels _ hx) (exits_subset_labels _ hx')⟩
      split
      · refine nodup_append'.mpr ⟨hyn', by simp, ?_⟩
        have hsub : yes.exits ++ no.exits ⊆ yes.labels ++ no.labels ++ rest.labels := by
          intro x hx
          obtain hx | hx := mem_append.mp hx
          · simp [exits_subset_labels _ hx]
          · simp [exits_subset_labels _ hx]
        intro x hx hx'
        obtain rfl := mem_singleton.mp hx'
        exact hlabel (hsub hx)
      · rwa [append_nil]
    · exact ih hr
  | loop label test body rest ihb ih =>
    rw [labels, nodup_cons, nodup_append'] at h
    rw [exits]
    split
    · simp
    · exact ih h.2.2.1

end Plan

variable {s s' : Session}

theorem Lowers.guarded {j : Job} {p : Plan} (h : Lowers s j p s') : p.Guarded := by
  induction h with
  | nil | noCopy | declare | store | send | receive => trivial
  | cons first others ih₁ ih₂ => exact ih₁.append ih₂
  | cond value taken nonempty other ihy ihn => exact ⟨nonempty, ihy, ihn, trivial⟩
  | loop value repeated nonempty ih => exact ⟨nonempty, ih, trivial⟩
  | each fresh range copies ih => exact ih
  | copy first popped others ih₁ ih₂ => exact ih₁.append ih₂

/-- A block of `n` states. Control goes on from some of them if there are any, each of which is
listed once. -/
structure Block.Proper (b : Block) (n : Nat) : Prop where
  length : b.states.length = n
  exits_ne_nil : b.states ≠ [] → b.exits ≠ []
  nodup : b.exits.Nodup
  mem : ∀ x ∈ b.exits, ∃ s ∈ b.states, s.label = x

/-- **Control goes on from every block that has states.** -/
theorem Lowers.proper {j : Job} {p : Plan} (h : Lowers s j p s') (hfree : j.Free s.env) :
    p.block.Proper (j.stateCount s.env) := by
  refine ⟨h.length_states hfree, fun hne => ?_, p.nodup_exits h.tags.nodup, fun x hx => ?_⟩
  · refine h.guarded.exits_ne_nil ?_
    rintro rfl
    exact hne rfl
  · have hx := p.exits_subset_labels hx
    rw [← p.map_label_nodes none] at hx
    obtain ⟨n, hn, rfl⟩ := mem_map.mp hx
    exact ⟨n.state, mem_map_of_mem hn, rfl⟩

theorem proper_of_lowerStmt {st : Program.Stmt} {b : Block} (hs : s.env.All Deviceless)
    (h : Gives (lowerStmt st) s b s') : b.Proper (stateCount s.env st) := by
  obtain ⟨p, rfl, hp⟩ := lowers_of_lowerStmt st h hs
  exact hp.proper trivial

theorem proper_of_lowerStmts {ss : List Program.Stmt} {b : Block}
    (hs : s.env.All Deviceless) (h : Gives (lowerStmts .empty ss) s b s') :
    b.Proper (stateCounts s.env ss) := by
  obtain ⟨p, rfl, hp⟩ := lowers_of_lowerStmts ss .finish h hs (.refl _)
  exact hp.proper trivial

/-! ### Bodies of states -/

theorem Node.goto_mem_walk_body {n : Node} {load : RegisterId → SourceId → Stmt}
    (hload : ∀ id source, ∃ t v, load id source = .assign t v) {l : StateId} :
    goto l ∈ walk (n.body goto load) ↔ l ∈ n.jumps := by
  have hwalk : ∀ id source, goto l ∉ (load id source).walk := by
    intro id source
    obtain ⟨t, v, ht⟩ := hload id source
    simp [ht, Stmt.walk, goto]
  have hgoto : ∀ m, goto l ∈ (goto m).walk ↔ l = m := by
    simp [goto, Stmt.walk]
  obtain ⟨label, next, duty⟩ := n
  have hnext : goto l ∈ walk (next.toList.map goto) ↔ l ∈ next.toList := by
    simp [mem_walk_map, hgoto]
  have hduty : goto l ∈ walk (duty.body goto load label) ↔ l ∈ duty.jumps label := by
    cases duty with
    | store loads => simp [Duty.body, Act.body, mem_walk_map, hwalk, Duty.jumps]
    | send c data tag =>
      simp [Duty.body, Act.body, Duty.jumps, walk, Stmt.walk, walkOption, goto]
    | receive c id source =>
      obtain ⟨t, v, ht⟩ := hload id source
      simp [Duty.body, Act.body, Duty.jumps, walk, Stmt.walk, walkOption, goto, ht]
    | guard test yes no =>
      cases no with
      | none | some m => simp [Duty.body, Duty.jumps, walk, Stmt.walk, walkOption, goto]
  rw [Node.body, walk_append, mem_append, hnext, hduty, Node.jumps, mem_append]

theorem Duty.assign_or_branch {duty : Duty} {label : StateId} {load : RegisterId → SourceId → Stmt}
    (hload : ∀ id source, ∃ t v, load id source = .assign t v) {s : Stmt}
    (hs : s ∈ duty.body goto load label) :
    (∃ t v, s = .assign t v) ∨ ∃ test yes no, s = .branch test yes no := by
  cases duty with
  | store loads =>
    obtain ⟨x, -, rfl⟩ := mem_map.mp hs
    exact .inl (hload x.1 x.2)
  | send c data tag =>
    simp only [body, Act.body, mem_cons, not_mem_nil, or_false] at hs
    obtain rfl | rfl | rfl := hs
    · exact .inl ⟨_, _, rfl⟩
    · exact .inl ⟨_, _, rfl⟩
    · exact .inr ⟨_, _, _, rfl⟩
  | receive c id source =>
    simp only [body, Act.body, mem_cons, not_mem_nil, or_false] at hs
    obtain rfl | rfl := hs
    · exact .inl ⟨_, _, rfl⟩
    · exact .inr ⟨_, _, _, rfl⟩
  | guard test yes no =>
    obtain rfl := mem_singleton.mp hs
    exact .inr ⟨_, _, _, rfl⟩

theorem loadMarker_mem_walk_body {n : Node} {x : RegisterId × SourceId} (hx : x ∈ n.duty.loads) :
    loadMarker x.1 x.2 ∈ walk n.state.body := by
  obtain ⟨label, next, duty⟩ := n
  simp only [Node.state, Node.body, walk_append, mem_append]
  right
  cases duty with
  | store loads => exact mem_walk_map.mpr ⟨x, hx, by simp [loadMarker, Stmt.walk]⟩
  | send c data tag => simp [loads] at hx
  | receive c id source =>
    obtain rfl : x = (id, source) := by simpa [loads] using hx
    simp [body, Act.body, walk, Stmt.walk, loadMarker]
  | guard test yes no => simp [loads] at hx

end Lowering

/-! ### The states of a design -/

namespace Design

variable {b : Bank} {w w' : Workshop} {d : Design}

theorem resolveAll_eq_ok {nodes : List Node} {i : Nat} {ss : List State}
    (h : resolveAll b i (nodes.map Node.state) = .ok ss) : ss = nodes.map (resolvedState b) := by
  have hloads : ∀ n ∈ nodes, ∀ x ∈ n.duty.loads,
      b.resolveLoad (loadMarker x.1 x.2) = .ok (b.loadStmt x.1 x.2) := by
    induction nodes generalizing i ss with
    | nil => simp
    | cons n nodes ih =>
      rw [map_cons, resolveAll] at h
      split at h
      · cases h
      · rename_i body hbody
        obtain ⟨rest, hrest, -⟩ := Simulation.bind_eq_ok.mp h
        intro m hm x hx
        obtain rfl | hm := mem_cons.mp hm
        · obtain ⟨s', hs'⟩ := (exists_mapLeaves_iff _).mp ⟨_, hbody⟩ _
            (mem_filter.mpr ⟨loadMarker_mem_walk_body hx, rfl⟩)
          rw [hs', Bank.loadStmt_of_resolveLoad hs']
        · exact ih hrest m hm x hx
  exact Except.ok.inj (h.symm.trans (resolveAll_ok i hloads))

theorem states_of_realize {states : List State} {machine : Machine} {fragment : Fragment}
    (h : Gives (realize states) w (machine, fragment) w') : machine.states = states := by
  obtain ⟨r, w₁, hr, h⟩ := gives_bind.mp h
  cases r with
  | error e => exact (not_gives_throw h).elim
  | ok m =>
    dsimp only at h
    split at h
    · exact (not_gives_throw h).elim
    · cases gives_pure.mp h |>.1
      have hm : (Machine.realize (states.map some) w.supply).1 = .ok machine :=
        (Build.gives_ofFresh.mp hr).1
      rw [Machine.realize_eq] at hm
      cases hcollect : Machine.collect [] (states.map some) with
      | error e =>
        rw [hcollect] at hm
        cases hm
      | ok ss =>
        rw [hcollect] at hm
        cases hm
        obtain ⟨rest, hrest, rfl, -⟩ := Machine.collect_eq_ok (by simp) hcollect
        exact (List.map_inj_right (fun _ _ h => Option.some.inj h)).mp hrest.symm

theorem states_of_assemble {name : String} {states : List State} {rs : List Resource}
    (h : Gives (assemble name states rs) w d w') : ∃ b, resolveAll b 0 states = .ok d.states := by
  obtain ⟨_, _, -, h⟩ := gives_bind.mp h
  obtain ⟨_, _, -, h⟩ := gives_bind.mp h
  obtain ⟨_, _, -, h⟩ := gives_bind.mp h
  obtain ⟨w₁, _, -, h⟩ := gives_bind.mp h
  obtain ⟨resolved, hresolved, h⟩ := Build.gives_ofExcept_bind.mp h
  obtain ⟨⟨machine, transitions⟩, w₂, hrealize, h⟩ := gives_bind.mp h
  refine ⟨w₁.bank, ?_⟩
  rw [hresolved, ← states_of_realize hrealize]
  dsimp only at h
  split at h
  · exact (not_gives_throw h).elim
  · obtain ⟨rfl, -⟩ := gives_pure.mp h
    rfl

/-- The states of a design are those of a plan, with the loads resolved. -/
theorem states_of_compile {text : List Char} {o : Options}
    (hchannels : ∀ dev, .device dev ∉ o.resources) (h : Gives (compile text o) w d w') :
    ∃ m name body env s' p b, readProgram text = .ok m ∧ onlyFunction m = .ok (name, body) ∧
      o.env = .ok env ∧ Lowers ⟨env, w⟩ (.block body) p s' ∧
        d.states = (p.nodes none).map (resolvedState b) := by
  obtain ⟨m, name, body, env, block, s', hm, hbody, henv, hlower, hassemble⟩ := gives_compile.mp h
  obtain ⟨p, rfl, hp⟩ :=
    lowers_of_lowerStmts body .finish hlower (deviceless_env hchannels henv) (.refl _)
  obtain ⟨b, hresolved⟩ := states_of_assemble hassemble
  exact ⟨m, name, body, env, s', p, b, hm, hbody, henv, hp, resolveAll_eq_ok hresolved⟩

/-! ### The graph of a design -/

/-- The body of the state `a` names the state `b`. -/
def Transition (d : Design) (a b : StateId) : Prop :=
  ∃ s ∈ d.states, s.label = a ∧ goto b ∈ walk s.body

/-- The states of a design form a well-formed graph. -/
structure ControlFlow (d : Design) : Prop where
  distinct : (d.states.map State.label).Nodup
  /-- Every state can be reached from the first one. -/
  reachable : ∀ first ∈ d.states.head?, ∀ s ∈ d.states,
    ReflTransGen d.Transition first.label s.label
  /-- Every transition leads to a state of the design. -/
  closed : ∀ a b, d.Transition a b → ∃ s ∈ d.states, s.label = b
  /-- A transition that no branch is around is the first statement of its state. -/
  default : ∀ s ∈ d.states, ∃ (next : Option StateId) (rest : List Stmt),
    s.body = next.toList.map goto ++ rest ∧
      ∀ st ∈ rest, (∃ t v, st = .assign t v) ∨ ∃ test yes no, st = .branch test yes no

theorem transition_iff {nodes : List Node} (h : d.states = nodes.map (resolvedState b))
    {x y : StateId} : d.Transition x y ↔ Leads nodes x y := by
  have hload : ∀ id source, ∃ t v, b.loadStmt id source = .assign t v := fun _ _ => ⟨_, _, rfl⟩
  constructor
  · rintro ⟨s, hs, rfl, hgoto⟩
    rw [h] at hs
    obtain ⟨n, hn, rfl⟩ := mem_map.mp hs
    exact ⟨n, hn, rfl, (Node.goto_mem_walk_body hload).mp hgoto⟩
  · rintro ⟨n, hn, rfl, hjump⟩
    refine ⟨resolvedState b n, ?_, rfl, (Node.goto_mem_walk_body hload).mpr hjump⟩
    rw [h]
    exact mem_map_of_mem hn

theorem controlFlow_of_states {p : Plan} (hp : p.Guarded) (hnodup : p.labels.Nodup)
    (h : d.states = (p.nodes none).map (resolvedState b)) : d.ControlFlow := by
  have hlabels : d.states.map State.label = p.labels := by
    rw [h, List.map_map]
    exact p.map_label_nodes none
  refine ⟨hlabels ▸ hnodup, fun first hfirst s hs => ?_, fun x y hxy => ?_, fun s hs => ?_⟩
  · have hentry : p.entry none = some first.label := by
      have hhead : p.labels.head? = p.entry none := by cases p <;> rfl
      rw [← hhead, ← hlabels, head?_map, Option.mem_def.mp hfirst, Option.map_some]
    have hs : s.label ∈ p.labels := hlabels ▸ mem_map_of_mem hs
    exact ReflTransGen.mono (fun _ _ hl => (transition_iff h).mpr hl) _ _
      (hp.reaches hentry (.inl hs))
  · obtain ⟨n, hn, -, hjump⟩ := (transition_iff h).mp hxy
    have hy := (hp.jumps_of_mem_nodes hn y hjump).resolve_right (by simp)
    rw [← hlabels] at hy
    exact mem_map.mp hy
  · rw [h] at hs
    obtain ⟨n, -, rfl⟩ := mem_map.mp hs
    exact ⟨n.next, n.duty.body goto b.loadStmt n.label, rfl,
      fun st hst => assign_or_branch (fun _ _ => ⟨_, _, rfl⟩) hst⟩

end Design

/-- **The control flow of every compiled design is well formed.** So are the blocks that it is made
of, and the number of states can be read off the program. -/
theorem compiled_control_flow {text : List Char} {o : Options} {d : Design} {w w' : Workshop}
    (hchannels : ∀ dev, .device dev ∉ o.resources) (h : Gives (compile text o) w d w') :
    d.ControlFlow ∧
    (∀ s st b s', s.env.All Deviceless → Gives (lowerStmt st) s b s' →
      b.Proper (stateCount s.env st)) ∧
    (∀ s ss b s', s.env.All Deviceless → Gives (lowerStmts .empty ss) s b s' →
      b.Proper (stateCounts s.env ss)) ∧
    ∃ m name body env, readProgram text = .ok m ∧ onlyFunction m = .ok (name, body) ∧
      o.env = .ok env ∧ d.states.length = stateCounts env body := by
  obtain ⟨m, name, body, env, s', p, b, hm, hbody, henv, hp, hstates⟩ :=
    states_of_compile hchannels h
  refine ⟨controlFlow_of_states hp.guarded hp.tags.nodup hstates,
    fun s st b s' hs => proper_of_lowerStmt hs, fun s ss b s' hs => proper_of_lowerStmts hs,
    m, name, body, env, hm, hbody, henv, ?_⟩
  have hlength : p.block.states.length = stateCounts env body := hp.length_states trivial
  rw [hstates, ← hlength, Plan.block, List.length_map, List.length_map]

/-- A program with a conditional and a `for` loop inside a `while` loop. -/
def burstText : List Char :=
  ("def burst():\n    r = Register(8)\n    while r < limit:\n        yield rx(r)\n"
    ++ "        if r == 3:\n            r.store = r + 1\n        else:\n            r.store = 0\n"
    ++ "        for i in range(N):\n            yield tx(i)\n").toList

def burstOptions : Options where
  scope := [("N", 2)]
  values := [("limit", .signal ⟨0, "limit", 8, 0⟩)]
  resources := [.source ((Channel.new "rx" 8) 1).1, .sink ((Channel.new "tx" 8) 4).1]

/-- Its seven states form a well-formed graph: the test of the loop and what is received, the test
inside with its two stores, and two states in which an integer is sent. -/
theorem burst_control_flow : ∃ d w', Gives (compile burstText burstOptions) (.new 7) d w' ∧
    d.ControlFlow ∧ ∃ m name body env, readProgram burstText = .ok m ∧
      onlyFunction m = .ok (name, body) ∧ burstOptions.env = .ok env ∧
      d.states.length = 7 ∧ stateCounts env body = 7 := by
  obtain ⟨d, w', hd, hlength⟩ : ∃ d w', Gives (compile burstText burstOptions) (.new 7) d w' ∧
      d.states.length = 7 := by
    decide +kernel
  have hchannels : ∀ dev, .device dev ∉ burstOptions.resources := by simp [burstOptions]
  obtain ⟨hflow, -, -, m, name, body, env, hm, hbody, henv, hcount⟩ :=
    compiled_control_flow hchannels hd
  exact ⟨d, w', hd, hflow, m, name, body, env, hm, hbody, henv, hlength, hcount ▸ hlength⟩

end Sequencer
