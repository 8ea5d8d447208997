import Mathlib.Data.List.Nodup
import Mathlib.Tactic.Common
import Sequencer.Design

/-!
# Plans

Lowering builds a block of states and goes back to patch it. A **plan** is the same block before it
is cut into states, a tree that follows the statements of the program. What follows a part of it is
known when its states are read off, so nothing has to be patched.
-/

namespace Sequencer.Lowering

open List
open Circuit Block

/-- What a state does that does not branch on a test of the program. -/
inductive Act where
  | store (loads : List (RegisterId × SourceId))
  | send (c : Channel) (data : Value) (tag : Nat)
  | receive (c : Channel) (id : RegisterId) (source : SourceId)

/-- What a state does: it acts, or it goes to `yes` if a test holds and to `no` otherwise. -/
inductive Duty where
  | act (a : Act)
  | guard (test : Value) (yes : StateId) (no : Option StateId)

@[cases_eliminator]
theorem Duty.byKind {motive : Duty → Prop} (store : ∀ loads, motive (.act (.store loads)))
    (send : ∀ c data tag, motive (.act (.send c data tag)))
    (receive : ∀ c id source, motive (.act (.receive c id source)))
    (guard : ∀ test yes no, motive (.guard test yes no)) : ∀ duty, motive duty
  | .act (.store loads) => store loads
  | .act (.send c data tag) => send c data tag
  | .act (.receive c id source) => receive c id source
  | .guard test yes no => guard test yes no

/-- A state of a plan, with the state that follows unless its duty says otherwise. -/
structure Node where
  label : StateId
  next : Option StateId
  duty : Duty

section Bodies

variable (jump : StateId → Stmt) (load : RegisterId → SourceId → Stmt)

/-- The test of a sink that has not been acknowledged. -/
def waiting (c : Channel) (tag : Nat) : Value :=
  .binary tag .eq (.signal c.ack) (.ofLiteral (.sized 0 1))

/-- The statements of an act in the state `label`. A sink offers until it is acknowledged and a
source asks until it is strobed; until then the state goes to itself. -/
def Act.body (label : StateId) : Act → List Stmt
  | .store loads => loads.map fun l => load l.1 l.2
  | .send c data tag =>
    [.assign c.stb Resource.high, .assign c.data data, .branch (waiting c tag) [jump label] none]
  | .receive c id source =>
    [.assign c.ack Resource.high, .branch (.signal c.stb) [load id source] (some [jump label])]

def Duty.body (label : StateId) : Duty → List Stmt
  | .act a => a.body jump load label
  | .guard test yes no => [.branch test [jump yes] (no.map fun l => [jump l])]

/-- The statements of a state. The way on comes first, so that whatever the duty says wins. -/
def Node.body (n : Node) : List Stmt :=
  n.next.toList.map jump ++ n.duty.body jump load n.label

end Bodies

def loadMarker (id : RegisterId) (source : SourceId) : Stmt := .marker (.load id source)

/-- The state as lowering builds it, with transitions and loads as markers. -/
def Node.state (n : Node) : State := ⟨n.label, n.body goto loadMarker⟩

/-- A piece of a program with a label for each step of it. -/
inductive Plan where
  | finish
  | act (label : StateId) (a : Act) (rest : Plan)
  | cond (label : StateId) (test : Value) (yes no rest : Plan)
  | loop (label : StateId) (test : Value) (body rest : Plan)

namespace Plan

/-- The state in which a plan begins, if `after` is the one in which the rest begins. -/
def entry : Plan → Option StateId → Option StateId
  | finish, after => after
  | act label .., _ => some label
  | cond label .., _ => some label
  | loop label .., _ => some label

def append : Plan → Plan → Plan
  | finish, q => q
  | act label a rest, q => act label a (rest.append q)
  | cond label test yes no rest, q => cond label test yes no (rest.append q)
  | loop label test body rest, q => loop label test body (rest.append q)

def labels : Plan → List StateId
  | finish => []
  | act label _ rest => label :: rest.labels
  | cond label _ yes no rest => label :: (yes.labels ++ no.labels ++ rest.labels)
  | loop label _ body rest => label :: (body.labels ++ rest.labels)

def isFinish : Plan → Bool
  | finish => true
  | _ => false

/-- The states of a plan that is followed by `after`. A guard without an alternative falls through
to what follows, so it has it as its own way on; a loop is what follows its own body. -/
def nodes : Plan → Option StateId → List Node
  | finish, _ => []
  | act label a rest, after => ⟨label, rest.entry after, .act a⟩ :: rest.nodes after
  | cond label test yes no rest, after =>
    ⟨label, if no.isFinish then rest.entry after else none,
        .guard test ((yes.entry none).getD 0) (no.entry none)⟩ ::
      (yes.nodes (rest.entry after) ++ no.nodes (rest.entry after) ++ rest.nodes after)
  | loop label test body rest, after =>
    ⟨label, rest.entry after, .guard test ((body.entry none).getD 0) none⟩ ::
      (body.nodes (some label) ++ rest.nodes after)

def duties : Plan → List Duty
  | finish => []
  | act _ a rest => .act a :: rest.duties
  | cond _ test yes no rest =>
    .guard test ((yes.entry none).getD 0) (no.entry none) ::
      (yes.duties ++ no.duties ++ rest.duties)
  | loop _ test body rest =>
    .guard test ((body.entry none).getD 0) none :: (body.duties ++ rest.duties)

def exits : Plan → List StateId
  | finish => []
  | act label _ rest => if rest.isFinish then [label] else rest.exits
  | cond label _ yes no rest =>
    if rest.isFinish then yes.exits ++ no.exits ++ (if no.isFinish then [label] else [])
    else rest.exits
  | loop label _ _ rest => if rest.isFinish then [label] else rest.exits

/-- No guard stands in front of nothing. -/
def Guarded : Plan → Prop
  | finish => True
  | act _ _ rest => rest.Guarded
  | cond _ _ yes no rest => yes ≠ finish ∧ yes.Guarded ∧ no.Guarded ∧ rest.Guarded
  | loop _ _ body rest => body ≠ finish ∧ body.Guarded ∧ rest.Guarded

def block (p : Plan) : Block := ⟨(p.nodes none).map Node.state, p.exits⟩

variable {p : Plan}

@[simp]
theorem isFinish_eq_true : p.isFinish = true ↔ p = finish := by
  cases p <;> simp [isFinish]

@[simp]
theorem isFinish_eq_false : p.isFinish = false ↔ p ≠ finish := by
  cases p <;> simp [isFinish]

@[simp]
theorem entry_finish (after : Option StateId) : finish.entry after = after := rfl

theorem entry_append (p q : Plan) (after : Option StateId) :
    (p.append q).entry after = p.entry (q.entry after) := by
  cases p <;> rfl

theorem entry_eq (h : p ≠ finish) (f g : Option StateId) : p.entry f = p.entry g := by
  cases p <;> simp_all [entry]

theorem nodes_append (p q : Plan) (after : Option StateId) :
    (p.append q).nodes after = p.nodes (q.entry after) ++ q.nodes after := by
  induction p with
  | finish => rfl
  | act _ _ _ ih | cond _ _ _ _ _ _ _ ih | loop _ _ _ _ _ ih =>
    simp [append, nodes, ih, entry_append]

theorem Guarded.append {p q : Plan} (hp : p.Guarded) (hq : q.Guarded) : (p.append q).Guarded := by
  induction p with
  | finish => exact hq
  | act label a rest ih => exact ih hp
  | cond label test yes no rest _ _ ih => exact ⟨hp.1, hp.2.1, hp.2.2.1, ih hp.2.2.2⟩
  | loop label test body rest _ ih => exact ⟨hp.1, hp.2.1, ih hp.2.2⟩

theorem map_label_nodes (p : Plan) (after : Option StateId) :
    (p.nodes after).map Node.label = p.labels := by
  induction p generalizing after with
  | finish => rfl
  | act label a rest ih => simp [nodes, labels, ih]
  | cond label test yes no rest ihy ihn ih => simp [nodes, labels, ih, ihy, ihn]
  | loop label test body rest ihb ih => simp [nodes, labels, ih, ihb]

theorem map_duty_nodes (p : Plan) (after : Option StateId) :
    (p.nodes after).map Node.duty = p.duties := by
  induction p generalizing after with
  | finish => rfl
  | act label a rest ih => simp [nodes, duties, ih]
  | cond label test yes no rest ihy ihn ih => simp [nodes, duties, ih, ihy, ihn]
  | loop label test body rest ihb ih => simp [nodes, duties, ih, ihb]

theorem labels_append (p q : Plan) : (p.append q).labels = p.labels ++ q.labels := by
  rw [← map_label_nodes _ none, nodes_append, map_append, map_label_nodes, map_label_nodes]

theorem duties_append (p q : Plan) : (p.append q).duties = p.duties ++ q.duties := by
  rw [← map_duty_nodes _ none, nodes_append, map_append, map_duty_nodes, map_duty_nodes]

theorem duty_mem_duties {after : Option StateId} {n : Node} (h : n ∈ p.nodes after) :
    n.duty ∈ p.duties := by
  rw [← p.map_duty_nodes after]
  exact mem_map_of_mem h

theorem exits_subset_labels (p : Plan) : p.exits ⊆ p.labels := by
  induction p with
  | finish => simp [exits]
  | act label a rest ih =>
    simp only [exits, labels]
    split
    · simp
    · exact subset_cons_of_subset _ ih
  | cond label test yes no rest ihy ihn ih =>
    simp only [exits, labels]
    intro x hx
    split at hx
    · grind
    · grind
  | loop label test body rest _ ih =>
    simp only [exits, labels]
    split
    · simp
    · grind

end Plan

namespace Block

theorem connect_append (a b : List State) (xs : List StateId) (t : StateId) :
    connect (a ++ b) xs t = connect a xs t ++ connect b xs t := by
  induction xs generalizing a b with
  | nil => rfl
  | cons x xs ih => simpa [connect] using ih _ _

theorem connect_exits_append (ss : List State) (xs ys : List StateId) (t : StateId) :
    connect ss (xs ++ ys) t = connect (connect ss xs t) ys t := by
  simp [connect]

variable {xs : List StateId}

theorem connect_of_notMem {ss : List State} (t : StateId) (h : ∀ s ∈ ss, s.label ∉ xs) :
    connect ss xs t = ss := by
  induction xs with
  | nil => rfl
  | cons x xs ih =>
    have hx : ss.map (fun s => if s.label = x then s.prepend (goto t) else s) = ss := by
      conv_rhs => rw [← map_id ss]
      refine map_congr_left fun s hs => ?_
      have : s.label ≠ x := fun e => h s hs (by simp [e])
      simp [this]
    simp only [connect, foldl_cons, hx]
    exact ih fun s hs hm => h s hs (mem_cons_of_mem _ hm)

end Block

namespace Plan

theorem label_of_mem_states {p : Plan} {after : Option StateId} {s : State}
    (h : s ∈ (p.nodes after).map Node.state) : s.label ∈ p.labels := by
  rw [← map_label_nodes p after]
  obtain ⟨n, hn, rfl⟩ := mem_map.mp h
  exact mem_map_of_mem hn

/-- States without any of the exits among them stay as they are. -/
theorem connect_states_of_disjoint {p : Plan} (after : Option StateId) (t : StateId)
    (h : p.labels.Disjoint xs) :
    connect ((p.nodes after).map Node.state) xs t = (p.nodes after).map Node.state :=
  connect_of_notMem t fun _ hs => h (label_of_mem_states hs)

theorem disjoint_exits {p q : Plan} (h : p.labels.Disjoint q.labels) : p.labels.Disjoint q.exits :=
  fun _ hp hq => h hp (exits_subset_labels q hq)

theorem connect_state_cons {n : Node} {p : Plan} (h : n.label ∉ p.labels) (ss : List State)
    (t : StateId) : connect (n.state :: ss) p.exits t = n.state :: connect ss p.exits t := by
  have hn : n.label ∉ p.exits := fun hn => h (exits_subset_labels p hn)
  rw [← singleton_append, connect_append,
    connect_of_notMem t (forall_mem_singleton.mpr hn), singleton_append]

/-- **Patching is the same as knowing what follows.** -/
theorem connect_nodes {p : Plan} (h : p.labels.Nodup) (t : StateId) :
    connect ((p.nodes none).map Node.state) p.exits t =
      (p.nodes (some t)).map Node.state := by
  induction p with
  | finish => rfl
  | act label a rest ih =>
    rw [labels, nodup_cons] at h
    obtain ⟨hlabel, hrest⟩ := h
    by_cases hr : rest = finish
    · subst hr
      simp [nodes, exits, isFinish, entry, Node.state, Node.body, connect, State.prepend]
    · simp only [nodes, exits, isFinish_eq_false.mpr hr, map_cons, Bool.false_eq_true, if_false]
      rw [connect_state_cons hlabel, ih hrest, entry_eq hr none (some t)]
  | cond label test yes no rest ihy ihn ih =>
    simp only [labels, nodup_cons, mem_append, not_or, nodup_append'] at h
    obtain ⟨⟨⟨hly, hln⟩, hlr⟩, ⟨hy, hn, hyn⟩, hrest, hdr⟩ := h
    by_cases hr : rest = finish
    · subst hr
      -- Both branches leave the plan, and the guard itself does when there is no alternative.
      simp only [nodes, exits, isFinish, entry, map_cons, append_nil, map_append, if_true]
      rw [connect_exits_append, connect_exits_append, connect_state_cons hly,
        connect_append, ihy hy,
        connect_states_of_disjoint none t (disjoint_exits (disjoint_symm hyn)),
        connect_state_cons hln, connect_append, ihn hn,
        connect_states_of_disjoint _ t (disjoint_exits hyn)]
      by_cases hno : no = finish
      · subst hno
        have hl : yes.labels.Disjoint [label] := by simpa using hly
        rw [← singleton_append, connect_append, connect_append]
        simp only [nodes, if_true]
        rw [connect_states_of_disjoint _ t hl]
        simp [Node.state, Node.body, connect, State.prepend]
      · simp [connect]
    · obtain ⟨hdy, hdn⟩ := disjoint_append_left.mp hdr
      simp only [nodes, exits, isFinish_eq_false.mpr hr, map_cons, Bool.false_eq_true,
        if_false, map_append]
      rw [connect_state_cons hlr, connect_append, connect_append, ih hrest,
        connect_states_of_disjoint _ t (disjoint_exits hdy),
        connect_states_of_disjoint _ t (disjoint_exits hdn), entry_eq hr none (some t)]
  | loop label test body rest ihb ih =>
    simp only [labels, nodup_cons, mem_append, not_or, nodup_append'] at h
    obtain ⟨⟨hlb, hlr⟩, hb, hrest, hdr⟩ := h
    by_cases hr : rest = finish
    · subst hr
      have hl : body.labels.Disjoint [label] := by simpa using hlb
      simp only [nodes, exits, isFinish, entry, map_cons, append_nil, if_true]
      rw [← singleton_append, connect_append, connect_states_of_disjoint _ t hl]
      simp [Node.state, Node.body, connect, State.prepend]
    · simp only [nodes, exits, isFinish_eq_false.mpr hr, map_cons, Bool.false_eq_true,
        if_false, map_append]
      rw [connect_state_cons hlr, connect_append, ih hrest,
        connect_states_of_disjoint _ t (disjoint_exits hdr), entry_eq hr none (some t)]

theorem exits_append {p q : Plan} (h : q ≠ finish) : (p.append q).exits = q.exits := by
  have hne : ∀ r : Plan, (r.append q).isFinish = false := by
    intro r
    cases r <;> simp_all [append]
  induction p with
  | finish => rfl
  | act _ _ _ ih | cond _ _ _ _ _ _ _ ih | loop _ _ _ _ _ ih => simp [append, exits, hne, ih]

theorem append_finish (p : Plan) : p.append finish = p := by
  induction p with
  | finish => rfl
  | act _ _ _ ih | cond _ _ _ _ _ _ _ ih | loop _ _ _ _ _ ih => simp [append, ih]

theorem append_assoc (p q r : Plan) : (p.append q).append r = p.append (q.append r) := by
  induction p with
  | finish => rfl
  | act _ _ _ ih | cond _ _ _ _ _ _ _ ih | loop _ _ _ _ _ ih => simp [append, ih]

theorem entry?_block (p : Plan) : p.block.entry? = p.entry none := by
  cases p <;> rfl

/-- **Blocks follow each other as their plans do.** -/
theorem block_andThen {p : Plan} (h : p.labels.Nodup) (q : Plan) :
    p.block.andThen q.block = (p.append q).block := by
  unfold andThen
  rw [entry?_block]
  by_cases hq : q = finish
  · subst hq
    simp [entry, append_finish]
  · obtain ⟨t, ht⟩ : ∃ t, q.entry none = some t := by
      cases q <;> simp_all [entry]
    simp only [block, connect_nodes h, nodes_append, ht, map_append, exits_append hq]

end Plan

end Sequencer.Lowering
