import Sequencer.Command.Basic
import Sequencer.Proofs.Design.Statements
import Sequencer.Proofs.Lowering.Faults
import Sequencer.Proofs.Program.Names

/-!
# The channels of a project

Every resource of a project becomes a channel with three new signals. Their tags come first, so the
signals of a compiled program are different from them.
-/

namespace Sequencer

open Circuit Lowering Program Workshop Design
open Workshop (new)

/-- A sound plan is always put together. -/
theorem Design.exists_assemble {p : Plan} {rs : List Resource} {base : Nat} {w : Workshop}
    (hw : Wired rs base) (htidy : w.Tidy rs base) (hsound : p.Sound rs w) (hnodup : p.labels.Nodup)
    (hcomplete : ∀ (id : Nat) r, w.bank.registers[id]? = some r →
      ∀ s ∈ r.sources, (id, s) ∈ p.loads)
    (name : String) : ∃ d w', Gives (assemble name p.block.states rs) w d w' ∧
      d.Realizes rs base p w := by
  have hrealizes := realizes_ofPlan name htidy hsound hnodup hcomplete
  obtain ⟨w', hgives⟩ := gives_assemble htidy hsound hnodup (hrealizes.noMarker hw)
  exact ⟨_, w', hgives, hrealizes⟩

section Compile

variable {text : List Char} {o : Options} {supply : Nat}

variable {env : Env} {w : Workshop} {e : Fault}

theorem Design.exists_assemble_of_lowers {name : String} {env' : Env} {body : List Program.Stmt}
    {p : Plan} (hw : Wired o.resources supply) (hplain : env.Plain o.resources)
    (hp : Lowers ⟨env, new supply⟩ (.block body) p ⟨env', w⟩) :
    ∃ d w', Gives (assemble name p.block.states o.resources) w d w' ∧
      d.Realizes o.resources supply p w := by
  obtain ⟨hprogress, hsound⟩ := hp.progress hplain (tidy_new o.resources supply)
  refine exists_assemble hw hprogress.tidy hsound (hp.advances hplain).1.nodup ?_ name
  intro id r hr s hs
  obtain ⟨_, hempty, -⟩ | hload := hprogress.accounts id r hr s hs
  · simp [new, Bank.empty] at hempty
  · exact hload

/-- What a compiled design is made of. -/
theorem realizes_of_compile {d : Design} (hvalues : o.values = []) (hw : Wired o.resources supply)
    (h : Gives (compile text o) (new supply) d w) :
    ∃ m name body env env' p w', readProgram text = .ok m ∧
      onlyFunction m = .ok (name, body) ∧ o.env = .ok env ∧ env.Plain o.resources ∧
      Lowers ⟨env, new supply⟩ (.block body) p ⟨env', w'⟩ ∧
        d.Realizes o.resources supply p w' := by
  obtain ⟨m, name, body, env, block, ⟨env', w'⟩, hm, hbody, henv, hlower, hassemble⟩ :=
    gives_compile.mp h
  have hplain := plain_env hvalues hw.channels henv
  obtain ⟨p, rfl, hp⟩ := lowers_of_lowerStmts body .finish hlower hplain.deviceless (.refl _)
  obtain ⟨d', w'', hgives, hrealizes⟩ := exists_assemble_of_lowers hw hplain hp
  obtain ⟨rfl, -⟩ := hassemble.unique hgives
  exact ⟨m, name, body, env, env', p, w', hm, hbody, henv, hplain, hp, hrealizes⟩

theorem open_env (hvalues : o.values = []) (h : o.env = .ok env) (w : Workshop) : env.Open w :=
  all_env (by simp [hvalues]) (fun _ => trivial) (fun _ => trivial)
    (fun _ _ => trivial) h

theorem isRefusal_bindAll {l : List (String × Binding)} (h : bindAll env l = .error e) :
    e.isRefusal = true := by
  induction l generalizing env with
  | nil => cases h
  | cons p l ih =>
    rw [bindAll] at h
    split at h
    · cases h
      rfl
    · exact ih h

theorem isRefusal_onlyFunction {m : Module} (h : onlyFunction m = .error e) :
    e.isRefusal = true := by
  unfold onlyFunction at h
  split at h <;> cases h <;> rfl

theorem linked_of_readProgram {m : Module} {name : String} {body : List Program.Stmt}
    (hm : readProgram text = .ok m) (hbody : onlyFunction m = .ok (name, body)) :
    ∀ s ∈ body, s.Linked := by
  simp only [readProgram] at hm
  split at hm
  · rename_i hclean
    cases hm
    unfold onlyFunction at hbody
    split at hbody
    · rename_i hmodule
      cases hbody
      have hfunc := linked_parse (List.isEmpty_iff.mp hclean) _
        (hmodule ▸ List.mem_singleton_self _)
      cases hfunc with
      | funcDef hbody => exact hbody
    · cases hbody
    · cases hbody
  · cases hm

/-- **A text that is not compiled is refused**, or a value without a width is sliced in it. -/
theorem expected_of_compile (hvalues : o.values = []) (hw : Wired o.resources supply)
    (h : Fails (compile text o) (new supply) e w) : e.Expected := by
  obtain ⟨h, -⟩ | ⟨m, hm, h⟩ := Build.fails_ofExcept_bind.mp h
  · simp only [readProgram] at h
    split at h <;> cases h
    exact .inl rfl
  obtain ⟨h, -⟩ | ⟨⟨name, body⟩, hbody, h⟩ := Build.fails_ofExcept_bind.mp h
  · exact .inl (isRefusal_onlyFunction h)
  obtain ⟨h, -⟩ | ⟨env, henv, h⟩ := Build.fails_ofExcept_bind.mp h
  · exact .inl (isRefusal_bindAll h)
  have hplain := plain_env hvalues hw.channels henv
  have hopen := open_env hvalues henv (new supply)
  obtain h | ⟨block, w', hblock, hassemble⟩ := fails_bind.mp h
  · obtain ⟨env', h⟩ := Lower.fails_within.mp h
    exact refuses_lowerStmts body .empty hplain hopen (linked_of_readProgram hm hbody) _ _ h
  · obtain ⟨env', hblock⟩ := Lower.gives_within.mp hblock
    obtain ⟨p, rfl, hp⟩ := lowers_of_lowerStmts body .finish hblock hplain.deviceless (.refl _)
    obtain ⟨d, w'', hgives, -⟩ := exists_assemble_of_lowers hw hplain hp
    cases hgives.symm.trans hassemble

end Compile

end Sequencer

namespace Sequencer.Project

open List
open Circuit Lowering ResourceEntry Command

/-- Channels whose signals have the tags from `n` up to but not including `m`. -/
structure Spans (n : Nat) (rs : List Resource) (m : Nat) : Prop where
  le : n ≤ m
  range : ∀ q ∈ rs.flatMap Resource.ports, n ≤ q.signal.tag
  wired : Wired rs m

theorem Spans.nil (n : Nat) : Spans n [] n :=
  ⟨Nat.le_refl n, by simp, by simp, by simp, by simp, by simp, by simp⟩

def channelAt (n : Nat) (name : String) (width : Int) : Channel :=
  ⟨name, ⟨n, name ++ "_data", clampWidth width, 0⟩, ⟨n + 1, name ++ "_stb", 1, 0⟩,
    ⟨n + 2, name ++ "_ack", 1, 0⟩⟩

theorem channelAt_ports {n : Nat} {name : String} {width : Int} {r : Resource}
    (hr : r = .sink (channelAt n name width) ∨ r = .source (channelAt n name width)) :
    (r.ports.map fun q => q.signal.tag) = [n, n + 1, n + 2] ∧
      ∀ q ∈ r.ports, 1 ≤ q.signal.bits ∧ q.signal.reset = 0 := by
  have hwidth : 1 ≤ clampWidth width := Int.le_max_right _ _
  obtain rfl | rfl := hr <;> simpa [Resource.ports, channelAt] using hwidth

theorem Spans.cons {n m : Nat} {rs : List Resource} (h : Spans (n + 3) rs m) {r : Resource}
    {name : String} {width : Int}
    (hr : r = .sink (channelAt n name width) ∨ r = .source (channelAt n name width)) :
    Spans n (r :: rs) m := by
  obtain ⟨htags, hplain⟩ := channelAt_ports hr
  have hle := h.le
  have htag : ∀ q ∈ r.ports, n ≤ q.signal.tag ∧ q.signal.tag < n + 3 := by
    intro q hq
    have hmem : q.signal.tag ∈ [n, n + 1, n + 2] := htags ▸ mem_map_of_mem hq
    simp only [mem_cons, not_mem_nil, or_false] at hmem
    omega
  refine ⟨by omega, ?_, ⟨?_, ?_, ?_, ?_, ?_⟩⟩
  · simp only [flatMap_cons, mem_append]
    rintro q (hq | hq)
    · exact (htag q hq).1
    · have := h.range q hq
      omega
  · rintro d (_ | ⟨_, hd⟩)
    · simp at hr
    · exact h.wired.channels d hd
  · rw [flatMap_cons, map_append, htags, nodup_append']
    refine ⟨by simp, h.wired.distinct, fun k hk hk' => ?_⟩
    obtain ⟨q, hq, rfl⟩ := mem_map.mp hk'
    have := h.range q hq
    simp only [mem_cons, not_mem_nil, or_false] at hk
    omega
  · simp only [flatMap_cons, mem_append]
    rintro q (hq | hq)
    · have := (htag q hq).2
      omega
    · exact h.wired.below q hq
  · simp only [flatMap_cons, mem_append]
    rintro q (hq | hq)
    · exact hplain q hq
    · exact h.wired.plain q hq
  · simp only [mem_cons]
    rintro c ((rfl | hc) | (rfl | hc))
    · obtain h | h := hr <;> cases h
      exact ⟨rfl, rfl⟩
    · exact h.wired.strobes c (.inl hc)
    · obtain h | h := hr <;> cases h
      exact ⟨rfl, rfl⟩
    · exact h.wired.strobes c (.inr hc)

theorem build_cases (e : ResourceEntry) (n : Nat) :
    (∃ r, e.build? n = (some r, n + 3) ∧ (r = .sink (channelAt n e.name e.width) ∨
      r = .source (channelAt n e.name e.width))) ∨ e.build? n = (none, n) := by
  unfold build?
  split
  · exact .inl ⟨_, rfl, .inl rfl⟩
  · split
    · exact .inl ⟨_, rfl, .inr rfl⟩
    · exact .inr rfl

theorem mapM_build_cons (e : ResourceEntry) (es : List ResourceEntry) (n : Nat) :
    (e :: es).mapM build? n =
      ((e.build? n).1 :: (es.mapM build? (e.build? n).2).1, (es.mapM build? (e.build? n).2).2) := by
  rw [mapM_cons]
  rfl

theorem spans_mapM (es : List ResourceEntry) (n : Nat) :
    Spans n ((es.mapM build? n).1.filterMap id)
      (es.mapM build? n).2 := by
  induction es generalizing n with
  | nil => exact .nil n
  | cons e es ih =>
    rw [mapM_build_cons]
    obtain ⟨r, hr, hchannel⟩ | hr := build_cases e n
    · rw [hr]
      exact (ih (n + 3)).cons hchannel
    · rw [hr]
      exact ih n

/-- **The channels of a project have signals of their own.** -/
theorem wired_options (s : Settings) (n : Nat) :
    Wired (s.options n).1.resources (s.options n).2 := (spans_mapM s.resources n).wired

variable {s : Settings} {text : List Char}

theorem gives_of_compileText {d : Design} (h : (compileText s text).result = .ok d) :
    ∃ w, Gives (compile text (s.options firstTag).1) (Workshop.new (s.options firstTag).2) d w :=
  ⟨_, Prod.ext h rfl⟩

/-- A text that is not compiled in the scope of a project is refused, or a value without a width is
sliced in it. -/
theorem expected_of_compileText {e : Fault} (h : (compileText s text).result = .error e) :
    e.Expected :=
  expected_of_compile rfl (wired_options s firstTag) (Prod.ext h rfl)

theorem realizes_of_compileText {d : Design} (h : (compileText s text).result = .ok d) :
    ∃ p w, d.Realizes (s.options firstTag).1.resources (s.options firstTag).2 p w := by
  obtain ⟨_, hgives⟩ := gives_of_compileText h
  obtain ⟨_, _, _, _, _, p, w, -, -, -, -, -, hrealizes⟩ :=
    realizes_of_compile rfl (wired_options s firstTag) hgives
  exact ⟨p, w, hrealizes⟩

/-! ### A program to look at -/

/-- A program that waits for a large number and passes on its successor. -/
def relayText : List Char :=
  ("def relay():\n    r = Register(8)\n    while r < 3:\n        yield rx(r)\n" ++
    "    yield tx(r + 1)\n").toList

def relaySettings : Settings :=
  { Settings.empty with resources := [⟨"tx", "sink", 8⟩, ⟨"rx", "source", 8⟩] }

def relaySink : Channel := channelAt firstTag "tx" 8

def relaySource : Channel := channelAt (firstTag + 3) "rx" 8

def relayHistory : List (Simulation.Event Signal UInt64) :=
  [.tick, .tick, .tick, .put relaySource.data 200, .put relaySource.stb 1]

end Sequencer.Project
