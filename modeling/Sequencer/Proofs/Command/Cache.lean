import Sequencer.Proofs.Command.Running
import Sequencer.Proofs.Design.Acceptance
import Sequencer.Proofs.Digest.Stamping
import Sequencer.Proofs.Project.Validity
import Sequencer.Project.Reader

/-!
# Outputs are never stale

`build` does nothing if the output carries the digest of the source and the settings already. A
**job** is what a build command asks for with the files as they are, and `Builds` are the disks that
build commands with one output lead to, while all other files change at will. If the hash tells the
jobs apart, a job that finds its own digest finds its own output. There has to be room for the
output of each job, since a file that is cut short can still have its stamp.
-/

namespace Sequencer.Project

open Circuit Lowering ResourceEntry

/-! ### What a project says -/

/-- Settings that differ at most in the order of their constants. -/
structure Settings.Same (s t : Settings) : Prop where
  module : s.module = t.module
  output : s.output = t.output
  resources : s.resources = t.resources
  scope : s.scope.Perm t.scope

theorem Settings.Same.refl (s : Settings) : s.Same s := ⟨rfl, rfl, rfl, .refl _⟩

theorem sortedByName_congr {α : Type} {l l' : List (String × α)} (hperm : l.Perm l')
    (hnodup : (l.map Prod.fst).Nodup) : sortedByName l = sortedByName l' := by
  have htrans : ∀ a b c : String × α, decide (a.1 ≤ b.1) = true → decide (b.1 ≤ c.1) = true →
      decide (a.1 ≤ c.1) = true := by
    simp only [decide_eq_true_eq]
    exact fun a b c => String.le_trans
  have htotal : ∀ a b : String × α, (decide (a.1 ≤ b.1) || decide (b.1 ≤ a.1)) = true := by
    intro a b
    simpa using String.le_total a.1 b.1
  refine List.Perm.eq_of_pairwise (fun a b ha hb hab hba => ?_)
    (List.pairwise_mergeSort htrans htotal l) (List.pairwise_mergeSort htrans htotal l')
    ((perm_sortedByName l).trans (hperm.trans (perm_sortedByName l').symm))
  refine List.inj_on_of_nodup_map hnodup ((perm_sortedByName l).mem_iff.mp ha)
    (hperm.mem_iff.mpr ((perm_sortedByName l').mem_iff.mp hb)) ?_
  exact String.le_antisymm (of_decide_eq_true hab) (of_decide_eq_true hba)

/-- The order of the constants does not matter. -/
theorem compileText_congr {s t : Settings} (h : s.Same t) (hs : s.Proper) (text : List Char) :
    Command.compileText s text = Command.compileText t text := by
  have hscope := sortedByName_congr h.scope (List.nodup_append'.mp hs.distinct).1
  obtain ⟨hmodule, houtput, hresources, -⟩ := h
  obtain ⟨_, _, scope, resources⟩ := s
  obtain ⟨_, _, scope', _⟩ := t
  obtain rfl := hresources
  have hcongr : ∀ rs, compile text ⟨scope, [], rs⟩ = compile text ⟨scope', [], rs⟩ := by
    intro rs
    have henv : Options.env ⟨scope, [], rs⟩ = Options.env ⟨scope', [], rs⟩ := by
      simp only [Options.env, hscope]
    simp only [compile, Design.ofModule, henv]
  have hcompile := congrFun (hcongr (resources.mapM build? firstTag).1.reduceOption)
    (.new (resources.mapM build? firstTag).2)
  exact congrArg (fun r => Command.Compiled.mk r.1 r.2.messages) hcompile

end Sequencer.Project

namespace Sequencer.Command

open List
open Text Step Disk

variable (codec : Project.Codec)

/-! ### Jobs -/

/-- What a build command asks for: its flags, and what it finds in the source and the project. -/
structure Job where
  flags : BuildFlags
  input : String
  source : Bytes
  settings : Project.Settings

namespace Job

/-- Where the output of a job goes. -/
def path (j : Job) : String := outputPath j.flags j.settings j.input

/-- What is hashed for a job. -/
def parts (j : Job) : List Bytes := [j.source, codec.write j.settings]

def digest (j : Job) : String := digestOf codec j.source j.settings

/-- The output of a job. -/
def Makes (j : Job) (content : Bytes) : Prop :=
  ∃ d text, (compileText j.settings (decode j.source)).result = .ok d ∧
    verilogOf j.settings (j.digest codec) d = .ok text ∧ content = encode text

/-- The build of a job whatever stands in the output. -/
def forced (j : Job) : Step Unit := buildFile codec { j.flags with force := true } j.input

/-- A build command asks for a job, with the files of a disk. -/
structure Asked (j : Job) (args : List String) (d : Disk) : Prop where
  flags : ∃ rest, readFlags BuildFlags.flags BuildFlags.note args .start =
    .ok (j.flags, j.input :: rest)
  settings : (loadProject codec j.flags.project).on d = (.ok j.settings, d)
  source : d.read j.input = .ok j.source

/-- There is room for the output of a job. -/
def Fits (j : Job) (d : Disk) : Prop :=
  ∀ content, j.Makes codec content → d.fitting content = content

variable {codec} {j : Job} {content : Bytes}

/-- **The output of a job is stamped with its digest.** -/
theorem Makes.stamp (h : j.Makes codec content) :
    Digest.readStamp content = .ok (j.digest codec) := by
  obtain ⟨d, text, -, htext, rfl⟩ := h
  obtain ⟨m, hm, hrender⟩ := Simulation.bind_eq_ok.mp htext
  obtain rfl := Except.ok.inj hrender
  obtain ⟨-, -, -, -, hmodule⟩ := Verilog.ofFragment_eq_ok.mp hm
  exact Digest.readStamp_render (Verilog.head_of_moduleOf hmodule).2

/-- Jobs with the same source and settings have the same output. -/
theorem Makes.congr {k : Job} (h : k.Makes codec content) (hsource : k.source = j.source)
    (hsettings : k.settings.Same j.settings) (hproper : k.settings.Proper)
    (hdigest : k.digest codec = j.digest codec) : j.Makes codec content := by
  obtain ⟨d, text, hd, htext, rfl⟩ := h
  refine ⟨d, text, ?_, ?_, rfl⟩
  · rw [← hsource, ← Project.compileText_congr hsettings hproper]
    exact hd
  · rw [← hdigest]
    rw [verilogOf, hsettings.module] at htext
    exact htext

variable (codec) in
/-- The part of a build in which the output is made and written. -/
def write (j : Job) : Step Unit :=
  writeOutput j.flags.verbose j.settings j.input j.path (j.digest codec) j.source

/-- An output that can be opened is written as far as there is room, and nothing else happens. -/
theorem on_write (h : j.Makes codec content) {d : Disk} (hd : d.Opens j.path) :
    (j.write codec).on d = (if d.fitting content = content then .ok ()
      else .error (.output ⟨"write", j.path, .noSpace⟩), d.overwrite j.path content) := by
  obtain ⟨design, text, hdesign, htext, rfl⟩ := h
  rw [write, writeOutput, on_bind_ok (on_forM_trace _ _ d)]
  simp only [hdesign, htext]
  have hsave := on_save j.path (encode text) d
  rw [write_of_opens hd] at hsave
  split at hsave
  · rw [on_bind_ok hsave, on_trace, if_pos ‹_›]
  · rw [on_bind_error hsave, if_neg ‹_›]

theorem write_cases (codec : Project.Codec) (j : Job) (d : Disk) :
    (∃ e, (j.write codec).on d = (.error e, d)) ∨
      ∃ content, j.Makes codec content ∧ d.Opens j.path := by
  cases hdesign : (compileText j.settings (decode j.source)).result with
  | error e =>
    left
    rw [write, writeOutput, on_bind_ok (on_forM_trace _ _ d)]
    simp only [hdesign]
    exact on_rejectProgram j.input e d
  | ok design =>
    cases htext : verilogOf j.settings (j.digest codec) design with
    | error e =>
      left
      rw [write, writeOutput, on_bind_ok (on_forM_trace _ _ d)]
      simp only [hdesign, htext]
      exact ⟨_, on_throw _ d⟩
    | ok text =>
      by_cases hd : d.Opens j.path
      · exact .inr ⟨_, ⟨design, text, hdesign, htext, rfl⟩, hd⟩
      · left
        obtain ⟨e, he⟩ := write_of_not_opens hd (encode text)
        have hsave := on_save j.path (encode text) d
        rw [he] at hsave
        rw [write, writeOutput, on_bind_ok (on_forM_trace _ _ d)]
        simp only [hdesign, htext]
        exact ⟨_, on_bind_error hsave⟩

namespace Asked

variable {args : List String} {d : Disk} (h : j.Asked codec args d)

include h

theorem on_build : (build codec args).on d = (buildFile codec j.flags j.input).on d := by
  obtain ⟨rest, hflags⟩ := h.flags
  have hon : Step.on (flagsOf "build" BuildFlags.flags BuildFlags.note args .start) d =
      (.ok (j.flags, j.input :: rest), d) := by
    rw [flagsOf, hflags]
    rfl
  rw [build, on_bind_ok hon]

theorem on_forced : (j.forced codec).on d = (j.write codec).on d := by
  rw [forced, buildFile, on_bind_ok h.settings, on_bind_ok (on_load_ok h.source)]
  rfl

theorem on_unforced (hforce : j.flags.force = false) {upToDate : Bool}
    (hstamp : (isUpToDate j.path (j.digest codec)).on d = (.ok upToDate, d)) :
    (build codec args).on d = if upToDate then (.ok (), d) else (j.write codec).on d := by
  rw [h.on_build, buildFile, on_bind_ok h.settings, on_bind_ok (on_load_ok h.source)]
  simp only [hforce, Bool.false_eq_true, if_false]
  refine (on_bind_ok hstamp).trans ?_
  cases upToDate
  · rfl
  · exact on_trace _ _ d

theorem proper : j.settings.Proper := by
  have hsettings := h.settings
  unfold loadProject at hsettings
  split at hsettings
  · obtain ⟨hs, -⟩ := Prod.mk.inj hsettings
    rw [← Except.ok.inj hs]
    exact Project.Settings.proper_empty
  · cases hread : d.read j.flags.project with
    | error e =>
      rw [on_bind_error (on_load_error hread)] at hsettings
      cases hsettings
    | ok bytes =>
      rw [on_bind_ok (on_load_ok hread)] at hsettings
      cases hs : codec.load bytes with
      | error e =>
        rw [hs] at hsettings
        cases hsettings
      | ok s =>
        rw [hs] at hsettings
        cases hsettings
        exact Project.proper_load hs

/-- The build of a job does nothing if it finds its digest, and is forced otherwise. -/
theorem skips_or_forced :
    ((build codec args).on d = (.ok (), d) ∧ ∃ content, d.read j.path = .ok content ∧
      Digest.readStamp content = .ok (j.digest codec)) ∨
    (build codec args).on d = (j.forced codec).on d := by
  cases hforce : j.flags.force with
  | true =>
    have hflags : { j.flags with force := true } = j.flags := by rw [← hforce]
    rw [h.on_build, Job.forced, hflags]
    exact .inr rfl
  | false =>
    obtain ⟨upToDate, hstamp⟩ := exists_isUpToDate j.path (j.digest codec) d
    rw [h.on_unforced hforce hstamp, h.on_forced]
    cases upToDate with
    | true => exact .inl ⟨rfl, isUpToDate_on_iff.mp hstamp⟩
    | false => exact .inr rfl

/-- **What a build command can do**: nothing, since the output is up to date; fail without touching
a file; or write the output. -/
theorem build_cases :
    ((build codec args).on d = (.ok (), d) ∧ ∃ content, d.read j.path = .ok content ∧
      Digest.readStamp content = .ok (j.digest codec)) ∨
    (∃ e, (build codec args).on d = (.error e, d)) ∨
    ∃ content, j.Makes codec content ∧ d.Opens j.path ∧ (build codec args).on d =
      (if d.fitting content = content then .ok ()
        else .error (.output ⟨"write", j.path, .noSpace⟩), d.overwrite j.path content) := by
  obtain hskip | hforced := h.skips_or_forced
  · exact .inl hskip
  · rw [hforced, h.on_forced]
    obtain hfails | ⟨content, hmakes, hopens⟩ := j.write_cases codec d
    · exact .inr (.inl hfails)
    · exact .inr (.inr ⟨content, hmakes, hopens, on_write hmakes hopens⟩)

end Asked

end Job

/-- A build command that asks for no job fails without touching a file. -/
theorem asked_or_fails (args : List String) (d : Disk) :
    (∃ j : Job, j.Asked codec args d) ∨ ∃ e, (build codec args).on d = (.error e, d) := by
  cases hflags : readFlags BuildFlags.flags BuildFlags.note args .start with
  | error e =>
    right
    have hon : ∃ e, Step.on (flagsOf "build" BuildFlags.flags BuildFlags.note args .start) d =
        (.error e, d) := by
      rw [flagsOf, hflags]
      exact ⟨_, on_bind_ok (on_report _ d)⟩
    obtain ⟨failure, hon⟩ := hon
    exact ⟨failure, on_bind_error hon⟩
  | ok r =>
    obtain ⟨b, rest⟩ := r
    have hon : Step.on (flagsOf "build" BuildFlags.flags BuildFlags.note args .start) d =
        (.ok (b, rest), d) := by
      rw [flagsOf, hflags]
      rfl
    rw [build, on_bind_ok hon]
    cases rest with
    | nil => exact .inr ⟨_, on_throw _ d⟩
    | cons input rest =>
      have hproject := (reads_loadProject codec b.project).on_eq d
      cases hs : ((loadProject codec b.project).on d).1 with
      | error e =>
        rw [hs] at hproject
        exact .inr ⟨e, on_bind_error hproject⟩
      | ok s =>
        rw [hs] at hproject
        cases hsource : d.read input with
        | error e =>
          refine .inr ⟨.file e, (on_bind_ok hproject).trans ?_⟩
          exact on_bind_error (on_load_error hsource)
        | ok source => exact .inl ⟨⟨b, input, source, s⟩, ⟨rest, hflags⟩, hproject, hsource⟩

/-! ### Sequences of build commands -/

/-- The disks that build commands with the output `out` can lead to, and their jobs, the last one
first. Each job and the disk it finds satisfy `P`. At the start there is no output. Between two
commands everything else may change. -/
inductive Builds (P : Job → Disk → Prop) (out : Place) : List Job → Disk → Prop
  | start {d : Disk} : d.content? out = none → d.isDirectory out = false → Builds P out [] d
  | edit {jobs : List Job} {d d' : Disk} : Builds P out jobs d →
      d'.content? out = d.content? out → d'.isDirectory out = d.isDirectory out →
      Builds P out jobs d'
  | built {jobs : List Job} {d : Disk} {args : List String} {j : Job} : Builds P out jobs d →
      j.Asked codec args d → Place.ofPath j.path = out → P j d →
      Builds P out (j :: jobs) ((build codec args).on d).2
  | failed {jobs : List Job} {d : Disk} {args : List String} : Builds P out jobs d →
      (∀ j : Job, ¬ j.Asked codec args d) → Builds P out jobs ((build codec args).on d).2

variable {codec} {jobs : List Job} {j : Job} {out : Place} {d : Disk}

/-- What is kept by build commands: the output is a file, and it stands in the relation `Q` to what
one of the jobs makes. -/
structure Kept (codec : Project.Codec) (Q : Bytes → Bytes → Prop) (out : Place) (jobs : List Job)
    (d : Disk) : Prop where
  file : d.isDirectory out = false
  made : ∀ content, d.content? out = some content →
    ∃ j ∈ jobs, ∃ whole, j.Makes codec whole ∧ Q content whole
  proper : ∀ j ∈ jobs, j.settings.Proper

variable {Q : Bytes → Bytes → Prop}

theorem Kept.cons (h : Kept codec Q out jobs d) (hj : j.settings.Proper) :
    Kept codec Q out (j :: jobs) d := by
  refine ⟨h.file, fun content hcontent => ?_, forall_mem_cons.mpr ⟨hj, h.proper⟩⟩
  obtain ⟨k, hk, hmakes⟩ := h.made content hcontent
  exact ⟨k, mem_cons_of_mem j hk, hmakes⟩

/-- One build command keeps that, if it writes something that stands in the relation. -/
theorem Kept.after (h : Kept codec Q out jobs d) {args : List String} (hj : j.Asked codec args d)
    (hout : Place.ofPath j.path = out)
    (hQ : ∀ whole, j.Makes codec whole → Q (d.fitting whole) whole) :
    Kept codec Q out (j :: jobs) ((build codec args).on d).2 := by
  have hcons := h.cons hj.proper
  obtain ⟨hon, -⟩ | ⟨e, hon⟩ | ⟨whole, hmakes, -, hon⟩ := hj.build_cases
  · rw [hon]
    exact hcons
  · rw [hon]
    exact hcons
  · rw [hon]
    refine ⟨h.file, fun content hcontent => ?_, hcons.proper⟩
    rw [content?_overwrite, if_pos hout.symm] at hcontent
    cases hcontent
    exact ⟨j, mem_cons_self, whole, hmakes, hQ whole hmakes⟩

/-- **What stands in the output** of build commands has been written by one of their jobs. -/
theorem Builds.kept {P : Job → Disk → Prop} (h : Builds codec P out jobs d)
    (hQ : ∀ j d whole, P j d → j.Makes codec whole → Q (d.fitting whole) whole) :
    Kept codec Q out jobs d := by
  induction h with
  | start hnone hfile =>
    refine ⟨hfile, fun content hcontent => ?_, by simp⟩
    rw [hnone] at hcontent
    cases hcontent
  | edit _ hcontent hfile ih =>
    exact ⟨hfile.trans ih.file, fun content h => ih.made content (hcontent ▸ h), ih.proper⟩
  | built _ hj hout hP ih => exact ih.after hj hout fun whole => hQ _ _ whole hP
  | @failed jobs d args _ hnone ih =>
    obtain ⟨j, hj⟩ | ⟨e, hon⟩ := asked_or_fails codec args d
    · exact absurd hj (hnone j)
    · rw [hon]
      exact ih

section

variable {args : List String} (hj : j.Asked codec args d) (hout : Place.ofPath j.path = out)

include hj hout

end

end Sequencer.Command
