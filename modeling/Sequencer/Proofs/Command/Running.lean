import Sequencer.Command.Build

/-!
# Commands on disks

A command is a script, and running it on a disk leads to a result and a disk. Each step has an
equation for it, and only `Step.save` changes the disk.
-/

namespace Sequencer.Command

open Text Script Digest Place

/-! ### Scripts -/

theorem Script.run_bind {α β : Type} (s : Script α) (f : α → Script β) (d : Disk) :
    ((s.bind f).run d).result = ((f (s.run d).result).run (s.run d).disk).result ∧
      ((s.bind f).run d).disk = ((f (s.run d).result).run (s.run d).disk).disk := by
  induction s generalizing d with
  | done a => exact ⟨rfl, rfl⟩
  | load path next ih => exact ih (d.read path) d
  | save path content next ih => exact ih (d.write path content).1 (d.write path content).2
  | print text next ih => exact ih d
  | report text next ih => exact ih d

namespace Step

variable {α β : Type}

/-- The result of a step, and the disk that it leaves behind. -/
def on (x : Step α) (d : Disk) : Except Failure α × Disk :=
  ((run x d).result, (run x d).disk)

@[simp]
theorem on_pure (a : α) (d : Disk) : (pure a : Step α).on d = (.ok a, d) := rfl

@[simp]
theorem on_throw (e : Failure) (d : Disk) : (throw e : Step α).on d = (.error e, d) := rfl

variable {x : Step α} {f : α → Step β} {d d' : Disk} {path : String} {content : Bytes}

theorem on_bind {r : Except Failure α} (h : x.on d = (r, d')) :
    (x >>= f).on d = Step.on (ExceptT.mk (ExceptT.bindCont f r)) d' := by
  obtain ⟨hresult, hdisk⟩ := run_bind x (ExceptT.bindCont f) d
  obtain ⟨hr, hd⟩ := Prod.mk.inj h
  rw [hr, hd] at hresult hdisk
  exact Prod.ext hresult hdisk

theorem on_bind_ok {a : α} (h : x.on d = (.ok a, d')) : (x >>= f).on d = (f a).on d' := on_bind h

theorem on_bind_error {e : Failure} (h : x.on d = (.error e, d')) :
    (x >>= f).on d = (.error e, d') := on_bind h

/-- A step that leaves the disk as it is. -/
def Reads (x : Step α) : Prop := ∀ d, (x.on d).2 = d

theorem Reads.on_eq (h : Reads x) (d : Disk) : x.on d = ((x.on d).1, d) :=
  Prod.ext rfl (h d)

theorem Reads.bind (hx : Reads x) (hf : ∀ a, Reads (f a)) : Reads (x >>= f) := by
  intro d
  rw [on_bind (hx.on_eq d)]
  cases (x.on d).1 with
  | ok a => exact hf a d
  | error e => rfl

theorem reads_throw (e : Failure) : Reads (throw e : Step α) := fun _ => rfl

theorem on_report (text : String) (d : Disk) : (report text).on d = (.ok (), d) := rfl

theorem on_tryLoad (path : String) (d : Disk) : (tryLoad path).on d = (.ok (d.read path), d) := rfl

theorem reads_load (path : String) : Reads (load path) := by
  refine Reads.bind (fun d => rfl) fun r => ?_
  cases r with
  | ok content => exact fun _ => rfl
  | error e => exact reads_throw _

theorem on_load_ok (h : d.read path = .ok content) : (load path).on d = (.ok content, d) := by
  rw [load, on_bind_ok (on_tryLoad path d), h]
  rfl

theorem on_load_error {e : FileError} (h : d.read path = .error e) :
    (load path).on d = (.error (.file e), d) := by
  rw [load, on_bind_ok (on_tryLoad path d), h]
  rfl

theorem on_save (path : String) (content : Bytes) (d : Disk) : (save path content).on d =
    ((d.write path content).1.mapError .output, (d.write path content).2) := rfl

end Step

open Step

theorem on_trace (verbose : Bool) (message : String) (d : Disk) :
    (trace verbose message).on d = (.ok (), d) := by
  cases verbose <;> rfl

theorem on_forM_trace (verbose : Bool) (messages : List String) (d : Disk) :
    Step.on (messages.forM (trace verbose)) d = (.ok (), d) := by
  induction messages with
  | nil => rfl
  | cons m ms ih =>
    have hcons : (m :: ms).forM (trace verbose) =
        trace verbose m >>= fun _ => ms.forM (trace verbose) := rfl
    rw [hcons, on_bind_ok (on_trace verbose m d)]
    exact ih

theorem on_rejectProgram {α : Type} (path : String) (e : Lowering.Fault) (d : Disk) :
    ∃ failure, (rejectProgram path e : Step α).on d = (.error failure, d) := by
  unfold rejectProgram
  split
  · exact ⟨_, on_bind_ok (on_report _ d)⟩
  · exact ⟨_, on_bind_ok (on_report _ d)⟩

theorem reads_loadProject (codec : Project.Codec) (path : String) :
    Reads (loadProject codec path) := by
  unfold loadProject
  split
  · exact fun _ => rfl
  · refine (reads_load path).bind fun bytes => ?_
    split
    · exact fun _ => rfl
    · exact reads_throw _

theorem exists_isUpToDate (path digest : String) (d : Disk) :
    ∃ u, (isUpToDate path digest).on d = (.ok u, d) := by
  rw [isUpToDate, on_bind_ok (on_tryLoad path d)]
  cases d.read path with
  | error e => exact ⟨_, rfl⟩
  | ok content => cases hstamp : readStamp content <;> simp [hstamp]

theorem isUpToDate_on_iff {path digest : String} {d : Disk} :
    (isUpToDate path digest).on d = (.ok true, d) ↔
      ∃ content, d.read path = .ok content ∧ readStamp content = .ok digest := by
  rw [isUpToDate, on_bind_ok (on_tryLoad path d)]
  cases d.read path with
  | error e => simp
  | ok content =>
    cases hstamp : readStamp content with
    | error e => simp [hstamp]
    | ok stamp => simp [hstamp]

/-! ### Disks -/

namespace Disk

variable {d d' : Disk} {path : String} {content : Bytes}

theorem locate_eq_ok {p : Place} (h : d.locate path = .ok p) : p = Place.ofPath path := by
  have hstep : ∀ {p q : Place} {name : String}, d.step p name = .ok q → q = p.step name := by
    intro p q name h
    simp only [step] at h
    repeat' split at h
    all_goals cases h
    rfl
  have hfold : ∀ (names : List String) (p q : Place), names.foldlM d.step p = .ok q →
      q = names.foldl Place.step p := by
    intro names
    induction names with
    | nil =>
      intro p q h
      cases h
      rfl
    | cons name names ih =>
      intro p q h
      rw [List.foldlM_cons] at h
      cases hs : d.step p name with
      | error e =>
        rw [hs] at h
        cases h
      | ok p' =>
        rw [hs] at h
        rw [List.foldl_cons, ← hstep hs]
        exact ih p' q h
  simp only [locate] at h
  repeat' split at h
  all_goals try cases h
  exact hfold _ _ _ h

theorem lookup_cons_ite (p q : Place) (content : Bytes) (files : List (Place × Bytes)) :
    ((p, content) :: files).lookup q = if q = p then some content else files.lookup q := by
  by_cases h : q = p
  · rw [h, List.lookup_cons_self, if_pos rfl]
  · have hbeq : (q == p) = false := by simpa using h
    rw [List.lookup_cons, hbeq, if_neg h]

theorem lookup_put (files : List (Place × Bytes)) (p q : Place) (content : Bytes) :
    (put p content files).lookup q = if q = p then some content else files.lookup q := by
  induction files with
  | nil => rw [put, lookup_cons_ite]
  | cons f files ih =>
    obtain ⟨r, old⟩ := f
    rw [put, lookup_cons_ite]
    by_cases hr : r = p
    · rw [if_pos hr, lookup_cons_ite, hr]
      by_cases hq : q = p <;> simp [hq]
    · rw [if_neg hr, lookup_cons_ite, ih]
      by_cases hq : q = r
      · simp [hq, hr]
      · simp [hq]

/-- A file that can be opened for writing. -/
def Opens (d : Disk) (path : String) : Prop :=
  d.locate path = .ok (ofPath path) ∧ (d.isDirectory (ofPath path) || mustBeDirectory path) = false

/-- The disk after a file has been opened and written, as far as there is room. -/
def overwrite (d : Disk) (path : String) (content : Bytes) : Disk :=
  { d with files := put (ofPath path) (d.fitting content) d.files }

theorem write_of_opens (h : d.Opens path) (content : Bytes) : d.write path content =
    (if d.fitting content = content then .ok () else .error ⟨"write", path, .noSpace⟩,
      d.overwrite path content) := by
  rw [write, h.1]
  dsimp only
  rw [h.2]
  rfl

/-- If a file cannot be opened nothing happens to it. -/
theorem write_of_not_opens (h : ¬ d.Opens path) (content : Bytes) :
    ∃ e, d.write path content = (.error e, d) := by
  rw [write]
  cases hl : d.locate path with
  | error problem => exact ⟨_, rfl⟩
  | ok p =>
    obtain rfl := locate_eq_ok hl
    have hdir : (d.isDirectory (ofPath path) || mustBeDirectory path) = true :=
      eq_true_of_ne_false fun hfalse => h ⟨hl, hfalse⟩
    exact ⟨_, if_pos hdir⟩

theorem content?_overwrite (d : Disk) (path : String) (content : Bytes) (q : Place) :
    (d.overwrite path content).content? q =
      if q = ofPath path then some (d.fitting content) else d.content? q :=
  lookup_put d.files _ q _

end Disk

end Sequencer.Command
