import Sequencer.Proofs.Project.Resources

/-!
# Projects without flaws

`Settings.Proper` says what a project should be like, and the check finds no flaw exactly in such
projects. Their scope is the one they describe: nothing is left out, clamped or shadowed.
-/

namespace Sequencer.Project

open List Settings Prod
open Circuit Lowering Token ResourceEntry Settings Resource

/-! ### Names -/

def IsNameStart (c : Char) : Prop := c = '_' ∨ ('a' ≤ c ∧ c ≤ 'z') ∨ ('A' ≤ c ∧ c ≤ 'Z')

def IsNameChar (c : Char) : Prop := IsNameStart c ∨ ('0' ≤ c ∧ c ≤ '9')

/-- A name that can be declared: an ASCII identifier that is no keyword and no built-in
function. -/
structure GoodName (name : String) : Prop where
  identifier : ∃ c cs, name.toList = c :: cs ∧ IsNameStart c ∧ ∀ x ∈ cs, IsNameChar x
  keyword : name ∉ keywords.map fst
  intrinsic : name ∉ intrinsics.map fst

theorem isAlpha_or_underscore {c : Char} : (c.isAlpha || c = '_') = true ↔ IsNameStart c := by
  have halpha : c.isAlpha = (decide ('A'.val ≤ c.val ∧ c.val ≤ 'Z'.val) ||
      ('a'.val ≤ c.val && c.val ≤ 'z'.val)) := rfl
  simp only [IsNameStart, halpha, Bool.or_eq_true, Bool.and_eq_true, decide_eq_true_eq, Char.le_def]
  tauto

theorem isAlphanum_or_underscore {c : Char} : (c.isAlphanum || c = '_') = true ↔ IsNameChar c := by
  rw [IsNameChar, ← isAlpha_or_underscore]
  simp only [Char.isAlphanum, Char.isDigit, Bool.or_eq_true, Bool.and_eq_true, decide_eq_true_eq,
    Char.le_def, ge_iff_le]
  tauto

variable {name : String} {s : Settings} {e : ResourceEntry}

theorem isIdentifier_iff : isIdentifier name = true ↔
    ∃ c cs, name.toList = c :: cs ∧ IsNameStart c ∧ ∀ x ∈ cs, IsNameChar x := by
  unfold isIdentifier
  cases name.toList with
  | nil => simp
  | cons c cs =>
    simp only [Bool.and_eq_true, isAlpha_or_underscore, all_eq_true,
      isAlphanum_or_underscore, List.cons.injEq]
    constructor
    · rintro ⟨hc, hcs⟩
      exact ⟨c, cs, ⟨rfl, rfl⟩, hc, hcs⟩
    · rintro ⟨_, _, ⟨rfl, rfl⟩, hc, hcs⟩
      exact ⟨hc, hcs⟩

theorem lookup_eq_some_iff_mem {α : Type} {l : List (String × α)} (h : (l.map fst).Nodup)
    {k : String} {a : α} : l.lookup k = some a ↔ (k, a) ∈ l := by
  constructor
  · intro hlookup
    obtain ⟨l₁, l₂, rfl, -⟩ := lookup_eq_some_iff.mp hlookup
    simp
  · intro hmem
    have hsome : (l.lookup k).isSome := isSome_lookup_iff.mpr (mem_map_of_mem hmem)
    obtain ⟨b, hb⟩ := Option.isSome_iff_exists.mp hsome
    obtain ⟨l₁, l₂, rfl, -⟩ := lookup_eq_some_iff.mp hb
    have hkey : ((k, b) : String × α) = (k, a) :=
      inj_on_of_nodup_map h (by simp) hmem rfl
    rw [hb, (mk.inj hkey).2]

theorem nameFlaw?_eq_none_iff : nameFlaw? name = none ↔ GoodName name := by
  have hempty : isIdentifier name = true → name ≠ "" := by
    rintro h rfl
    simp [isIdentifier] at h
  have hgood : GoodName name ↔ isIdentifier name = true ∧ kindOfWord name = .ident ∧
      (intrinsics.lookup name).isSome = false := by
    rw [isIdentifier_iff, kindOfWord_eq_ident_iff, ← Bool.not_eq_true, isSome_lookup_iff]
    exact ⟨fun h => ⟨h.1, h.2, h.3⟩, fun h => ⟨h.1, h.2.1, h.2.2⟩⟩
  rw [hgood, nameFlaw?]
  by_cases hid : isIdentifier name = true
  · rw [if_neg (hempty hid), if_neg (by simp [hid])]
    by_cases hkey : kindOfWord name = .ident
    · cases hlookup : (intrinsics.lookup name).isSome <;> simp [hid, hkey]
    · simp [hkey]
  · by_cases hname : name = ""
    · simp [hname, isIdentifier]
    · rw [if_neg hname, if_pos (by simpa using hid)]
      simp [hid]

/-! ### Flaws -/

def Settings.declared (s : Settings) : List String :=
  s.scope.map fst ++ s.resources.map ResourceEntry.name

/-- What a project should be like. -/
structure Settings.Proper (s : Settings) : Prop where
  names : ∀ name ∈ s.declared, GoodName name
  distinct : s.declared.Nodup
  kinds : ∀ r ∈ s.resources, r.kind = "sink" ∨ r.kind = "source"
  widths : ∀ r ∈ s.resources, 1 ≤ r.width ∧ r.width ≤ 64

theorem reserve_spec (seen : List (String × Role)) (role : Role) (name : String) :
    ((reserve seen role name).1 = [] ↔ GoodName name ∧ name ∉ seen.map fst) ∧
      ((reserve seen role name).1 = [] → (reserve seen role name).2 = (name, role) :: seen) := by
  rw [← nameFlaw?_eq_none_iff, ← isSome_lookup_iff]
  unfold reserve
  cases nameFlaw? name with
  | some why => simp
  | none => cases seen.lookup name <;> simp

/-- The constants have no flaws if their names are good, new and different; then these names are
taken. -/
theorem constantFlaws_spec (names : List String) (seen : List (String × Role)) :
    ((constantFlaws seen names).1 = [] ↔ (∀ name ∈ names, GoodName name) ∧ names.Nodup ∧
      ∀ name ∈ names, name ∉ seen.map fst) ∧
    ((constantFlaws seen names).1 = [] → ∀ name, name ∈ (constantFlaws seen names).2.map fst ↔
      name ∈ names ∨ name ∈ seen.map fst) := by
  induction names generalizing seen with
  | nil => simp [constantFlaws]
  | cons name names ih =>
    obtain ⟨hiff, hseen⟩ := reserve_spec seen .constant name
    simp only [constantFlaws, append_eq_nil_iff]
    by_cases hname : (reserve seen .constant name).1 = []
    · obtain ⟨hgood, hnew⟩ := hiff.mp hname
      obtain ⟨ihiff, ihseen⟩ := ih ((name, .constant) :: seen)
      simp only [hname, hseen hname, true_and, ihiff]
      refine ⟨?_, fun h x => ?_⟩
      · simp only [mem_cons, forall_eq_or_imp, nodup_cons, map_cons, not_or,
          hgood, hnew, not_false_eq_true, true_and]
        constructor
        · rintro ⟨hall, hnodup, hdiff⟩
          exact ⟨hall, ⟨fun hmem => (hdiff name hmem).1 rfl, hnodup⟩, fun x hx => (hdiff x hx).2⟩
        · rintro ⟨hall, ⟨hnot, hnodup⟩, hdiff⟩
          exact ⟨hall, hnodup, fun x hx => ⟨fun heq => hnot (heq ▸ hx), hdiff x hx⟩⟩
      · rw [ihseen (ihiff.mpr h)]
        simp only [map_cons, mem_cons]
        tauto
    · simp only [hname, false_and, false_iff, false_implies, and_true]
      rintro ⟨hall, -, hdiff⟩
      exact hname (hiff.mpr ⟨hall name mem_cons_self, hdiff name mem_cons_self⟩)

theorem ResourceEntry.flaws_eq_nil_iff {r : ResourceEntry} : r.flaws = [] ↔
    (r.kind = "sink" ∨ r.kind = "source") ∧ 1 ≤ r.width ∧ r.width ≤ 64 := by
  unfold flaws sinkKind sourceKind maxWidth
  rw [append_eq_nil_iff]
  refine and_congr ?_ ?_ <;> split <;> simp_all

theorem resourceFlaws_eq_nil_iff (rs : List ResourceEntry) (seen : List (String × Role)) :
    resourceFlaws seen rs = [] ↔ (∀ r ∈ rs, GoodName r.name ∧ r.flaws = []) ∧
      (rs.map ResourceEntry.name).Nodup ∧ ∀ r ∈ rs, r.name ∉ seen.map fst := by
  induction rs generalizing seen with
  | nil => simp [resourceFlaws]
  | cons r rs ih =>
    obtain ⟨hiff, hseen⟩ := reserve_spec seen .resource r.name
    simp only [resourceFlaws, append_eq_nil_iff]
    by_cases hname : (reserve seen .resource r.name).1 = []
    · obtain ⟨hgood, hnew⟩ := hiff.mp hname
      simp only [hname, hseen hname, true_and, ih, mem_cons, forall_eq_or_imp, map_cons,
        nodup_cons, not_or, hgood, hnew, not_false_eq_true]
      constructor
      · rintro ⟨hr, hall, hnodup, hdiff⟩
        refine ⟨⟨hr, hall⟩, ⟨fun hmem => ?_, hnodup⟩, fun x hx => (hdiff x hx).2⟩
        obtain ⟨x, hx, heq⟩ := mem_map.mp hmem
        exact (hdiff x hx).1 heq
      · rintro ⟨⟨hr, hall⟩, ⟨hnot, hnodup⟩, hdiff⟩
        exact ⟨hr, hall, hnodup,
          fun x hx => ⟨fun heq => hnot (heq ▸ mem_map_of_mem hx), hdiff x hx⟩⟩
    · simp only [hname, false_and, false_iff]
      rintro ⟨hall, -, hdiff⟩
      exact hname (hiff.mpr ⟨(hall r mem_cons_self).1, hdiff r mem_cons_self⟩)

theorem perm_sortedByName {α : Type} (l : List (String × α)) : (sortedByName l).Perm l :=
  mergeSort_perm _ _

/-- **A project has no flaws exactly if it is proper.** -/
theorem Settings.flaws_eq_nil_iff (s : Settings) : s.flaws = [] ↔ s.Proper := by
  have hperm : ((sortedByName s.scope).map fst).Perm (s.scope.map fst) :=
    (perm_sortedByName s.scope).map _
  obtain ⟨hiff, htaken⟩ := constantFlaws_spec ((sortedByName s.scope).map fst) []
  simp only [flaws, append_eq_nil_iff]
  by_cases hconstants : (constantFlaws [] ((sortedByName s.scope).map fst)).1 = []
  · obtain ⟨hgood, hnodup, -⟩ := hiff.mp hconstants
    simp only [hconstants, true_and, resourceFlaws_eq_nil_iff, htaken hconstants, hperm.mem_iff,
      map_nil, not_mem_nil, or_false, ResourceEntry.flaws_eq_nil_iff]
    constructor
    · rintro ⟨hall, hresources, hdiff⟩
      refine ⟨fun name hname => ?_, ?_, fun r hr => (hall r hr).2.1, fun r hr => (hall r hr).2.2⟩
      · obtain hname | hname := mem_append.mp hname
        · exact hgood name (hperm.mem_iff.mpr hname)
        · obtain ⟨r, hr, rfl⟩ := mem_map.mp hname
          exact (hall r hr).1
      · refine nodup_append'.mpr ⟨hperm.nodup_iff.mp hnodup, hresources, ?_⟩
        intro name hname hname'
        obtain ⟨r, hr, rfl⟩ := mem_map.mp hname'
        exact hdiff r hr hname
    · intro h
      obtain ⟨-, hresources, hdisjoint⟩ := nodup_append'.mp h.distinct
      exact ⟨fun r hr => ⟨h.names _ (mem_append_right _ (mem_map_of_mem hr)),
        h.kinds r hr, h.widths r hr⟩, hresources,
        fun r hr hmem => hdisjoint hmem (mem_map_of_mem hr)⟩
  · simp only [hconstants, false_and, false_iff]
    intro h
    refine hconstants (hiff.mpr ⟨fun name hname => ?_, ?_, by simp⟩)
    · exact h.names name (mem_append_left _ (hperm.mem_iff.mp hname))
    · exact hperm.nodup_iff.mpr (nodup_append'.mp h.distinct).1

theorem Settings.proper_empty : empty.Proper := by
  refine ⟨?_, ?_, ?_, ?_⟩ <;> simp [empty, declared]

/-- What is loaded from a project file is proper, whatever reads the file. -/
theorem proper_load {codec : Codec} {bytes : Text.Bytes} (h : codec.load bytes = .ok s) :
    s.Proper := by
  obtain ⟨t, -, ht⟩ := Simulation.bind_eq_ok.mp h
  dsimp only at ht
  rw [← Settings.flaws_eq_nil_iff]
  split at ht
  · rename_i hflaws
    cases ht
    exact hflaws
  · cases ht

/-! ### Resources -/

/-- A resource is what an entry declares: of its name, of its kind, with data of exactly its
width, and with the signals of a handshake named after it. -/
structure ResourceEntry.Describes (e : ResourceEntry) (r : Resource) (c : Channel) : Prop where
  kind : e.kind = "sink" ∧ r = .sink c ∨ e.kind = "source" ∧ r = .source c
  name : c.name = e.name
  data : c.data.name = e.name ++ "_data" ∧ c.data.bits = e.width
  stb : c.stb.name = e.name ++ "_stb" ∧ c.stb.bits = 1
  ack : c.ack.name = e.name ++ "_ack" ∧ c.ack.bits = 1

theorem build_of_kind (hkind : e.kind = "sink" ∨ e.kind = "source") (n : Nat) :
    ∃ r, e.build? n = (some r, n + 3) ∧
      (e.kind = "sink" ∧ r = .sink (channelAt n e.name e.width) ∨
        e.kind = "source" ∧ r = .source (channelAt n e.name e.width)) := by
  unfold build?
  obtain hkind | hkind := hkind
  · have hsink : e.kind = sinkKind := hkind
    rw [if_pos hsink]
    exact ⟨_, rfl, .inl ⟨hkind, rfl⟩⟩
  · have hsource : e.kind = sourceKind := hkind
    have hne : e.kind ≠ sinkKind := by
      rw [hkind]
      decide
    rw [if_neg hne, if_pos hsource]
    exact ⟨_, rfl, .inr ⟨hkind, rfl⟩⟩

/-- The entries of a proper project and its resources correspond. -/
theorem describes_resources (h : s.Proper) (n : Nat) :
    List.Forall₂ (fun e r => ∃ c, e.Describes r c) s.resources (s.options n).1.resources := by
  show List.Forall₂ _ s.resources ((s.resources.mapM build? n).1.filterMap id)
  have hkinds := h.kinds
  have hwidths := h.widths
  generalize s.resources = es at hkinds hwidths ⊢
  induction es generalizing n with
  | nil => exact .nil
  | cons e es ih =>
    obtain ⟨r, hr, hkind⟩ := build_of_kind (hkinds e mem_cons_self) n
    rw [mapM_build_cons, hr]
    have hwidth := Int.max_eq_left (hwidths e mem_cons_self).1
    exact .cons ⟨_, hkind, rfl, ⟨rfl, hwidth⟩, ⟨rfl, rfl⟩, ⟨rfl, rfl⟩⟩
      (ih (n + 3) (fun r hr => hkinds r (mem_cons_of_mem e hr))
        fun r hr => hwidths r (mem_cons_of_mem e hr))

theorem ResourceEntry.Describes.name_eq {r : Resource} {c : Channel} (h : e.Describes r c) :
    r.name = e.name := by
  obtain ⟨-, rfl⟩ | ⟨-, rfl⟩ := h.kind <;> exact h.name

theorem map_name_resources (h : s.Proper) (n : Nat) :
    (s.options n).1.resources.map Resource.name = s.resources.map ResourceEntry.name := by
  have hnames : ∀ es rs, List.Forall₂ (fun (e : ResourceEntry) r => ∃ c, e.Describes r c) es rs →
      rs.map Resource.name = es.map ResourceEntry.name := by
    intro es rs hall
    induction hall with
    | nil => rfl
    | cons hd _ ih =>
      obtain ⟨c, hc⟩ := hd
      rw [map_cons, map_cons, hc.name_eq, ih]
  exact hnames _ _ (describes_resources h n)

/-! ### Scopes -/

theorem bindAll_eq_ok {e : Env} {l : List (String × Binding)}
    (h : (e.bindings.map fst ++ l.map fst).Nodup) :
    bindAll e l = .ok ⟨e.bindings ++ l, e.loopVars⟩ := by
  induction l generalizing e with
  | nil => simp [bindAll]
  | cons p l ih =>
    obtain ⟨name, b⟩ := p
    have hnew : ¬ (e.lookup name).isSome := by
      rw [Env.lookup, isSome_lookup_iff]
      intro hmem
      exact (nodup_append'.mp h).2.2 hmem (by simp)
    have hset : e.set name b = ⟨e.bindings ++ [(name, b)], e.loopVars⟩ := if_neg hnew
    rw [bindAll, if_neg hnew, hset, ih (by simpa using h)]
    simp

def Settings.bindings (s : Settings) (resources : List Resource) : List (String × Binding) :=
  intrinsics.map (fun (name, i) => (name, .intrinsic i)) ++
    ((sortedByName s.scope).map (fun (name, v) => (name, .int v)) ++
      resources.map fun r => (r.name, .resource r))

theorem nodup_bindings (h : s.Proper) (n : Nat) :
    ((s.bindings (s.options n).1.resources).map fst).Nodup := by
  have hscope : (((sortedByName s.scope).map fst) ++
      (s.options n).1.resources.map Resource.name).Perm s.declared := by
    rw [map_name_resources h]
    exact ((perm_sortedByName s.scope).map _).append_right _
  have hmap : (s.bindings (s.options n).1.resources).map fst = intrinsics.map fst ++
      ((sortedByName s.scope).map fst ++ (s.options n).1.resources.map Resource.name) := by
    simp [bindings, Function.comp_def]
  rw [hmap, nodup_append']
  refine ⟨by decide, hscope.nodup_iff.mpr h.distinct, fun name hname hmem => ?_⟩
  exact (h.names name (hscope.mem_iff.mp hmem)).intrinsic hname

/-- **The scope of a proper project**: the built-in functions, the constants and the resources,
each under its name, and nothing else. -/
theorem env_eq_ok (h : s.Proper) (n : Nat) :
    (s.options n).1.env = .ok ⟨s.bindings (s.options n).1.resources, []⟩ := by
  have hnodup := nodup_bindings h n
  have hvalues : (s.options n).1.values = [] := rfl
  have hscope : (s.options n).1.scope = s.scope := rfl
  have hsorted : sortedByName ([] : List (String × Value)) = [] :=
    (perm_sortedByName _).eq_nil
  rw [Options.env, hvalues, hscope, hsorted, map_nil, append_nil]
  exact bindAll_eq_ok hnodup

theorem lookup_bindings (h : s.Proper) (n : Nat) {b : Binding} :
    (s.bindings (s.options n).1.resources).lookup name = some b ↔
      (∃ v, (name, v) ∈ s.scope ∧ b = .int v) ∨
        (∃ r ∈ (s.options n).1.resources, r.name = name ∧ b = .resource r) ∨
          ∃ i, (name, i) ∈ intrinsics ∧ b = .intrinsic i := by
  rw [lookup_eq_some_iff_mem (nodup_bindings h n)]
  simp only [bindings, mem_append, mem_map, Prod.mk.injEq, Prod.exists,
    (perm_sortedByName s.scope).mem_iff]
  constructor
  · rintro (⟨_, i, hi, rfl, rfl⟩ | ⟨_, v, hv, rfl, rfl⟩ | ⟨r, hr, rfl, rfl⟩)
    · exact .inr (.inr ⟨i, hi, rfl⟩)
    · exact .inl ⟨v, hv, rfl⟩
    · exact .inr (.inl ⟨r, hr, rfl, rfl⟩)
  · rintro (⟨v, hv, rfl⟩ | ⟨r, hr, rfl, rfl⟩ | ⟨i, hi, rfl⟩)
    · exact .inr (.inl ⟨_, v, hv, rfl, rfl⟩)
    · exact .inr (.inr ⟨r, hr, rfl, rfl⟩)
    · exact .inl ⟨_, i, hi, rfl, rfl⟩

end Sequencer.Project
