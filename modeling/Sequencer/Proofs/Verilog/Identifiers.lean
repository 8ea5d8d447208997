import Sequencer.Proofs.Verilog.Reading

/-!
# Every name is given, and every given name can stand

The names of a module are given in one walk over its statements and looked up in another, when it is
written. The two walks meet the same values (`Names.Knows`). A given name is an identifier and no
keyword, whatever the signals are called.
-/

namespace Sequencer.Verilog

open List
open Circuit Simulation Names

/-! ### Identifiers -/

def IsLetter (c : Char) : Prop := ('a' ≤ c ∧ c ≤ 'z') ∨ ('A' ≤ c ∧ c ≤ 'Z') ∨ c = '_'

def IsDigit (c : Char) : Prop := '0' ≤ c ∧ c ≤ '9'

/-- A letter or an underscore, and then letters, underscores and digits. -/
def IsIdentifier (x : String) : Prop :=
  ∃ c cs, x.toList = c :: cs ∧ IsLetter c ∧ ∀ d ∈ cs, IsLetter d ∨ IsDigit d

variable {c : Char} {base : String}

theorem isLetter_of_isNameStart (h : isNameStart c = true) : IsLetter c := by
  have hcases : (decide ('A' ≤ c ∧ c ≤ 'Z') || (decide ('a' ≤ c) && decide (c ≤ 'z')) ||
      decide (c = '_')) = true := h
  simp only [Bool.or_eq_true, Bool.and_eq_true, decide_eq_true_eq] at hcases
  obtain (h | h) | h := hcases
  · exact .inr (.inl h)
  · exact .inl h
  · exact .inr (.inr h)

theorem isDigit_of_charIsDigit (h : c.isDigit = true) : IsDigit c := by
  simp only [Char.isDigit, Bool.and_eq_true, decide_eq_true_eq] at h
  exact h

theorem isLetter_or_isDigit_of_isNameChar (h : isNameChar c = true) : IsLetter c ∨ IsDigit c := by
  simp only [isNameChar, Char.isAlphanum, Bool.or_eq_true, decide_eq_true_eq] at h
  obtain (h | h) | h := h
  · exact .inl (isLetter_of_isNameStart (by simp [isNameStart, h]))
  · exact .inr (isDigit_of_charIsDigit h)
  · exact .inl (.inr (.inr h))

/-- Whatever a signal is called, it gets an identifier. -/
theorem isIdentifier_legalName (s : String) : IsIdentifier (legalName s) := by
  have hunderscore : IsLetter '_' := .inr (.inr rfl)
  rw [IsIdentifier, legalName, String.toList_ofList]
  cases s.toList with
  | nil =>
    refine ⟨'u', "nnamed".toList, by decide, isLetter_of_isNameStart (by decide), ?_⟩
    have hall : "nnamed".toList.all isNameChar = true := by decide
    exact fun d hd => isLetter_or_isDigit_of_isNameChar (all_eq_true.mp hall d hd)
  | cons c cs =>
    refine ⟨_, _, rfl, ?_, fun d hd => ?_⟩
    · split
      · exact isLetter_of_isNameStart ‹_›
      · exact hunderscore
    · obtain ⟨c, -, rfl⟩ := mem_map.mp hd
      split
      · exact isLetter_or_isDigit_of_isNameChar ‹_›
      · exact .inl hunderscore

theorem IsIdentifier.numbered (h : IsIdentifier base) (n : Nat) :
    IsIdentifier (numbered base n) := by
  obtain ⟨c, cs, hbase, hc, hcs⟩ := h
  refine ⟨c, cs ++ '_' :: Nat.toDigits 10 n, ?_, hc, fun d hd => ?_⟩
  · have hdigits : (toString n).toList = Nat.toDigits 10 n := by
      rw [Nat.toString_eq_ofList_toDigits, String.toList_ofList]
    rw [Verilog.numbered, String.toList_append, String.toList_append, hbase, hdigits, append_assoc]
    rfl
  · rw [mem_append, mem_cons] at hd
    obtain hd | rfl | hd := hd
    · exact hcs d hd
    · exact .inl (.inr (.inr rfl))
    · exact .inr (isDigit_of_charIsDigit (Nat.isDigit_of_mem_toDigits (by decide) (by decide) hd))

theorem IsIdentifier.seek (h : IsIdentifier base) (used : List String) (fuel n : Nat) :
    IsIdentifier (seek used base fuel n) := by
  induction fuel generalizing n with
  | zero => exact h.numbered n
  | succ fuel ih =>
    rw [Verilog.seek]
    split
    · exact ih (n + 1)
    · exact h.numbered n

theorem IsIdentifier.freeName (h : IsIdentifier base) (used : List String) :
    IsIdentifier (freeName used base) := by
  rw [Verilog.freeName]
  split
  · exact h.seek used _ _
  · exact h

/-- A name that can stand in a module. -/
def Legal (x : String) : Prop := IsIdentifier x ∧ x ∉ keywords

theorem legal_freeName (h : IsIdentifier base) (used : List String) : Legal (freeName used base) :=
  ⟨h.freeName used, (freeName_notMem used base).2⟩

theorem isIdentifier_of_mem_wireBases (h : base ∈ wireBases) : IsIdentifier base := by
  have hlegal : ∀ x ∈ wireBases, legalName x = x := by decide
  exact hlegal base h ▸ isIdentifier_legalName base

def Names.given (n : Names) : List String := n.nets.map Net.ident ++ n.wires.map Wire.ident

/-- **Given names are legal**, whatever the signals are called. -/
theorem legal_ofFragment (ports : List Port) (f : Fragment) :
    ∀ x ∈ (Names.ofFragment ports f).given, Legal x := by
  have hinv : Names.Invariant fun _ n => ∀ x ∈ n.given, Legal x := {
    declare := by
      intro l n s h x hx
      rw [declare_eq] at hx
      split at hx
      · exact h x hx
      · simp only [Names.given, Names.withNet, map_append, map_singleton,
          append_assoc, mem_append, mem_singleton] at hx
        obtain hx | rfl | hx := hx
        · exact h x (mem_append_left _ hx)
        · exact legal_freeName (isIdentifier_legalName _) _
        · exact h x (mem_append_right _ hx)
    update := by
      intro l n s mark hm h
      rwa [Names.given, map_update fun net => (hm net).2]
    addWire := by
      intro l n v base width _ hbase h x hx
      rw [addWire_eq] at hx
      split at hx
      · exact h x hx
      · simp only [Names.given, Names.withWire, map_append, map_singleton,
          ← append_assoc, mem_append, mem_singleton] at hx
        obtain hx | rfl := hx
        · exact h x (mem_append.mpr hx)
        · exact legal_freeName (isIdentifier_of_mem_wireBases hbase) _
    skip := fun _ h => h }
  exact hinv.ofFragment (forall_mem_nil _) ports f

/-! ### Nothing that is looked up is missing -/

/-- There are names for everything that a value is written with. -/
structure Names.Covers (n : Names) (v : Value) : Prop where
  signals : ∀ s ∈ v.reads, (n.net? s).isSome = true
  wires : ∀ u ∈ v.walk, (n.wire? u).isSome = needsWire u

/-- There are names for everything that a statement is written with, apart from the statements
inside it. -/
structure Names.Knows (n : Names) (s : Circuit.Stmt) : Prop where
  target : ∀ t, target? s = some t → (n.net? t).isSome = true
  values : ∀ v ∈ values s, n.Covers v

theorem isSome_net? {n : Names} {s : Signal} : (n.net? s).isSome = true ↔ s ∈ n.signals := by
  rw [Option.isSome_iff_ne_none, ne_eq, net?_eq_none, not_not, signals]

theorem covers_of_mem_nodes {ports : List Port} {f : Fragment} {v : Value}
    (hv : v.walk ⊆ nodes f.comb ∨ v.walk ⊆ nodes f.sync)
    (hreads : v.reads ⊆ mentioned f.comb ∨ v.reads ⊆ mentioned f.sync) :
    (Names.ofFragment ports f).Covers v where
  signals := fun s hs => isSome_net?.mpr
    (mem_signals.mpr (.inr (hreads.imp (fun h => h hs) fun h => h hs)))
  wires := fun u hu => by
    have hwidth := width?_ofFragment ports f u
    rw [if_pos (hv.imp (fun h => h hu) fun h => h hu)] at hwidth
    rw [needsWire, ← hwidth, Names.width?, Option.isSome_map]

/-- **Nothing that is looked up is missing**: the walk that gives names meets every signal and every
wire that a statement is written with. -/
theorem knows_ofFragment {ports : List Port} {f : Fragment} {s : Circuit.Stmt}
    (hs : s ∈ walk f.comb ∨ s ∈ walk f.sync) : (Names.ofFragment ports f).Knows s where
  target := fun t ht => by
    have hmentions : t ∈ mentions s := by simp [mentions, ht]
    exact isSome_net?.mpr (mem_signals.mpr (.inr (hs.imp
      (fun h => mem_flatMap.mpr ⟨s, h, hmentions⟩) fun h => mem_flatMap.mpr ⟨s, h, hmentions⟩)))
  values := fun v hv => by
    have hnodes : ∀ ss, s ∈ walk ss → v.walk ⊆ nodes ss := fun ss h u hu =>
      mem_flatMap.mpr ⟨s, h, mem_flatMap.mpr ⟨v, hv, hu⟩⟩
    have hreads : ∀ ss, s ∈ walk ss → v.reads ⊆ mentioned ss := fun ss h x hx =>
      mem_flatMap.mpr ⟨s, h, mem_append_right _ (mem_flatMap.mpr ⟨v, hv, hx⟩)⟩
    exact covers_of_mem_nodes (hs.imp (hnodes _) (hnodes _)) (hs.imp (hreads _) (hreads _))

/-! ### The names in an expression -/

def Expr.names : Expr → List String
  | .name x => [x]
  | .number _ => []
  | .binary _ l r => l.names ++ r.names
  | .bit x _ => [x]
  | .part x _ _ => [x]

/-- The signals and the values with wires that the expression of a value mentions. Only comparisons
are written out. -/
def shown : Value → List Value
  | .hole => []
  | .signal s => [.signal s]
  | .const _ _ => []
  | .binary tag op l r => if op.isComparison then shown l ++ shown r else [.binary tag op l r]
  | .slice tag x lo hi => if indexable x then [x] else [.slice tag x lo hi]

/-- The signals and the values with wires that the wire of a value is made of. -/
def sources (v : Value) : List Value := (parts v).flatMap shown

namespace Names

variable {n : Names} {v : Value}

/-- The name of a signal or of the wire of a value. -/
def nameOf (n : Names) : Value → String
  | .signal s => n.signalName s
  | v => n.wireName v

theorem signalName_mem_given {s : Signal} (h : (n.net? s).isSome = true) :
    n.signalName s ∈ n.given := by
  obtain ⟨net, hnet, -, hname⟩ := exists_net (isSome_net?.mp h)
  exact hname ▸ mem_append_left _ (mem_map_of_mem hnet)

theorem wireName_mem_given (h : (n.wire? v).isSome = true) : n.wireName v ∈ n.given := by
  obtain ⟨w, hw⟩ := Option.isSome_iff_exists.mp h
  have hname : n.wireName v = w.ident := by
    rw [wireName, hw]
    rfl
  exact hname ▸ mem_append_right _ (mem_map_of_mem (mem_of_find?_eq_some hw))

/-- What covers a value covers whatever has no other parts. -/
theorem Covers.mono {u : Value} (h : n.Covers v) (hsub : u.walk ⊆ v.walk) : n.Covers u :=
  ⟨fun s hs => h.signals s (Value.signal_mem_walk.mp (hsub (Value.signal_mem_walk.mpr hs))),
    fun t ht => h.wires t (hsub ht)⟩

theorem Covers.of_mem_parts {u : Value} (h : n.Covers v) (hu : u ∈ parts v) : n.Covers u :=
  h.mono fun _ ht => mem_of_mem_tail (walk_subset_of_mem_parts hu ht)

end Names

theorem mem_shown {u v : Value} (h : u ∈ shown v) :
    u ∈ v.walk ∧ ((∃ s, u = .signal s) ∨ needsWire u = true) := by
  induction v with
  | hole | const => cases h
  | signal s =>
    obtain rfl := mem_singleton.mp h
    exact ⟨by simp [Value.walk], .inl ⟨s, rfl⟩⟩
  | binary tag op l r ihl ihr =>
    rw [shown] at h
    split at h
    · obtain h | h := mem_append.mp h
      · exact ⟨by simp [Value.walk, (ihl h).1], (ihl h).2⟩
      · exact ⟨by simp [Value.walk, (ihr h).1], (ihr h).2⟩
    · rename_i hop
      obtain rfl := mem_singleton.mp h
      exact ⟨by simp [Value.walk], .inr (by simp [needsWire, wireWidth?, hop])⟩
  | slice tag x lo hi =>
    rw [shown] at h
    split at h
    · rename_i hx
      obtain rfl := mem_singleton.mp h
      cases u with
      | signal s => exact ⟨by simp [Value.walk], .inl ⟨s, rfl⟩⟩
      | binary tag' op l r =>
        refine ⟨by simp [Value.walk], .inr ?_⟩
        simpa [needsWire, wireWidth?, indexable] using hx
      | hole | const | slice => cases hx
    · rename_i hx
      obtain rfl := mem_singleton.mp h
      exact ⟨by simp [Value.walk], .inr (by simp [needsWire, wireWidth?, hx])⟩

section Expressions

variable {n : Names} {v : Value} {e : Expr}

theorem names_select (ident : String) (width lo hi : Int) :
    (select ident width lo hi).names = [ident] := by
  unfold select
  split
  · rfl
  · split <;> rfl

theorem baseName_eq (n : Names) (tag : Nat) (x : Value) (lo hi : Int) :
    [n.baseName (.slice tag x lo hi) x] = (shown (.slice tag x lo hi)).map n.nameOf := by
  cases x with
  | hole | signal | const | slice => rfl
  | binary tag' op l r =>
    simp only [baseName, shown]
    split <;> rfl

/-- **The names in an expression** are those of what its value shows. -/
theorem names_exprOf (h : n.Covers v) (he : exprOf n v = .ok e) :
    e.names = (shown v).map n.nameOf := by
  induction v generalizing e with
  | hole => cases he
  | signal | const =>
    cases he
    rfl
  | slice tag x lo hi =>
    cases he
    rw [names_select, baseName_eq]
  | binary tag op l r ihl ihr =>
    have hwire := h.wires (.binary tag op l r) (by simp [Value.walk])
    rw [exprOf] at he
    split at he
    · -- A value with a wire is not a comparison.
      rename_i w hw
      cases he
      have hop : ¬ op.isComparison = true := by
        intro hop
        simp [hw, needsWire, wireWidth?, hop] at hwire
      rw [shown, if_neg hop, Expr.names, map_singleton, nameOf, wireName, hw]
      · rfl
      · exact fun s => Value.noConfusion
    · rename_i hw
      obtain ⟨left, right, hleft, hright, rfl⟩ := bind₂_eq_ok.mp he
      have hop : op.isComparison = true := by
        simpa [hw, needsWire, wireWidth?] using hwire
      rw [shown, if_pos hop, Expr.names, ihl (h.of_mem_parts (by simp [parts])) hleft,
        ihr (h.of_mem_parts (by simp [parts])) hright, map_append]

theorem names_wireValue {w : Wire} (hneeds : needsWire w.node = true) (h : n.Covers w.node)
    (he : wireValue n w = .ok e) : e.names = (sources w.node).map n.nameOf := by
  obtain ⟨v, ident, width⟩ := w
  cases v with
  | hole | signal | const => cases hneeds
  | binary tag op l r =>
    obtain ⟨left, right, hleft, hright, rfl⟩ := bind₂_eq_ok.mp he
    rw [Expr.names, names_exprOf (h.of_mem_parts (by simp [parts])) hleft,
      names_exprOf (h.of_mem_parts (by simp [parts])) hright]
    simp [sources, parts]
  | slice tag x lo hi =>
    rw [names_exprOf (h.of_mem_parts (by simp [parts])) he]
    simp [sources, parts]

theorem nameOf_mem_given (h : n.Covers v) {u : Value} (hu : u ∈ shown v) :
    n.nameOf u ∈ n.given := by
  obtain ⟨hwalk, ⟨s, rfl⟩ | hneeds⟩ := mem_shown hu
  · exact signalName_mem_given (h.signals s (Value.signal_mem_walk.mp hwalk))
  · have hmem := wireName_mem_given ((h.wires u hwalk).trans hneeds)
    cases u with
    | hole | signal | const => cases hneeds
    | binary | slice => exact hmem

theorem names_exprOf_subset (h : n.Covers v) (he : exprOf n v = .ok e) : e.names ⊆ n.given := by
  rw [names_exprOf h he]
  intro x hx
  obtain ⟨u, hu, rfl⟩ := mem_map.mp hx
  exact nameOf_mem_given h hu

theorem names_wireValue_subset {w : Wire} (hneeds : needsWire w.node = true)
    (h : n.Covers w.node) (he : wireValue n w = .ok e) : e.names ⊆ n.given := by
  rw [names_wireValue hneeds h he]
  intro x hx
  obtain ⟨u, hu, rfl⟩ := mem_map.mp hx
  obtain ⟨t, ht, hu⟩ := mem_flatMap.mp hu
  exact nameOf_mem_given (h.of_mem_parts ht) hu

end Expressions

section Modules

variable {ports : List Port} {f : Fragment}

theorem covers_node {w : Wire} (hw : w ∈ (Names.ofFragment ports f).wires) :
    (Names.ofFragment ports f).Covers w.node ∧ needsWire w.node = true := by
  obtain ⟨⟨s, hs, v, hv, hnode⟩, hwidth⟩ := node_of_mem_wires hw
  refine ⟨?_, by rw [needsWire, hwidth, Option.isSome_some]⟩
  exact ((knows_ofFragment (mem_append.mp hs)).values v hv).mono (Value.walk_subset hnode)

theorem existsUnique_of_nodup {α β : Type} {key : α → β} {l : List α} (h : (l.map key).Nodup)
    {b : β} (hb : b ∈ l.map key) : ∃! a, a ∈ l ∧ key a = b := by
  obtain ⟨a, ha, rfl⟩ := mem_map.mp hb
  exact ⟨a, ⟨ha, rfl⟩, fun c hc => inj_on_of_nodup_map h hc.1 ha hc.2⟩

/-- **Names are legal, different and complete.** Whatever its signals are called, a fragment in
which nothing is missing has one name for each signal and one for each value that needs a wire. No
two of them are equal or those of the clock and the reset; each is an identifier and no keyword. The
module is written, whatever is looked up for it has its name, and its expressions mention no
other. -/
theorem names_given_once (h : ∀ s ∈ walk f.comb ++ walk f.sync, Complete s) :
    let n := Names.ofFragment ports f
    (∀ s, s ∈ ports.map Port.signal ∨ s ∈ mentioned f.comb ∨ s ∈ mentioned f.sync →
        ∃! net, net ∈ n.nets ∧ net.signal = s) ∧
      (∀ v ∈ nodes f.comb ++ nodes f.sync, needsWire v = true → ∃! w, w ∈ n.wires ∧ w.node = v) ∧
      (clockName :: resetName :: n.given).Nodup ∧
      (∀ x ∈ n.given, IsIdentifier x ∧ x ∉ keywords) ∧
      (∀ s ∈ walk f.comb ++ walk f.sync, n.Knows s ∧
        ∀ v ∈ values s, ∃ e, exprOf n v = .ok e ∧ e.names ⊆ n.given) ∧
      (∀ w ∈ n.wires, ∃ e, wireValue n w = .ok e ∧ e.names ⊆ n.given) ∧
      ∀ name digest, ∃ m, moduleOf name digest n f = .ok m := by
  have hdistinct := distinct_ofFragment ports f
  refine ⟨fun s hs => existsUnique_of_nodup hdistinct.signals (mem_signals.mpr hs),
    fun v hv hneeds => existsUnique_of_nodup hdistinct.nodes ?_, hdistinct.idents,
    legal_ofFragment ports f, fun s hs => ?_, fun w hw => ?_, exists_moduleOf h⟩
  · rw [(lists_ofFragment ports f).nodes, mem_eraseDups]
    exact mem_filter.mpr ⟨hv, hneeds⟩
  · have hknows : (Names.ofFragment ports f).Knows s := knows_ofFragment (mem_append.mp hs)
    refine ⟨hknows, fun v hv => ?_⟩
    obtain ⟨e, he⟩ := exists_exprOf (Names.ofFragment ports f) ((h s hs).whole v (values_subset hv))
    exact ⟨e, he, names_exprOf_subset (hknows.values v hv) he⟩
  · obtain ⟨m, hm⟩ := exists_moduleOf h "" ""
    obtain ⟨e, he⟩ := (written_of_moduleOf hm).exists_wireValue hw
    obtain ⟨hcovers, hneeds⟩ := covers_node hw
    exact ⟨e, he, names_wireValue_subset hneeds hcovers he⟩

/-- Assignments between signals whose names are missing, equal, taken, reserved or no identifiers,
and a slice of a number. -/
def strangers : Fragment where
  comb := []
  sync := [
    .assign ⟨0, "", 9, 0⟩
      (.binary 10 .add (.signal ⟨1, "reg", 8, 0⟩) (.signal ⟨2, "r", 8, 0⟩)),
    .assign ⟨3, "r", 4, 0⟩ (.slice 11 (.const 12 ⟨5, 8⟩) 0 4),
    .assign ⟨4, "r_1", 8, 0⟩ (.signal ⟨5, "größe", 8, 0⟩),
    .assign ⟨6, "expr_tmp", 1, 0⟩ (.signal ⟨7, "sys_clk", 1, 0⟩)]

/-- Empty, reserved, foreign and repeated names all become names of a module. -/
theorem strangers_named :
    (∀ s ∈ walk strangers.comb ++ walk strangers.sync, Complete s) ∧
      (Names.ofFragment [] strangers).given =
        ["unnamed", "reg_1", "r", "r_1", "r_1_1", "gr__e", "expr_tmp_1", "sys_clk_1",
          "expr_tmp", "slice_tmp"] ∧
      (clockName :: resetName :: (Names.ofFragment [] strangers).given).Nodup ∧
      ∃ m, moduleOf "strangers" "" (Names.ofFragment [] strangers) strangers = .ok m := by
  have hcomplete : ∀ s ∈ walk strangers.comb ++ walk strangers.sync, Complete s := by
    have hassign : ∀ t v, v.Whole → Complete (.assign t v) := fun t v hv =>
      ⟨nofun, nofun, fun u hu => mem_singleton.mp hu ▸ hv⟩
    refine forall_mem_cons.mpr ⟨hassign _ _ ⟨trivial, trivial⟩, ?_⟩
    refine forall_mem_cons.mpr ⟨hassign _ _ trivial, ?_⟩
    refine forall_mem_cons.mpr ⟨hassign _ _ trivial, ?_⟩
    exact forall_mem_singleton.mpr (hassign _ _ trivial)
  obtain ⟨-, -, hnodup, -, -, -, hmodule⟩ := @names_given_once [] strangers hcomplete
  exact ⟨hcomplete, by decide, hnodup, hmodule "strangers" ""⟩

end Modules

end Sequencer.Verilog
