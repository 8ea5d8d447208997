import Mathlib.Data.List.Nodup
import Mathlib.Data.List.Perm.Subperm
import Sequencer.Proofs.Simulation.Settling
import Sequencer.Verilog.Emit

/-!
# Names in modules

Names are given while the ports and the two blocks are walked, so what is true of them is proved for
one step of the walk and then for the whole.
-/

namespace Sequencer.Circuit.Value

theorem signal_mem_walk {v : Value} {s : Signal} : .signal s ∈ v.walk ↔ s ∈ v.reads := by
  induction v with
  | hole | signal t | const => simp [walk, reads]
  | binary tag op l r ihl ihr => simp [walk, reads, ihl, ihr]
  | slice tag x lo hi ih => simp [walk, reads, ih]

end Sequencer.Circuit.Value

namespace Sequencer.Verilog

open List
open Circuit

/-! ### Free names -/

theorem numbered_inj {base : String} {i j : Nat} (h : numbered base i = numbered base j) :
    i = j := by
  have htext : toString i = toString j := (String.append_right_inj _).mp h
  rw [Nat.toString_eq_ofList_toDigits, Nat.toString_eq_ofList_toDigits, String.ofList_inj] at htext
  rw [← @Nat.ofDigitChars_ten_toDigits i, htext, Nat.ofDigitChars_ten_toDigits]

variable (used : List String)

/-- The search ends with a free name, or all the names it has tried are taken. -/
theorem seek_spec (base : String) (fuel n : Nat) :
    isTaken used (seek used base fuel n) = false ∨
      ∀ i ≤ fuel, isTaken used (numbered base (n + i)) = true := by
  induction fuel generalizing n with
  | zero =>
    rw [seek]
    cases hn : isTaken used (numbered base n) with
    | false => exact .inl rfl
    | true =>
      right
      intro i hi
      rw [Nat.le_zero.mp hi, Nat.add_zero, hn]
  | succ fuel ih =>
    rw [seek]
    split
    · rename_i hn
      obtain hfree | htaken := ih (n + 1)
      · exact .inl hfree
      · right
        rintro (_ | i) hi
        · exact hn
        · rw [show n + (i + 1) = n + 1 + i by omega]
          exact htaken i (by omega)
    · rename_i hn
      exact .inl (Bool.not_eq_true _ ▸ hn)

theorem isTaken_freeName (base : String) : isTaken used (freeName used base) = false := by
  unfold freeName
  split
  · refine (seek_spec _ _ _ _).resolve_right fun htaken => ?_
    let tried := (List.range (used.length + keywords.length + 1)).map fun i => numbered base (1 + i)
    have hsub : tried ⊆ used ++ keywords := by
      intro x hx
      obtain ⟨i, hi, rfl⟩ := mem_map.mp hx
      simpa [isTaken] using htaken i (Nat.le_of_lt_succ (mem_range.mp hi))
    have hnodup : tried.Nodup :=
      Nodup.map (fun i j h => Nat.add_left_cancel (numbered_inj h)) nodup_range
    have hle := (hnodup.subperm hsub).length_le
    simp only [tried, length_map, length_range, length_append] at hle
    omega
  · rename_i hfree
    exact Bool.not_eq_true _ ▸ hfree

theorem freeName_notMem (base : String) :
    freeName used base ∉ used ∧ freeName used base ∉ keywords := by
  simpa [isTaken] using isTaken_freeName used base

/-! ### Every name is given once -/

def Names.idents (n : Names) : List String :=
  clockName :: resetName :: (n.nets.map Net.ident ++ n.wires.map Wire.ident)

/-- No signal, no value and no name occurs twice. -/
structure Names.Distinct (n : Names) : Prop where
  signals : (n.nets.map Net.signal).Nodup
  nodes : (n.wires.map Wire.node).Nodup
  idents : n.idents.Nodup
  used : n.idents ⊆ n.used

/-- A change of what is known about a net that keeps its signal and its name. -/
def Marks (f : Net → Net) : Prop := ∀ net, (f net).signal = net.signal ∧ (f net).ident = net.ident

namespace Names

variable {n : Names} {s t : Signal} {v : Value}

theorem net?_eq_none : n.net? s = none ↔ s ∉ n.nets.map Net.signal := by
  simp only [net?, find?_eq_none, decide_eq_true_eq, mem_map, not_exists, not_and]

theorem wire?_eq_none : n.wire? v = none ↔ v ∉ n.wires.map Wire.node := by
  simp only [wire?, find?_eq_none, decide_eq_true_eq, mem_map, not_exists, not_and]

def withNet (n : Names) (s : Signal) (ident : String) : Names :=
  { n with nets := n.nets ++ [⟨s, ident, false, false, none⟩], used := ident :: n.used }

def withWire (n : Names) (w : Wire) : Names :=
  { n with wires := n.wires ++ [w], used := w.ident :: n.used }

theorem declare_eq (n : Names) (s : Signal) : n.declare s =
    if (n.net? s).isSome then n else n.withNet s (freeName n.used (legalName s.name)) := rfl

theorem addWire_eq (n : Names) (v : Value) (base : String) (width : Int) : n.addWire v base width =
    if (n.wire? v).isSome then n else n.withWire ⟨v, freeName n.used base, width⟩ := rfl

theorem find?_of_nodup {α β : Type} [DecidableEq β] {key : α → β} {l : List α}
    (h : (l.map key).Nodup) {a : α} (ha : a ∈ l) : l.find? (fun b => key b = key a) = some a := by
  cases hfind : l.find? (fun b => key b = key a) with
  | none => simpa using find?_eq_none.mp hfind a ha
  | some b =>
    have hkey : key b = key a := by simpa using find?_some hfind
    rw [inj_on_of_nodup_map h (mem_of_find?_eq_some hfind) ha hkey]

theorem Distinct.net?_of_mem (h : n.Distinct) {net : Net} (hnet : net ∈ n.nets) :
    n.net? net.signal = some net := find?_of_nodup h.signals hnet

theorem Distinct.wire?_of_mem (h : n.Distinct) {w : Wire} (hw : w ∈ n.wires) :
    n.wire? w.node = some w := find?_of_nodup h.nodes hw

theorem Distinct.start : Names.start.Distinct :=
  ⟨nodup_nil, nodup_nil, by decide, Subset.refl _⟩

theorem Distinct.cons (h : n.Distinct) {ident : String} (hfree : ident ∉ n.used) {l : List String}
    (hperm : l.Perm (ident :: n.idents)) : l.Nodup ∧ l ⊆ ident :: n.used := by
  rw [hperm.nodup_iff, nodup_cons]
  refine ⟨⟨fun hmem => hfree (h.used hmem), h.idents⟩, fun x hx => ?_⟩
  obtain rfl | hx := mem_cons.mp (hperm.mem_iff.mp hx)
  · exact mem_cons_self
  · exact mem_cons_of_mem _ (h.used hx)

theorem Distinct.declare (h : n.Distinct) (s : Signal) : (n.declare s).Distinct := by
  rw [declare_eq]
  split
  · exact h
  · rename_i hs
    have hnew : s ∉ n.nets.map Net.signal := net?_eq_none.mp (by simpa using hs)
    have hfree := (freeName_notMem n.used (legalName s.name)).1
    generalize freeName n.used (legalName s.name) = ident at hfree
    have hperm : (n.withNet s ident).idents.Perm (ident :: n.idents) := by
      simp only [Names.idents, withNet, map_append, map_singleton, append_assoc,
        singleton_append, ← cons_append]
      exact perm_middle
    obtain ⟨hnodup, hused⟩ := h.cons hfree hperm
    refine ⟨?_, h.nodes, hnodup, hused⟩
    rw [withNet, map_append, nodup_append']
    exact ⟨h.signals, nodup_singleton _, by simpa using hnew⟩

theorem Distinct.addWire (h : n.Distinct) (v : Value) (base : String) (width : Int) :
    (n.addWire v base width).Distinct := by
  rw [addWire_eq]
  split
  · exact h
  · rename_i hv
    have hnew : v ∉ n.wires.map Wire.node := wire?_eq_none.mp (by simpa using hv)
    have hfree := (freeName_notMem n.used base).1
    generalize freeName n.used base = ident at hfree
    have hperm : (n.withWire ⟨v, ident, width⟩).idents.Perm (ident :: n.idents) := by
      simp only [Names.idents, withWire, map_append, map_singleton, ← append_assoc, ← cons_append]
      exact perm_append_singleton _ _
    obtain ⟨hnodup, hused⟩ := h.cons hfree hperm
    refine ⟨h.signals, ?_, hnodup, hused⟩
    rw [withWire, map_append, nodup_append']
    exact ⟨h.nodes, nodup_singleton _, by simpa using hnew⟩

def signals (n : Names) : List Signal := n.nets.map Net.signal

variable {mark : Net → Net}

theorem map_update {α : Type} {g : Net → α} (hg : ∀ net, g (mark net) = g net) (n : Names)
    (s : Signal) : (n.update s mark).nets.map g = n.nets.map g := by
  simp only [update, map_map]
  refine map_congr_left fun net _ => ?_
  simp only [Function.comp_apply]
  split
  · exact hg net
  · rfl

theorem Distinct.update (h : n.Distinct) (s : Signal) {f : Net → Net} (hf : Marks f) :
    (n.update s f).Distinct := by
  have hsignals := map_update (fun net => (hf net).1) n s
  have hidents : (n.update s f).idents = n.idents :=
    congrArg (fun l => clockName :: resetName :: (l ++ n.wires.map Wire.ident))
      (map_update (fun net => (hf net).2) n s)
  exact ⟨hsignals ▸ h.signals, h.nodes, hidents ▸ h.idents, hidents ▸ h.used⟩

end Names

def markComb (net : Net) : Net := { net with comb := true }

def markSync (net : Net) : Net := { net with sync := true }

theorem marks_comb : Marks markComb := fun _ => ⟨rfl, rfl⟩

theorem marks_sync : Marks markSync := fun _ => ⟨rfl, rfl⟩

variable (ports : List Port) (f : Fragment)

theorem ofFragment_eq : Names.ofFragment ports f =
    ((ports.foldl Names.addPort .start).addBlock markComb f.comb).addBlock markSync f.sync := rfl

def wireBases : List String := ["expr_tmp", "slice_tmp"]

/-- The values that a statement is written with, apart from the statements inside it. -/
def values : Circuit.Stmt → List Value
  | .assign _ v => [v]
  | .branch test _ _ => [test]
  | .select test arms other => if arms.isEmpty && (other.getD []).isEmpty then [] else [test]
  | _ => []

/-- The values that a block is written with, and their parts. -/
def nodes (ss : List Circuit.Stmt) : List Value :=
  (walk ss).flatMap fun s => (values s).flatMap Value.walk

def wireWidth? (v : Value) : Option Int :=
  match v with
  | .binary _ op _ _ => if op.isComparison then none else some v.width
  | .slice _ x _ _ => if indexable x then none else some x.width
  | _ => none

/-- A property of names and of the values met so far that every step of naming keeps: giving a
signal a name, learning more of one that has a name, and meeting a value, with or without a wire. -/
structure Names.Invariant (P : List Value → Names → Prop) : Prop where
  declare : ∀ {l : List Value} {n : Names} (s : Signal), P l n → P l (n.declare s)
  update : ∀ {l : List Value} {n : Names} (s : Signal) {mark : Net → Net}, Marks mark → P l n →
    P l (n.update s mark)
  addWire : ∀ {l : List Value} {n : Names} {v : Value} {base : String} {width : Int},
    wireWidth? v = some width → base ∈ wireBases → P l n → P (l ++ [v]) (n.addWire v base width)
  skip : ∀ {l : List Value} {n : Names} {v : Value}, wireWidth? v = none → P l n → P (l ++ [v]) n

namespace Names.Invariant

variable {P : List Value → Names → Prop} {n : Names} {l : List Value}

theorem addNode (h : Invariant P) (v : Value) (hn : P l n) : P (l ++ [v]) (n.addNode v) := by
  cases v with
  | hole | const => exact h.skip rfl hn
  | signal s => exact h.skip rfl (h.declare s hn)
  | binary | slice =>
    rw [Names.addNode]
    split
    · exact h.skip (by simp [wireWidth?, *]) hn
    · exact h.addWire (by simp [wireWidth?, *]) (by simp [wireBases]) hn

theorem foldl {α : Type} {step : Names → α → Names} {met : α → List Value}
    (hstep : ∀ {l n} a, P l n → P (l ++ met a) (step n a)) (as : List α) (hn : P l n) :
    P (l ++ as.flatMap met) (as.foldl step n) := by
  induction as generalizing n l with
  | nil => simpa using hn
  | cons a as ih =>
    rw [foldl_cons, flatMap_cons, ← append_assoc]
    exact ih (hstep a hn)

theorem addStmt (h : Invariant P) (hm : Marks mark) (s : Circuit.Stmt) (hn : P l n) :
    P (l ++ (values s).flatMap Value.walk) (n.addStmt mark s) := by
  have hvalue : ∀ {n : Names} (v : Value), P l n →
      P (l ++ [v].flatMap Value.walk) (n.addValue v) := by
    intro n v hn
    have hwalk := foldl h.addNode v.walk hn
    rw [flatMap_singleton'] at hwalk
    rwa [flatMap_singleton]
  cases s with
  | hole | marker => simpa [Names.addStmt, values] using hn
  | assign t v => exact hvalue v (h.update t hm (h.declare t hn))
  | branch test yes no => exact hvalue test hn
  | select test arms other =>
    rw [Names.addStmt, values]
    split
    · simpa using hn
    · exact hvalue test hn

theorem addBlock (h : Invariant P) (hm : Marks mark) (ss : List Circuit.Stmt) (hn : P l n) :
    P (l ++ nodes ss) (n.addBlock mark ss) :=
  foldl (h.addStmt hm) _ hn

theorem ofFragment (h : Invariant P) (hstart : P [] .start) (ports : List Port) (f : Fragment) :
    P (nodes f.comb ++ nodes f.sync) (Names.ofFragment ports f) := by
  have hports : P [] (ports.foldl addPort .start) := by
    have hport : ∀ {l n} (p : Port), P l n → P (l ++ []) (n.addPort p) := fun p hn =>
      (append_nil _).symm ▸ h.update _ (fun _ => ⟨rfl, rfl⟩) (h.declare _ hn)
    have hall := foldl hport ports hstart
    rwa [nil_append, flatMap_eq_nil_iff.mpr fun _ _ => rfl] at hall
  exact h.addBlock marks_sync _ (h.addBlock marks_comb _ hports)

end Names.Invariant

/-- No name is given twice. -/
theorem distinct_ofFragment : (Names.ofFragment ports f).Distinct :=
  Names.Invariant.ofFragment (P := fun _ n => n.Distinct)
    { declare := fun s h => h.declare s
      update := fun s _ hm h => h.update s hm
      addWire := fun _ _ h => h.addWire _ _ _
      skip := fun _ h => h } .start ports f

/-! ### What is known of a signal -/

/-- What is known of a signal beside its name. -/
structure Role where
  comb : Bool
  sync : Bool
  port : Option Direction
deriving DecidableEq

def Role.unknown : Role := ⟨false, false, none⟩

def Net.role (net : Net) : Role := ⟨net.comb, net.sync, net.port⟩

def target? : Circuit.Stmt → Option Signal
  | .assign t _ => some t
  | _ => none

def mentions (s : Circuit.Stmt) : List Signal :=
  (target? s).toList ++ (values s).flatMap Value.reads

namespace Names

variable {n : Names} {s t : Signal} {v : Value} {mark : Net → Net} {g : Role → Role}

def role (n : Names) (s : Signal) : Option Role := (n.net? s).map Net.role

variable (n : Names)

theorem role_declare (s t : Signal) :
    (n.declare s).role t = if t = s then some ((n.role s).getD .unknown) else n.role t := by
  rw [declare_eq]
  cases hs : n.net? s with
  | some net => by_cases hts : t = s <;> simp [role, hs, hts]
  | none =>
    have hfind : ∀ ident, (n.withNet s ident).net? t =
        (n.net? t).or (if s = t then some ⟨s, ident, false, false, none⟩ else none) := by
      intro ident
      simp only [net?, withNet, find?_append, find?_singleton, decide_eq_true_eq]
    by_cases hts : t = s
    · subst hts
      simp [role, hfind, hs, Net.role, Role.unknown]
    · simp [role, hfind, hts, Ne.symm hts]

theorem role_update (hm : Marks mark) (hg : ∀ net, (mark net).role = g net.role) (n : Names)
    (s t : Signal) : (n.update s mark).role t = if t = s then (n.role s).map g else n.role t := by
  have hfind : (n.update s mark).net? t =
      (n.net? t).map fun net => if net.signal = s then mark net else net := by
    simp only [net?, update, find?_map]
    congr 2
    funext net
    simp only [Function.comp_apply]
    split
    · rw [(hm net).1]
    · rfl
  rw [role, hfind]
  cases ht : n.net? t with
  | none =>
    by_cases hts : t = s
    · simp [role, ← hts, ht]
    · simp [role, hts, ht]
  | some net =>
    obtain rfl : net.signal = t := by simpa using find?_some ht
    by_cases hts : net.signal = s
    · simp [role, ← hts, ht, hg]
    · simp [role, hts, ht]

theorem role_addWire (v : Value) (base : String) (width : Int) :
    (n.addWire v base width).role t = n.role t := by
  rw [addWire_eq]
  split <;> rfl

theorem role_addNode (v : Value) : (n.addNode v).role t =
    if v = .signal t then some ((n.role t).getD .unknown) else n.role t := by
  unfold addNode
  split
  · rename_i s
    rw [role_declare]
    by_cases hts : t = s
    · simp [hts]
    · simp [hts, Ne.symm hts]
  · split <;> simp [role_addWire]
  · split <;> simp [role_addWire]
  · rename_i hv _ _
    rw [if_neg (hv t)]

theorem role_addNodes (l : List Value) : (l.foldl addNode n).role t =
    if .signal t ∈ l then some ((n.role t).getD .unknown) else n.role t := by
  induction l generalizing n with
  | nil => simp
  | cons v l ih =>
    rw [foldl_cons, ih, role_addNode]
    by_cases hv : v = .signal t
    · simp [hv]
    · simp [hv, Ne.symm hv]

theorem role_addValue (v : Value) : (n.addValue v).role t =
    if t ∈ v.reads then some ((n.role t).getD .unknown) else n.role t := by
  simp only [addValue, role_addNodes, Value.signal_mem_walk]

theorem role_addStmt (hm : Marks mark) (hg : ∀ net, (mark net).role = g net.role) (n : Names)
    (s : Circuit.Stmt) : (n.addStmt mark s).role t =
      (if t ∈ mentions s then some ((n.role t).getD .unknown) else n.role t).map
        (if target? s = some t then g else id) := by
  unfold addStmt
  split
  · rename_i x v
    rw [role_addValue, role_update hm hg, role_declare]
    by_cases hx : t = x
    · subst hx
      simp [mentions, target?]
    · simp [mentions, target?, values, role_declare, hx, Ne.symm hx]
  · simp [role_addValue, mentions, target?, values]
  · split
    · simp_all [mentions, target?, values]
    · simp_all [role_addValue, mentions, target?, values]
  · cases s <;> simp_all [mentions, target?, values]

theorem role_addStmts (hm : Marks mark) (hg : ∀ net, (mark net).role = g net.role)
    (hidem : ∀ r, g (g r) = g r) (n : Names) (l : List Circuit.Stmt) :
    (l.foldl (addStmt mark) n).role t =
      (if t ∈ l.flatMap mentions then some ((n.role t).getD .unknown) else n.role t).map
        (if t ∈ l.filterMap target? then g else id) := by
  induction l generalizing n with
  | nil => simp
  | cons s l ih =>
    have himp : target? s = some t → t ∈ mentions s := fun h => by simp [mentions, h]
    have hrest : t ∈ l.filterMap target? → t ∈ l.flatMap mentions := by
      intro h
      obtain ⟨a, ha, hat⟩ := mem_filterMap.mp h
      exact mem_flatMap.mpr ⟨a, ha, by simp [mentions, hat]⟩
    have htargets : t ∈ (s :: l).filterMap target? ↔
        target? s = some t ∨ t ∈ l.filterMap target? := by
      simp [mem_filterMap]
    simp only [foldl_cons, ih, role_addStmt hm hg, flatMap_cons, mem_append, htargets]
    by_cases h₁ : target? s = some t
    · by_cases h₂ : t ∈ l.filterMap target?
      · simp only [h₁, h₂, himp h₁, hrest h₂, if_true, true_or, Option.map_some,
          Option.getD_some, hidem]
      · by_cases h₄ : t ∈ l.flatMap mentions <;>
          simp only [h₁, h₂, h₄, himp h₁, if_true, if_false, true_or, Option.map_some,
            Option.getD_some, id_eq]
    · by_cases h₂ : t ∈ l.filterMap target?
      · by_cases h₃ : t ∈ mentions s <;>
          simp only [h₁, h₂, h₃, hrest h₂, if_true, if_false, or_true, Option.map_some,
            Option.map_id, Option.getD_some, id_eq]
      · by_cases h₃ : t ∈ mentions s <;> by_cases h₄ : t ∈ l.flatMap mentions <;>
          simp only [h₁, h₂, h₃, h₄, if_true, if_false, or_true, or_self, or_false,
            Option.map_some, Option.map_id, Option.getD_some, id_eq]

def direction? (ports : List Port) (s : Signal) : Option Direction :=
  (ports.reverse.find? (·.signal = s)).map Port.direction

theorem role_addPorts (ports : List Port) : (ports.foldl addPort n).role t =
    match direction? ports t with
    | some dir => some { (n.role t).getD .unknown with port := some dir }
    | none => n.role t := by
  induction ports generalizing n with
  | nil => rfl
  | cons p ports ih =>
    have hport : (n.addPort p).role t =
        if t = p.signal then some { (n.role t).getD .unknown with port := some p.direction }
        else n.role t := by
      have hmark : Marks fun net => { net with port := some p.direction } := fun _ => ⟨rfl, rfl⟩
      rw [addPort, role_update (g := fun r : Role => { r with port := some p.direction }) hmark
        (fun _ => rfl), role_declare]
      by_cases ht : t = p.signal
      · simp [ht]
      · simp [ht, role_declare]
    have hdir : direction? (p :: ports) t =
        (direction? ports t).or (if t = p.signal then some p.direction else none) := by
      simp only [direction?, reverse_cons, find?_append, find?_singleton, decide_eq_true_eq]
      cases ports.reverse.find? (·.signal = t) with
      | some q => rfl
      | none =>
        by_cases ht : t = p.signal
        · simp [ht]
        · simp [ht, Ne.symm ht]
    rw [foldl_cons, ih, hport, hdir]
    cases direction? ports t with
    | some dir => by_cases ht : t = p.signal <;> simp [ht]
    | none => by_cases ht : t = p.signal <;> simp [ht]

end Names

def mentioned (ss : List Circuit.Stmt) : List Signal := (walk ss).flatMap mentions

theorem mem_filterMap_target {ss : List Circuit.Stmt} {x : Signal} :
    x ∈ (walk ss).filterMap target? ↔ x ∈ targets ss := by
  rw [mem_targets, mem_filterMap]
  constructor
  · rintro ⟨s, hs, hx⟩
    cases s with
    | assign t v =>
      cases hx
      exact ⟨v, hs⟩
    | hole | branch | select | marker => cases hx
  · rintro ⟨v, hv⟩
    exact ⟨_, hv, rfl⟩

theorem mem_mentioned_of_target {ss : List Circuit.Stmt} {x : Signal} (h : x ∈ targets ss) :
    x ∈ mentioned ss := by
  obtain ⟨s, hs, hsx⟩ := mem_filterMap.mp (mem_filterMap_target.mpr h)
  exact mem_flatMap.mpr ⟨s, hs, by simp [mentions, hsx]⟩

/-- **What is known of a signal in the end**: it is driven by the blocks that assign it, and a port
if it was declared as one. -/
theorem role_ofFragment (t : Signal) :
    (Names.ofFragment ports f).role t =
      if (Names.direction? ports t).isSome ∨ t ∈ mentioned f.comb ∨ t ∈ mentioned f.sync then
        some ⟨t ∈ targets f.comb, t ∈ targets f.sync, Names.direction? ports t⟩
      else none := by
  have hstart : Names.start.role t = none := rfl
  rw [ofFragment_eq, Names.addBlock, Names.addBlock,
    Names.role_addStmts (g := fun r : Role => { r with sync := true }) marks_sync (fun _ => rfl)
      (fun _ => rfl),
    Names.role_addStmts (g := fun r : Role => { r with comb := true }) marks_comb (fun _ => rfl)
      (fun _ => rfl), Names.role_addPorts, hstart]
  simp only [mem_filterMap_target, ← mentioned.eq_def]
  have hcomb := @mem_mentioned_of_target f.comb t
  generalize Names.direction? ports t = dir
  by_cases h₁ : t ∈ targets f.comb <;> by_cases h₂ : t ∈ targets f.sync <;>
    by_cases h₃ : t ∈ mentioned f.comb <;> by_cases h₄ : t ∈ mentioned f.sync <;>
      cases dir <;> simp_all [Role.unknown]

/-! ### The order of the signals -/

namespace Names

variable {n : Names} {mark : Net → Net}

theorem signals_declare (n : Names) (s : Signal) :
    (n.declare s).signals = if s ∈ n.signals then n.signals else n.signals ++ [s] := by
  rw [declare_eq]
  by_cases h : s ∈ n.signals
  · have hsome : (n.net? s).isSome := by
      rw [Option.isSome_iff_ne_none, ne_eq, net?_eq_none]
      exact not_not.mpr h
    rw [if_pos hsome, if_pos h]
  · have hnone : n.net? s = none := net?_eq_none.mpr h
    rw [if_neg (by simp [hnone]), if_neg h]
    simp [withNet, signals]

theorem signals_addPorts (n : Names) {ports : List Port}
    (h : (n.signals ++ ports.map Port.signal).Nodup) :
    (ports.foldl addPort n).signals = n.signals ++ ports.map Port.signal := by
  induction ports generalizing n with
  | nil => simp
  | cons p ports ih =>
    have hnew : p.signal ∉ n.signals := by
      intro hmem
      rw [nodup_append'] at h
      exact h.2.2 hmem (by simp)
    have hport : (n.addPort p).signals = n.signals ++ [p.signal] := by
      have hm : Marks fun net => { net with port := some p.direction } := fun _ => ⟨rfl, rfl⟩
      rw [addPort, signals, map_update fun net => (hm net).1, ← signals, signals_declare,
        if_neg hnew]
    rw [foldl_cons, ih (n.addPort p) (by simpa [hport] using h), hport]
    simp

def labels (n : Names) : List (Signal × String) := n.nets.map fun net => (net.signal, net.ident)

theorem map_fst_labels (n : Names) : n.labels.map Prod.fst = n.signals := by
  simp [labels, signals, Function.comp_def]

theorem labels_update (hm : Marks mark) (n : Names) (s : Signal) :
    (n.update s mark).labels = n.labels :=
  map_update (fun net => by rw [(hm net).1, (hm net).2]) n s

theorem labels_withNet (n : Names) (s : Signal) (ident : String) :
    (n.withNet s ident).labels = n.labels ++ [(s, ident)] := by
  simp [labels, withNet]

theorem prefix_labels (n : Names) : Invariant fun _ n' => n.labels <+: n'.labels where
  declare := by
    intro l n' s h
    rw [declare_eq]
    split
    · exact h
    · rw [labels_withNet]
      exact h.trans (prefix_append _ _)
  update := by
    intro l n' s mark hm h
    rwa [labels_update hm]
  addWire := by
    intro l n' v base width _ _ h
    rw [addWire_eq]
    split <;> exact h
  skip := fun _ h => h

end Names

/-- The ports get their names first, in their order. -/
theorem prefix_labels_ofFragment :
    (ports.foldl Names.addPort .start).labels <+: (Names.ofFragment ports f).labels := by
  have hinv := Names.prefix_labels (ports.foldl Names.addPort .start)
  exact hinv.addBlock (l := []) marks_sync _ (hinv.addBlock (l := []) marks_comb _ prefix_rfl)

/-- The ports come first, in their order. -/
theorem prefix_signals_ofFragment {ports : List Port} (h : (ports.map Port.signal).Nodup)
    (f : Fragment) : ports.map Port.signal <+: (Names.ofFragment ports f).signals := by
  have hports : (ports.foldl Names.addPort .start).signals = ports.map Port.signal :=
    Names.signals_addPorts .start h
  rw [← hports, ← Names.map_fst_labels, ← Names.map_fst_labels]
  exact (prefix_labels_ofFragment ports f).map Prod.fst

/-! ### Which values have wires -/

def needsWire (v : Value) : Bool := (wireWidth? v).isSome

namespace Names

variable {n : Names} {l : List Value}

def width? (n : Names) (v : Value) : Option Int := (n.wire? v).map Wire.width

/-- The wires are those of the values in `l` that need one, in order of first occurrence. -/
def Lists (n : Names) (l : List Value) : Prop :=
  n.wires.map (fun w => (w.node, some w.width)) =
    (l.filter needsWire).eraseDups.map fun v => (v, wireWidth? v)

theorem Lists.nodes (h : n.Lists l) : n.wires.map Wire.node = (l.filter needsWire).eraseDups := by
  simpa [Function.comp_def] using congrArg (List.map Prod.fst) h

theorem Lists.wire?_eq_none (h : n.Lists l) {v : Value} :
    n.wire? v = none ↔ v ∉ l.filter needsWire := by
  rw [Names.wire?_eq_none, h.nodes, mem_eraseDups]

theorem Lists.width? (h : n.Lists l) (v : Value) :
    n.width? v = if v ∈ l then wireWidth? v else none := by
  rw [Names.width?]
  cases hfind : n.wire? v with
  | none =>
    have hv := h.wire?_eq_none.mp hfind
    simp only [mem_filter, needsWire, Option.isSome_iff_ne_none, not_and, not_not] at hv
    split
    · rename_i hl
      exact (hv hl).symm
    · rfl
  | some w =>
    obtain rfl : w.node = v := by simpa using find?_some hfind
    have hmem := mem_map_of_mem (f := fun w => (w.node, some w.width))
      (mem_of_find?_eq_some hfind)
    rw [h] at hmem
    simp only [mem_map, mem_eraseDups, mem_filter, Prod.mk.injEq] at hmem
    obtain ⟨_, ⟨hl, -⟩, rfl, hwidth⟩ := hmem
    rw [if_pos hl, hwidth, Option.map_some]

/-- A value that is met again gets no other wire. -/
theorem lists_invariant : Invariant fun l n => n.Lists l where
  declare := by
    intro l n s h
    rw [declare_eq]
    split <;> exact h
  update := fun _ _ _ h => h
  addWire := by
    intro l n v base width hv _ h
    have hneeds : needsWire v = true := by rw [needsWire, hv, Option.isSome_some]
    rw [Lists, filter_append, filter_singleton, hneeds, cond_true,
      eraseDups_append, map_append, ← h, addWire_eq]
    by_cases hmem : v ∈ l.filter needsWire
    · rw [if_pos (Option.isSome_iff_ne_none.mpr fun hnone => h.wire?_eq_none.mp hnone hmem)]
      simp only [List.removeAll, filter_singleton, elem_eq_mem, hmem]
      simp
    · rw [if_neg (by simp [h.wire?_eq_none.mpr hmem])]
      simp only [List.removeAll, filter_singleton, elem_eq_mem, hmem]
      simp [eraseDups_cons, withWire, hv]
  skip := by
    intro l n v hv h
    rw [Lists, filter_append, filter_singleton, needsWire, hv, Option.isSome_none,
      cond_false, append_nil]
    exact h

end Names

/-- **The wires of a module** stand in the order in which their values are first met. -/
theorem lists_ofFragment : (Names.ofFragment ports f).Lists (nodes f.comb ++ nodes f.sync) :=
  Names.lists_invariant.ofFragment rfl ports f

/-- Which values have wires, and how wide they are. -/
theorem width?_ofFragment (v : Value) :
    (Names.ofFragment ports f).width? v =
      if v ∈ nodes f.comb ∨ v ∈ nodes f.sync then wireWidth? v else none := by
  simpa only [mem_append] using (lists_ofFragment ports f).width? v

end Sequencer.Verilog
