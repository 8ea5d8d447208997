import Sequencer.Proofs.Verilog.Identifiers

/-!
# The order of declarations

Wires are named when their values are first met, a value before its parts, and declared in reverse.
A value that is shared can be met by itself first and inside another value later; then the other
value is declared before the part that it reads.
-/

namespace Sequencer.Verilog

open List
open Circuit Simulation Decl Value Names Wire

/-! ### Declarations in order -/

def Decl.ident : Decl → String
  | .constant ident _ => ident
  | .reg _ ident _ => ident
  | .wire _ ident _ => ident

/-- The names that a declaration reads: those in the expression of a wire. -/
def Decl.reads : Decl → List String
  | .wire _ _ value => value.names
  | _ => []

/-- Each declaration only reads names that are known or declared before it. -/
def InOrder (known : List String) : List Decl → Prop
  | [] => True
  | d :: ds => (∀ x ∈ d.reads, x ∈ known) ∧ InOrder (known ++ [d.ident]) ds

instance decidableInOrder : (known : List String) → (ds : List Decl) → Decidable (InOrder known ds)
  | _, [] => .isTrue trivial
  | known, d :: ds =>
    have := decidableInOrder (known ++ [d.ident]) ds
    inferInstanceAs (Decidable (_ ∧ _))

/-- A module in which every declaration only reads ports and what is declared on earlier lines. -/
def Module.DeclaresFirst (m : Module) : Prop := InOrder (m.ports.map PortDecl.ident) m.decls

instance (m : Module) : Decidable m.DeclaresFirst := decidableInOrder _ _

theorem inOrder_append {known : List String} {as bs : List Decl} : InOrder known (as ++ bs) ↔
    InOrder known as ∧ InOrder (known ++ as.map Decl.ident) bs := by
  induction as generalizing known with
  | nil => simp [InOrder]
  | cons d ds ih => simp [InOrder, ih, and_assoc]

theorem inOrder_of_reads {known : List String} {ds : List Decl} (h : ∀ d ∈ ds, d.reads = []) :
    InOrder known ds := by
  induction ds generalizing known with
  | nil => trivial
  | cons d ds ih =>
    obtain ⟨hd, hds⟩ := forall_mem_cons.mp h
    refine ⟨fun x hx => ?_, ih hds⟩
    rw [hd] at hx
    cases hx

theorem ident_declOf? {net : Net} {d : Decl} (h : declOf? net = some d) :
    d.ident = net.ident ∧ d.reads = [] := by
  obtain ⟨-, -, rfl⟩ | rfl := declOf?_cases h <;> exact ⟨rfl, rfl⟩

/-! ### What a wire reads -/

/-- What a wire reads is met after its value. -/
theorem sources_subset (v : Value) : sources v ⊆ v.walk.tail := by
  intro u hu
  obtain ⟨x, hx, hu⟩ := mem_flatMap.mp hu
  exact walk_subset_of_mem_parts hx (mem_shown hu).1

theorem notMem_sources (v : Value) : v ∉ sources v := by
  have hsize : ∀ {u x : Value}, u ∈ x.walk → sizeOf u ≤ sizeOf x := by
    intro u x hu
    refine of_mem_walk (P := fun u => sizeOf u ≤ sizeOf x) hu (Nat.le_refl _) (fun h => ?_)
      fun h => ?_
    · simp only [binary.sizeOf_spec] at h
      omega
    · simp only [slice.sizeOf_spec] at h
      omega
  intro hv
  have hv := sources_subset v hv
  cases v with
  | hole | signal | const => cases hv
  | binary tag op l r =>
    have hle := (mem_append.mp hv).imp hsize hsize
    simp only [binary.sizeOf_spec] at hle
    omega
  | slice tag y lo hi =>
    have hle := hsize hv
    simp only [slice.sizeOf_spec] at hle
    omega

section Declarations

variable {ports : List Port} {f : Fragment}

/-- The names of the signals of a module that stand before its wires. -/
def netIdents (n : Names) : List String :=
  (n.nets.filterMap portOf?).map PortDecl.ident ++ (n.nets.filterMap declOf?).map Decl.ident

theorem mem_netIdents {n : Names} {x : String} : x ∈ netIdents n ↔ x ∈ n.nets.map Net.ident := by
  simp only [netIdents, mem_append, mem_map, mem_filterMap]
  constructor
  · rintro (⟨p, ⟨net, hnet, hp⟩, rfl⟩ | ⟨d, ⟨net, hnet, hd⟩, rfl⟩)
    · exact ⟨net, hnet, (width_portOf? hp).1.symm⟩
    · exact ⟨net, hnet, (ident_declOf? hd).1.symm⟩
  · rintro ⟨net, hnet, rfl⟩
    obtain ⟨p, hp⟩ | hd := portOf?_or_declOf? net
    · exact .inl ⟨p, ⟨net, hnet, hp⟩, (width_portOf? hp).1⟩
    · exact .inr ⟨_, ⟨net, hnet, hd⟩, rfl⟩

theorem nameOf_node {w : Wire} (hw : w ∈ (Names.ofFragment ports f).wires) :
    (Names.ofFragment ports f).nameOf w.node = w.ident := by
  have hident : (Names.ofFragment ports f).wireName w.node = w.ident := by
    rw [Names.wireName, (distinct_ofFragment ports f).wire?_of_mem hw]
    rfl
  have hneeds := (covers_node hw).2
  cases hnode : w.node with
  | hole | signal | const =>
    rw [hnode] at hneeds
    cases hneeds
  | binary | slice =>
    rw [← hident, hnode]
    rfl

theorem source_cases {w : Wire} (hw : w ∈ (Names.ofFragment ports f).wires) {u : Value}
    (hu : u ∈ sources w.node) :
    (Names.ofFragment ports f).nameOf u ∈ (Names.ofFragment ports f).nets.map Net.ident ∨
      ∃ w' ∈ (Names.ofFragment ports f).wires,
        w'.node = u ∧ (Names.ofFragment ports f).nameOf u = w'.ident := by
  obtain ⟨hcovers, -⟩ := covers_node hw
  have hwalk := mem_of_mem_tail (sources_subset _ hu)
  obtain ⟨x, -, hx⟩ := mem_flatMap.mp hu
  obtain ⟨s, rfl⟩ | hneeds := (mem_shown hx).2
  · left
    obtain ⟨net, hnet, -, hname⟩ :=
      exists_net (isSome_net?.mp (hcovers.signals s (signal_mem_walk.mp hwalk)))
    exact mem_map.mpr ⟨net, hnet, hname.symm⟩
  · right
    obtain ⟨w', hw'⟩ := Option.isSome_iff_exists.mp ((hcovers.wires u hwalk).trans hneeds)
    have hmem := mem_of_find?_eq_some hw'
    have hnode : w'.node = u := by simpa using find?_some hw'
    exact ⟨w', hmem, hnode, hnode ▸ nameOf_node hmem⟩

/-- **Wires in order.** After the wires in `declared`, the wires in `rest` read nothing that is not
declared exactly if none of them reads a later one. -/
theorem inOrder_wires_iff {declared rest : List Wire} {ds : List Decl}
    (hall : declared ++ rest = (Names.ofFragment ports f).wires.reverse)
    (hds : rest.mapM (wireDecl (Names.ofFragment ports f)) = .ok ds) :
    InOrder (netIdents (Names.ofFragment ports f) ++ declared.map Wire.ident) ds ↔
      (rest.map Wire.node).Pairwise fun u v => v ∉ sources u := by
  induction rest generalizing declared ds with
  | nil =>
    cases hds
    simp [InOrder]
  | cons w rest ih =>
    rw [mapM_cons] at hds
    obtain ⟨d, ds', hd, hds', rfl⟩ := bind₂_eq_ok.mp hds
    obtain ⟨e, he, rfl⟩ := wireDecl_eq_ok.mp hd
    have hmem : ∀ {w'}, w' ∈ (Names.ofFragment ports f).wires ↔
        w' ∈ declared ∨ w' = w ∨ w' ∈ rest := by
      intro w'
      rw [← mem_reverse, ← hall, mem_append, mem_cons]
    have hw : w ∈ (Names.ofFragment ports f).wires := hmem.mpr (.inr (.inl rfl))
    obtain ⟨hcovers, hneeds⟩ := covers_node hw
    -- No name of a later wire is known yet.
    have hlater : ∀ w' ∈ rest, w'.ident ∉
        netIdents (Names.ofFragment ports f) ++ declared.map Wire.ident := by
      have hdistinct := (distinct_ofFragment ports f).idents.of_cons.of_cons
      obtain ⟨-, hwires, hdisjoint⟩ := nodup_append'.mp hdistinct
      have hnodup : ((declared ++ w :: rest).map Wire.ident).Nodup := by
        rw [hall, map_reverse]
        exact nodup_reverse.mpr hwires
      rw [map_append, nodup_append'] at hnodup
      intro w' hw' hknown
      obtain hknown | hknown := mem_append.mp hknown
      · exact hdisjoint (mem_netIdents.mp hknown)
          (mem_map_of_mem (hmem.mpr (.inr (.inr hw'))))
      · exact hnodup.2.2 hknown (mem_map_of_mem (mem_cons_of_mem _ hw'))
    have hread : (∀ x ∈ e.names, x ∈
        netIdents (Names.ofFragment ports f) ++ declared.map Wire.ident) ↔
          ∀ v ∈ rest.map Wire.node, v ∉ sources w.node := by
      rw [names_wireValue hneeds hcovers he, forall_mem_map, forall_mem_map]
      constructor
      · intro h w' hw' hsource
        have hname := nameOf_node (hmem.mpr (.inr (.inr hw')))
        exact hlater w' hw' (hname ▸ h w'.node hsource)
      · intro h u hu
        obtain hnet | ⟨w', hw', rfl, hname⟩ := source_cases hw hu
        · exact mem_append_left _ (mem_netIdents.mpr hnet)
        · rw [hname]
          obtain hw' | rfl | hw' := hmem.mp hw'
          · exact mem_append_right _ (mem_map_of_mem hw')
          · exact absurd hu (notMem_sources _)
          · exact absurd hu (h w' hw')
    have hrest := @ih (declared ++ [w]) _ (by rw [append_assoc]; exact hall) hds'
    rw [map_cons, pairwise_cons, ← hrest, ← hread, InOrder]
    simp only [Decl.reads, Decl.ident, map_append, map_singleton, append_assoc]

theorem Written.reads_subset {m : Module} (h : Written (Names.ofFragment ports f) f m) {d : Decl}
    (hd : d ∈ m.decls) : d.reads ⊆ m.ports.map PortDecl.ident ++ m.decls.map Decl.ident := by
  obtain ⟨net, -, hd⟩ | ⟨w, hw, e, he, rfl⟩ := h.mem_decls.mp hd
  · rw [(ident_declOf? hd).2]
    exact nil_subset _
  · obtain ⟨hcovers, hneeds⟩ := covers_node hw
    obtain ⟨wires, -, hdecls⟩ := h.decls
    intro x hx
    rw [Decl.reads, names_wireValue hneeds hcovers he] at hx
    obtain ⟨u, hu, rfl⟩ := mem_map.mp hx
    obtain hnet | ⟨w', hw', -, hname⟩ := source_cases hw hu
    · rw [h.ports, hdecls, map_append, ← append_assoc]
      exact mem_append_left _ (mem_netIdents.mpr hnet)
    · obtain ⟨e', he'⟩ := h.exists_wireValue hw'
      refine mem_append_right _ (mem_map.mpr ⟨.wire w'.width w'.ident e', ?_, hname.symm⟩)
      exact h.mem_decls.mpr (.inr ⟨w', hw', e', he', rfl⟩)

/-- Whether a module declares its wires before their uses depends on the order in which values are
first met. -/
theorem declaresFirst_iff_pairwise {m : Module} (h : Written (Names.ofFragment ports f) f m) :
    m.DeclaresFirst ↔ ((nodes f.comb ++ nodes f.sync).filter needsWire).eraseDups.Pairwise
      fun u v => u ∉ sources v := by
  obtain ⟨wires, hwires, hdecls⟩ := h.decls
  have hnets : ∀ d ∈ (Names.ofFragment ports f).nets.filterMap declOf?, d.reads = [] := by
    intro d hd
    obtain ⟨net, -, hd⟩ := mem_filterMap.mp hd
    exact (ident_declOf? hd).2
  have horder := @inOrder_wires_iff ports f [] _ _ (nil_append _) hwires
  rw [map_nil, append_nil, netIdents] at horder
  rw [Module.DeclaresFirst, h.ports, hdecls, inOrder_append, horder,
    and_iff_right (inOrder_of_reads hnets), map_reverse, pairwise_reverse,
    (lists_ofFragment ports f).nodes]

end Declarations

/-! ### Nothing is met before what it is part of -/

/-- Whatever the wire of a value reads comes after the value. -/
def PartsLater : List Value → Prop
  | [] => True
  | v :: l => sources v ⊆ l ∧ PartsLater l

theorem PartsLater.append {as bs : List Value} (ha : PartsLater as) (hb : PartsLater bs) :
    PartsLater (as ++ bs) := by
  induction as with
  | nil => exact hb
  | cons v l ih => exact ⟨subset_append_of_subset_left _ ha.1, ih ha.2⟩

theorem PartsLater.flatMap {α : Type} {g : α → List Value} (hg : ∀ a, PartsLater (g a))
    (l : List α) : PartsLater (l.flatMap g) := by
  induction l with
  | nil => trivial
  | cons a l ih => exact (hg a).append ih

/-- A value is met before its parts. -/
theorem partsLater_walk (v : Value) : PartsLater v.walk := by
  induction v with
  | hole => trivial
  | signal | const => exact ⟨nil_subset _, trivial⟩
  | binary tag op l r ihl ihr => exact ⟨sources_subset (.binary tag op l r), ihl.append ihr⟩
  | slice tag x lo hi ih => exact ⟨sources_subset (.slice tag x lo hi), ih⟩

theorem partsLater_nodes (ss : List Circuit.Stmt) : PartsLater (nodes ss) :=
  .flatMap (fun _ => .flatMap partsLater_walk _) _

/-- Where no value with a wire is met twice, none is met before one whose wire reads it. -/
theorem PartsLater.pairwise {l : List Value} (h : PartsLater l) (hl : (l.filter needsWire).Nodup) :
    (l.filter needsWire).eraseDups.Pairwise fun u v => u ∉ sources v := by
  have hsources : ∀ {l : List Value}, PartsLater l → ∀ v ∈ l, sources v ⊆ l := by
    intro l h
    induction l with
    | nil => exact fun v hv => nomatch hv
    | cons w l ih =>
      refine forall_mem_cons.mpr ⟨subset_cons_of_subset _ h.1, fun v hv => ?_⟩
      exact subset_cons_of_subset _ (ih h.2 v hv)
  induction l with
  | nil => exact .nil
  | cons u l ih =>
    cases hu : needsWire u with
    | false =>
      rw [filter_cons_of_neg (by simp [hu])] at hl ⊢
      exact ih h.2 hl
    | true =>
      rw [filter_cons_of_pos hu] at hl ⊢
      obtain ⟨hnew, hl⟩ := nodup_cons.mp hl
      have hothers : (l.filter needsWire).filter (fun v => !v == u) = l.filter needsWire := by
        refine filter_eq_self.mpr fun v hv => ?_
        have hne : v ≠ u := fun he => hnew (he ▸ hv)
        simpa using hne
      rw [eraseDups_cons, hothers]
      refine pairwise_cons.mpr ⟨fun v hv hsource => ?_, ih h.2 hl⟩
      have hmem := mem_of_mem_filter (mem_eraseDups.mp hv)
      exact hnew (mem_filter.mpr ⟨hsources h.2 v hmem hsource, hu⟩)

/-- **Which modules declare their wires before their uses.** The declarations of a module only read
ports and other declarations. They stand before their uses exactly if no value is first met before
another one whose wire reads it, as it is when no value with a wire is met twice. -/
theorem declaresFirst_iff {name digest : String} {ports : List Port} {f : Fragment} {m : Module}
    (h : ofFragment name digest ports f = .ok m) :
    (∀ d ∈ m.decls, ∀ x ∈ d.reads, x ∈ m.ports.map PortDecl.ident ++ m.decls.map Decl.ident) ∧
      (m.DeclaresFirst ↔ ((nodes f.comb ++ nodes f.sync).filter needsWire).eraseDups.Pairwise
        fun u v => u ∉ sources v) ∧
      (((nodes f.comb ++ nodes f.sync).filter needsWire).Nodup → m.DeclaresFirst) := by
  obtain ⟨-, -, -, -, hm⟩ := ofFragment_eq_ok.mp h
  have hwritten := written_of_moduleOf hm
  have hiff := declaresFirst_iff_pairwise hwritten
  refine ⟨fun d hd x hx => ?_, hiff, fun hl => hiff.mpr ?_⟩
  · exact hwritten.reads_subset hd hx
  · exact ((partsLater_nodes _).append (partsLater_nodes _)).pairwise hl

def total : Value := .binary 3 .add (.signal ⟨1, "a", 8, 0⟩) (.signal ⟨2, "b", 8, 0⟩)

/-- A chain of comparisons, which share the operand in the middle. -/
def chain : Fragment where
  comb := [.assign ⟨4, "within", 1, 0⟩ (.binary 5 .and
    (.binary 6 .le (.signal ⟨7, "low", 8, 0⟩) total)
    (.binary 8 .lt total (.signal ⟨9, "high", 8, 0⟩)))]
  sync := []

/-- The three wires of the chain are declared in order. -/
theorem chain_declaresFirst :
    ∃ m, ofFragment "chain" "" [] chain = .ok m ∧ m.decls.length = 3 ∧ m.DeclaresFirst := by
  obtain ⟨m, hm, hlength⟩ : ∃ m, ofFragment "chain" "" [] chain = .ok m ∧ m.decls.length = 3 := by
    decide +kernel
  exact ⟨m, hm, hlength, (declaresFirst_iff hm).2.1.mpr (by decide)⟩

def twiceText : List Char :=
  "def twice():\n    r = Register(16)\n    r.store = total\n    r.store = total + 1\n".toList

/-- **The wire of a shared value can come too late**: the second sum is declared before the first,
which it reads. -/
theorem twice_declaresLate : ∃ d m,
    (compile twiceText ⟨[], [("total", total)], []⟩ (.new 4)).1 = .ok d ∧
      ofFragment d.name "" d.ports d.fragment = .ok m ∧ ¬ m.DeclaresFirst := by
  simp only [exists_and_left]
  decide +kernel

end Sequencer.Verilog
