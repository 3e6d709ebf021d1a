import GradualTypes.Proofs.NormalForms
import GradualTypes.Proofs.Depth

/-!
Well-formed stores. A store is well formed when its references hold together and make no cycle, its
names are known and no text has two of them, its traits are right, its catalogs complete, its sets
in normal form and its tuples' digests those of their elements. The initial store is well formed,
and making a type, entering a name and declaring a superclass keep a store so.
-/

namespace GradualTypes.Store

variable {s : Store}

structure WellFormed (s : Store) : Prop where
  linked : s.Linked
  acyclic : s.Acyclic
  named : s.Named
  orderly : s.names.IsOrderly
  flagged : s.Flagged
  catalogued : s.Catalogued
  gathered : s.Gathered
  normal : s.Normal
  sealed : s.Sealed

namespace WellFormed

theorem allocate {node : Node} {traits : Traits} {digest : UInt64} (hs : s.WellFormed)
    (ha : s.Admits node traits digest) : (s.allocate node traits digest).WellFormed where
  linked := hs.linked.allocate ha
  acyclic := hs.acyclic.allocate hs.linked ha
  named := hs.named.allocate ha
  orderly := by
    rw [names_allocate]
    exact hs.orderly
  flagged := hs.flagged.allocate ha
  catalogued := hs.catalogued.allocate ha
  gathered := hs.gathered.allocate hs.linked hs.named hs.acyclic ha
  normal := hs.normal.allocate hs.linked hs.named hs.acyclic hs.gathered ha
  sealed := hs.sealed.allocate hs.linked ha

/-- Traits, catalogs, places and digests do not depend on the states of tuples, on the hierarchy or
on names that are added. A store in which these change stays well formed if its references do. -/
theorem revise (hs : s.WellFormed) {states : Array TupleState} {names : NameTable}
    {hierarchy : Hierarchy} {journal : Array Event} {t : Store}
    (ht : t = { s with states, names, hierarchy, journal }) (hlinked : t.Linked)
    (hacyclic : t.Acyclic) (hnames : s.names.Keeps names) (horderly : names.IsOrderly) :
    t.WellFormed where
  linked := hlinked
  acyclic := hacyclic
  named := by
    subst ht
    exact hs.named.keeps rfl hnames
  orderly := by
    subst ht
    exact horderly
  flagged := by
    subst ht
    exact hs.flagged
  catalogued := by
    subst ht
    exact ⟨hs.catalogued.entered, hs.catalogued.slot_of_entered⟩
  gathered := by
    subst ht
    exact hs.gathered.retain hs.linked rfl rfl fun kind => by cases kind <;> rfl
  normal := by
    subst ht
    exact hs.normal.retain hs.linked hs.named rfl rfl (fun kind => by cases kind <;> rfl) hnames
  sealed := by
    subst ht
    exact hs.sealed.retain hs.linked rfl rfl

/-- Names may be added, superclasses declared and events reported. -/
theorem recast (hs : s.WellFormed) {names : NameTable} {hierarchy : Hierarchy}
    {journal : Array Event} (hnames : s.names.Keeps names) (horderly : names.IsOrderly) :
    { s with names, hierarchy, journal }.WellFormed := by
  have hl := hs.linked
  exact hs.revise rfl
    ⟨hl.builtin, hl.special, hl.refs_lt, hl.base_nominal, hl.states_le, hl.entry_lt,
      hl.entry_unique, hl.promoted_array, hl.bound_tuple⟩ hs.acyclic hnames horderly

theorem intern {text : String} {name : Name} {names : NameTable} (hs : s.WellFormed)
    (hintern : s.names.intern text = .ok (name, names)) : { s with names }.WellFormed :=
  hs.recast (.intern hintern) (hs.orderly.intern hintern)

theorem declare (hs : s.WellFormed) (child parent : Name) :
    { s with hierarchy := s.hierarchy.declare child parent }.WellFormed :=
  hs.recast (.refl s.names) hs.orderly

end WellFormed

section Resolution

variable {h : Handle}

/-- What a type refers to is a type of the store, of smaller rank. -/
theorem WellFormed.descends (hs : s.WellFormed) {shape : Shape} (hshape : s.shape h = .ok shape)
    {x : Handle} (hx : x ∈ shape.parts) : s.contains x ∧ s.rank x < s.rank h := by
  have hrefers : s.RefersTo h x := ⟨shape, hshape, hx⟩
  exact ⟨hs.linked.contains_of_refersTo hrefers, hs.linked.rank_lt hs.acyclic hrefers⟩

/-- The array type that a promoted tuple stands for is not promoted. -/
theorem WellFormed.shape_of_array (hs : s.WellFormed) {array : Handle}
    (hshape : s.shape h = .ok (.promoted array)) :
    ∃ element, s.shape array = .ok (.generic .arrayClass [element]) := by
  obtain ⟨element, traits, hslot⟩ := hs.linked.slot_of_promoted hshape
  exact ⟨element, shape_eq_ok_iff.mpr ⟨_, hslot, rfl⟩⟩

/-- A type that is not promoted stands for itself. -/
theorem canonical_of_shape {shape : Shape} (hshape : s.shape h = .ok shape)
    (hfixed : ∀ array, shape ≠ .promoted array) : s.canonical h = .ok h := by
  rw [canonical, hshape]
  cases shape with
  | promoted array => exact absurd rfl (hfixed array)
  | _ => rfl

theorem canonical_of_promoted {array : Handle} (hshape : s.shape h = .ok (.promoted array)) :
    s.canonical h = .ok array := by
  rw [canonical, hshape]
  rfl

/-- What a type stands for is a type of the store, of no larger rank, and not a promoted tuple. -/
theorem canonical_spec (hs : s.WellFormed) (hh : s.contains h) :
    ∃ x, s.canonical h = .ok x ∧ s.contains x ∧ s.rank x ≤ s.rank h ∧
      ∀ array, s.shape x ≠ .ok (.promoted array) := by
  obtain ⟨shape, hshape⟩ := hs.linked.exists_shape hh
  rw [canonical, hshape]
  cases shape with
  | promoted array =>
    obtain ⟨hcontains, hlt⟩ := hs.descends hshape List.mem_cons_self
    obtain ⟨element, harray⟩ := hs.shape_of_array hshape
    exact ⟨array, rfl, hcontains, hlt.le, by simp [harray]⟩
  | _ => exact ⟨h, rfl, hh, le_rfl, by simp [hshape]⟩

/-- A type is promoted exactly if it has the shape of a promoted tuple. -/
theorem WellFormed.isPromoted_iff (hs : s.WellFormed) :
    s.isPromoted h = .ok true ↔ ∃ array, s.shape h = .ok (.promoted array) := by
  rw [isPromoted, canonical]
  cases hshape : s.shape h with
  | error e => simp [bind, Except.bind]
  | ok shape =>
    cases shape with
    | promoted array =>
      have hne : array ≠ h := by
        rintro rfl
        obtain ⟨element, harray⟩ := hs.shape_of_array hshape
        rw [hshape] at harray
        cases harray
      simp [bind, Except.bind, pure, Except.pure, hne]
    | _ => simp [bind, Except.bind, pure, Except.pure]

end Resolution

section TupleFree

variable {a b : Handle}

instance (s : Store) (h : Handle) : Decidable (s.IsTupleFree h) :=
  match htraits : s.traits h with
  | .ok traits => decidable_of_iff (traits.hasTuple = false) (by simp [IsTupleFree, htraits])
  | .error e => isFalse (by simp [IsTupleFree, htraits])

theorem Linked.tupleFree_top (hs : s.Linked) : s.IsTupleFree .top ∧ s.shape .top = .ok .top := by
  have hslot : s.slot? .top = some ⟨.top, .none⟩ := hs.builtin .top (by decide)
  exact ⟨⟨_, traits_of_slot hslot, rfl⟩, shape_eq_ok_iff.mpr ⟨_, hslot, rfl⟩⟩

theorem Linked.tupleFree_nil (hs : s.Linked) : s.IsTupleFree .nil ∧ s.shape .nil = .ok .nil := by
  have hslot : s.slot? .nil = some ⟨.nil, .none⟩ := hs.builtin .nil (by decide)
  exact ⟨⟨_, traits_of_slot hslot, rfl⟩, shape_eq_ok_iff.mpr ⟨_, hslot, rfl⟩⟩

/-- A type in which no tuple occurs is not a tuple, and none occurs in its components. -/
theorem WellFormed.slot_of_tupleFree (hs : s.WellFormed) (ha : s.IsTupleFree a) :
    ∃ slot, s.slot? a = some slot ∧ slot.node.entry? = none ∧
      ∀ x ∈ slot.node.parts, s.IsTupleFree x := by
  obtain ⟨traits, htraits, hfree⟩ := ha
  rw [Store.traits] at htraits
  split at htraits
  next slot hslot =>
    cases htraits
    obtain ⟨hown, hparts⟩ :=
      (hs.flagged.isTupleFree_iff hslot).mp ⟨_, traits_of_slot hslot, hfree⟩
    refine ⟨slot, hslot, ?_, hparts⟩
    cases hnode : slot.node <;> rw [hnode] at hown
    case tuple => simp [Node.ownTraits] at hown
    all_goals rfl
  next => cases htraits

theorem WellFormed.contains_of_tupleFree (hs : s.WellFormed) (ha : s.IsTupleFree a) :
    s.contains a := by
  obtain ⟨slot, hslot, -⟩ := hs.slot_of_tupleFree ha
  exact contains_of_slot hslot

/-- A type in which no tuple occurs refers only to such types, and these are older. -/
theorem WellFormed.tupleFree_of_refersTo (hs : s.WellFormed) (ha : s.IsTupleFree a)
    (hab : s.RefersTo a b) : s.IsTupleFree b ∧ b.index < a.index := by
  obtain ⟨⟨node, traits⟩, hslot, hentry, hparts⟩ := hs.slot_of_tupleFree ha
  have hmem := mem_refs_of_refersTo hslot hentry hab
  refine ⟨?_, hs.linked.refs_lt hslot b hmem⟩
  cases node with
  | generic base params =>
    rcases List.mem_cons.mp hmem with rfl | hmem
    · obtain ⟨name, hname⟩ := hs.linked.base_nominal hslot
      obtain ⟨traits', hslot'⟩ := exists_slot_of_node hname
      exact (hs.flagged.isTupleFree_iff hslot').mpr ⟨Traits.hasTuple_none, by simp [Node.parts]⟩
    · exact hparts b hmem
  | _ => exact hparts b hmem

theorem WellFormed.tupleFree_of_below (hs : s.WellFormed) (ha : s.IsTupleFree a)
    (hab : Relation.ReflTransGen s.RefersTo a b) : s.IsTupleFree b ∧ b.index ≤ a.index := by
  induction hab with
  | refl => exact ⟨ha, le_rfl⟩
  | tail _ hbc ih =>
    obtain ⟨hfree, hlt⟩ := hs.tupleFree_of_refersTo ih.1 hbc
    exact ⟨hfree, hlt.le.trans ih.2⟩

/-- The pairs that a comparison of such types asks for are such types again, and older. -/
theorem WellFormed.tupleFree_of_asks (hs : s.WellFormed) (ha : s.IsTupleFree a)
    (hb : s.IsTupleFree b) {x y : Handle} (hxy : s.Asks a b x y) :
    s.IsTupleFree x ∧ s.IsTupleFree y ∧ x.index + y.index < a.index + b.index := by
  cases hxy with
  | left hx =>
    obtain ⟨hxfree, hlt⟩ := hs.tupleFree_of_refersTo ha hx
    exact ⟨hxfree, hb, by omega⟩
  | right hy =>
    obtain ⟨hyfree, hlt⟩ := hs.tupleFree_of_refersTo hb hy
    exact ⟨ha, hyfree, by omega⟩
  | both hx hy =>
    obtain ⟨hxfree, hltx⟩ := hs.tupleFree_of_refersTo ha hx
    obtain ⟨hyfree, hlty⟩ := hs.tupleFree_of_refersTo hb hy
    exact ⟨hxfree, hyfree, by omega⟩
  | swapped hx hy =>
    obtain ⟨hxfree, hltx⟩ := hs.tupleFree_of_refersTo ha hx
    obtain ⟨hyfree, hlty⟩ := hs.tupleFree_of_refersTo hb hy
    exact ⟨hyfree, hxfree, by omega⟩

theorem WellFormed.shape_of_tupleFree (hs : s.WellFormed) (ha : s.IsTupleFree a) :
    ∃ shape, s.shape a = .ok shape ∧ shape.node?.isSome := by
  obtain ⟨slot, hslot, hentry, -⟩ := hs.slot_of_tupleFree ha
  obtain ⟨shape, hshape⟩ := hs.linked.exists_shape (contains_of_slot hslot)
  obtain ⟨slot', hslot', hof⟩ := shape_eq_ok_iff.mp hshape
  rw [hslot] at hslot'
  cases hslot'
  exact ⟨shape, hshape, by rw [(Node.shape?_eq_some_iff hentry).mp hof]; rfl⟩

end TupleFree

section Initial

variable {hash : WordHash}

/-- The initial store holds the three special types and two classes. -/
theorem slot_initial {h : Handle} {slot : Slot} (hslot : (initial hash).slot? h = some slot) :
    h.index < builtinCount ∧ slot.node.refs = [] ∧ slot.node.entry? = none ∧
      ((slot.node = .top ∨ slot.node = .nil ∨ slot.node = .wildcard) ∨
        slot.node = .nominal CoreClass.array.name ∧ h = .arrayClass ∨
        slot.node = .nominal CoreClass.hash.name ∧ h = .hashClass) ∧ slot.traits = .none := by
  change (initial .mixing).slot? h = some slot at hslot
  have hlt : h.index < 5 := contains_iff.mp (contains_of_slot hslot)
  obtain ⟨index⟩ := h
  dsimp only at hlt
  interval_cases index <;> cases hslot <;> decide

private theorem linked_initial : (initial hash).Linked where
  builtin _ _ := rfl
  special hslot _ := (slot_initial hslot).1
  refs_lt hslot p hp := by
    rw [(slot_initial hslot).2.1] at hp
    simp at hp
  base_nominal hslot := by
    have hrefs := (slot_initial hslot).2.1
    simp [Node.refs] at hrefs
  states_le := Nat.zero_le _
  entry_lt hslot := by
    have hentry := (slot_initial hslot).2.2.1
    simp [Node.entry?] at hentry
  entry_unique hslot _ hentry _ := by
    rw [(slot_initial hslot).2.2.1] at hentry
    cases hentry
  promoted_array hstate := by
    simp [initial, ofNames] at hstate
  bound_tuple hstate := by
    simp [initial, ofNames] at hstate

private theorem acyclic_initial : (initial hash).Acyclic := by
  have hnone : ∀ {a b}, ¬ (initial hash).RefersTo a b := by
    rintro a b ⟨shape, hshape, hb⟩
    obtain ⟨slot, hslot, hof⟩ := shape_eq_ok_iff.mp hshape
    rcases Node.shape?_parts hof with hparts | ⟨_, _, _, _, hnode, -, -⟩
    · rw [hparts, (slot_initial hslot).2.1] at hb
      simp at hb
    · have hentry := (slot_initial hslot).2.2.1
      simp [hnode, Node.entry?] at hentry
  intro h hcycle
  cases hcycle with
  | single hab => exact hnone hab
  | tail _ hbc => exact hnone hbc

private theorem named_initial : (initial hash).Named := by
  intro h slot name hslot hname
  have hcore : ∀ c : CoreClass, (initial hash).names.text? c.name = some c.text :=
    NameTable.text?_core
  obtain ⟨-, -, -, (hnode | hnode | hnode) | ⟨hnode, -⟩ | ⟨hnode, -⟩, -⟩ := slot_initial hslot <;>
    rw [hnode] at hname <;> cases hname
  · exact ⟨_, hcore .array⟩
  · exact ⟨_, hcore .hash⟩

private theorem flagged_initial : (initial hash).Flagged := by
  intro h slot hslot
  obtain ⟨-, -, -, (hnode | hnode | hnode) | ⟨hnode, -⟩ | ⟨hnode, -⟩, htraits⟩ :=
    slot_initial hslot <;> rw [hnode, htraits] <;> rfl

private theorem catalogued_initial : (initial hash).Catalogued where
  entered {h node traits} hslot hkeyed := by
    obtain ⟨-, -, -, (hnode | hnode | hnode) | ⟨hnode, hh⟩ | ⟨hnode, hh⟩, -⟩ :=
      slot_initial hslot <;> cases hnode
    · simp [Node.isKeyed] at hkeyed
    · simp [Node.isKeyed] at hkeyed
    · simp [Node.isKeyed] at hkeyed
    · rw [hh]
      rfl
    · rw [hh]
      rfl
  slot_of_entered {h node} hentered := by
    cases node with
    | nominal name =>
      change Catalog.find? _ name = some h at hentered
      by_cases hhash : CoreClass.hash.name = name
      · rw [← hhash, initial, ofNames, Catalog.find?_insert_self] at hentered
        cases hentered
        exact ⟨.none, by rw [← hhash]; rfl⟩
      · rw [initial, ofNames, Catalog.find?_insert_of_ne _ _ hhash] at hentered
        by_cases harray : CoreClass.array.name = name
        · rw [← harray, Catalog.find?_insert_self] at hentered
          cases hentered
          exact ⟨.none, by rw [← harray]; rfl⟩
        · rw [Catalog.find?_insert_of_ne _ _ harray] at hentered
          cases hentered
    | _ => cases hentered

theorem not_set_initial {h : Handle} {kind : SetKind} {members : List Handle} {traits : Traits} :
    (initial hash).slot? h ≠ some ⟨SetKind.node kind members, traits⟩ := by
  intro hslot
  obtain ⟨-, -, -, (hnode | hnode | hnode) | ⟨hnode, -⟩ | ⟨hnode, -⟩, -⟩ := slot_initial hslot <;>
    cases kind <;> cases hnode

private theorem entries_initial (kind : SetKind) : ((initial hash).sets kind).entries = [] := by
  cases kind <;> rfl

private theorem gathered_initial : (initial hash).Gathered where
  entry hslot := absurd hslot not_set_initial
  slot_of_entry {kind digest h} hentry := by simp [entries_initial] at hentry
  unique hslot := absurd hslot not_set_initial

private theorem normal_initial : (initial hash).Normal where
  sorted hslot := absurd hslot not_set_initial
  plain hslot := absurd hslot not_set_initial
  ascending kind := by simp [entries_initial]

private theorem sealed_initial : (initial hash).Sealed := by
  intro h params own entry traits hslot
  have hentry := (slot_initial hslot).2.2.1
  simp [Node.entry?] at hentry

theorem wellFormed_initial : (initial hash).WellFormed where
  linked := linked_initial
  acyclic := acyclic_initial
  named := named_initial
  orderly := .core
  flagged := flagged_initial
  catalogued := catalogued_initial
  gathered := gathered_initial
  normal := normal_initial
  sealed := sealed_initial

end Initial

end GradualTypes.Store
