import GradualTypes.Proofs.Retrieval
import GradualTypes.Proofs.Reachability

/-!
The inventory of a store. A type is put in its slot and entered in its catalog at once, so slots and
entries can be counted against each other: apart from the three special types every type is a tuple
with a state of its own, or it stands in one catalog, once, under its own description or digest.
-/

namespace GradualTypes

private theorem Catalog.mem_entries_of_find? {κ : Type} [DecidableEq κ] {c : Catalog κ} {key : κ}
    {h : Handle} (hfind : c.find? key = some h) : (key, h) ∈ c.entries := by
  obtain ⟨⟨key', h'⟩, hfound, rfl⟩ := Option.map_eq_some_iff.mp hfind
  have hkey : key' = key := by simpa using List.find?_some hfound
  rw [← hkey]
  exact List.mem_of_find?_eq_some hfound

/-- An ordinary node is a tuple, is catalogued by its description, or is a set of types. -/
private theorem Node.ordinary_cases {node : Node} (htop : node ≠ .top) (hnil : node ≠ .nil)
    (hwildcard : node ≠ .wildcard) :
    (∃ params digest entry, node = .tuple params digest entry) ∨ node.isKeyed ∨
      ∃ kind members, node = SetKind.node kind members := by
  cases node with
  | top => exact absurd rfl htop
  | nil => exact absurd rfl hnil
  | wildcard => exact absurd rfl hwildcard
  | tuple params digest entry => exact .inl ⟨params, digest, entry, rfl⟩
  | union members => exact .inr (.inr ⟨.union, members, rfl⟩)
  | intersection members => exact .inr (.inr ⟨.intersection, members, rfl⟩)
  | _ => exact .inr (.inl rfl)

/-- Where younger entries come first, every handle has one entry at most. -/
private theorem filter_of_descending {α : Type} {entries : List (α × Handle)} {entry : α × Handle}
    (hdescending : entries.Pairwise fun e e' => e'.2.index < e.2.index) (hmem : entry ∈ entries) :
    entries.filter (fun e => e.2 = entry.2) = [entry] := by
  induction entries with
  | nil => cases hmem
  | cons first rest ih =>
    obtain ⟨hfirst, hrest⟩ := List.pairwise_cons.mp hdescending
    rcases List.mem_cons.mp hmem with rfl | hmem
    · have hnone : rest.filter (fun e => e.2 = entry.2) = [] := by
        apply List.filter_eq_nil_iff.mpr
        intro e he heq
        have hlt := hfirst e he
        rw [of_decide_eq_true heq] at hlt
        exact lt_irrefl _ hlt
      rw [List.filter_cons_of_pos (by simp), hnone]
    · have hne : first.2 ≠ entry.2 := by
        intro heq
        have hlt := hfirst entry hmem
        rw [heq] at hlt
        exact lt_irrefl _ hlt
      rw [List.filter_cons_of_neg (by simpa using hne), ih hrest hmem]

namespace Store

variable {s t u : Store} {h : Handle} {node : Node} {kind : Kind}

section Listing

/-- The entries of the keyed catalog of a kind, each with the node that its key describes. -/
def listing (s : Store) : Kind → List (Node × Handle)
  | .nominal => s.nominals.entries.map fun entry => (.nominal entry.1, entry.2)
  | .symbol => s.symbols.entries.map fun entry => (.symbol entry.1, entry.2)
  | .var => s.vars.entries.map fun entry => (.var entry.1, entry.2)
  | .generic => s.generics.entries.map fun entry => (.generic entry.1.1 entry.1.2, entry.2)
  | .annotated => s.annotations.entries.map fun entry => (.annotated entry.1.1 entry.1.2, entry.2)
  | _ => []

/-- A catalog describes types of its own kind. -/
private theorem kind_of_listing (hmem : (node, h) ∈ s.listing kind) :
    node.kind = kind ∧ node.isKeyed := by
  cases kind <;> simp only [listing, List.mem_map, List.not_mem_nil, Prod.mk.injEq] at hmem <;>
    obtain ⟨entry, -, rfl, -⟩ := hmem <;> exact ⟨rfl, rfl⟩

private theorem mem_listing_of_entered (hentered : s.entered? node = some h) :
    (node, h) ∈ s.listing node.kind := by
  cases node with
  | nominal name => exact List.mem_map.mpr ⟨_, Catalog.mem_entries_of_find? hentered, rfl⟩
  | symbol name => exact List.mem_map.mpr ⟨_, Catalog.mem_entries_of_find? hentered, rfl⟩
  | var name => exact List.mem_map.mpr ⟨_, Catalog.mem_entries_of_find? hentered, rfl⟩
  | generic base params => exact List.mem_map.mpr ⟨_, Catalog.mem_entries_of_find? hentered, rfl⟩
  | annotated label inner =>
    exact List.mem_map.mpr ⟨_, Catalog.mem_entries_of_find? hentered, rfl⟩
  | _ => cases hentered

end Listing

section Counting

variable {traits : Traits} {digest : UInt64}

private theorem listing_allocate (s : Store) (node : Node) (traits : Traits) (digest : UInt64)
    (kind : Kind) : (s.allocate node traits digest).listing kind =
      if node.isKeyed ∧ node.kind = kind then (node, ⟨s.size⟩) :: s.listing kind
      else s.listing kind := by
  cases node <;> cases kind <;> rfl

/-- Every type that is made adds one entry to a catalog or one state. -/
theorem Admits.count_allocate (ha : s.Admits node traits digest) :
    (s.allocate node traits digest).catalogSizes.sum + (s.allocate node traits digest).tupleCount =
      s.catalogSizes.sum + s.tupleCount + 1 := by
  have hordinary := ha.ordinary
  cases node <;> simp [Store.allocate, catalogSizes, tupleCount, enterSet] at hordinary ⊢ <;> omega

/-- The catalogs list types of the store only, the youngest first, and the types are as many as the
special types, the entries and the tuples together. -/
structure Inventoried (s : Store) : Prop where
  size_eq : s.size = 3 + s.catalogSizes.sum + s.tupleCount
  slot_of_listing : ∀ {kind node h}, (node, h) ∈ s.listing kind →
    ∃ traits, s.slot? h = some ⟨node, traits⟩
  descending : ∀ kind, (s.listing kind).Pairwise fun entry entry' =>
    entry'.2.index < entry.2.index

private theorem inventoried_initial (hash : WordHash) : (initial hash).Inventoried where
  size_eq := rfl
  slot_of_listing {kind node h} hmem := by
    cases kind with
    | nominal =>
      have hcases : (node, h) = (.nominal CoreClass.hash.name, .hashClass) ∨
          (node, h) = (.nominal CoreClass.array.name, .arrayClass) := by
        simpa [listing, initial, ofNames, Catalog.insert, Catalog.empty] using hmem
      rcases hcases with heq | heq
      · cases heq
        exact ⟨.none, rfl⟩
      · cases heq
        exact ⟨.none, rfl⟩
    | _ => cases hmem
  descending kind := by
    cases kind with
    | nominal =>
      simp [listing, initial, ofNames, Catalog.insert, Catalog.empty, Handle.hashClass,
        Handle.arrayClass]
    | _ => exact .nil

theorem Inventoried.allocate (hs : s.Inventoried) (ha : s.Admits node traits digest) :
    (s.allocate node traits digest).Inventoried where
  size_eq := by
    have hsize := hs.size_eq
    have hcount := ha.count_allocate
    rw [size_allocate]
    omega
  slot_of_listing {kind other h} hmem := by
    rw [listing_allocate] at hmem
    split at hmem
    next =>
      rcases List.mem_cons.mp hmem with heq | hold
      · cases heq
        exact ⟨traits, slot?_allocate_new⟩
      · obtain ⟨traits', hslot⟩ := hs.slot_of_listing hold
        exact ⟨traits', slot?_allocate_of_slot hslot⟩
    next =>
      obtain ⟨traits', hslot⟩ := hs.slot_of_listing hmem
      exact ⟨traits', slot?_allocate_of_slot hslot⟩
  descending kind := by
    rw [listing_allocate]
    split
    · apply List.pairwise_cons.mpr
      refine ⟨fun entry hentry => ?_, hs.descending kind⟩
      obtain ⟨traits', hslot⟩ := hs.slot_of_listing hentry
      exact contains_iff.mp (contains_of_slot hslot)
    · exact hs.descending kind

/-- Nothing is counted but slots, catalogs and the number of tuples. -/
theorem Inventoried.revise (hs : s.Inventoried) {states : Array TupleState} {names : NameTable}
    {hierarchy : Hierarchy} {journal : Array Event} (hcount : states.size = s.states.size) :
    { s with states, names, hierarchy, journal }.Inventoried where
  size_eq := by
    have hsize := hs.size_eq
    rw [tupleCount, ← hcount] at hsize
    exact hsize
  slot_of_listing {kind node h} hmem := by
    have hmem : (node, h) ∈ s.listing kind := hmem
    exact hs.slot_of_listing hmem
  descending kind := hs.descending kind

theorem Inventoried.withState (hs : s.Inventoried) (h : Handle)
    (change : TupleState → TupleState) : (s.withState h change).Inventoried := by
  rcases withState_cases s h change with heq | ⟨-, entry, -, -, heq⟩
  · rw [heq]
    exact hs
  · rw [heq]
    exact hs.revise Array.size_modify

theorem Grows.inventoried (hst : s.Grows t) (hs : s.Inventoried) : t.Inventoried := by
  have hadded := hst.added
  clear hst
  induction hadded with
  | refl => exact hs
  | tail _ hadds ih =>
    obtain ⟨node, traits, digest, ha, rfl⟩ := hadds
    exact ih.allocate ha

theorem Step.inventoried (hst : Step s t) (hs : s.WellFormed) (hi : s.Inventoried) :
    t.Inventoried := by
  cases hst with
  | add hadds =>
    obtain ⟨node, traits, digest, ha, rfl⟩ := hadds
    exact hi.allocate ha
  | move hmove =>
    cases hmove with
    | bound hlower hupper => exact (hi.withState _ _).withState _ _
    | promotion hshape hunion harray =>
      obtain ⟨parts, -, hset, hformed⟩ := promotion_formed hs hshape hunion harray
      have hu := (hset.grows.trans hformed.grows).inventoried hi
      exact (hu.withState _ _).revise rfl
    | broken tuple => exact hi.revise rfl
  | intern hintern => exact hi.revise rfl

end Counting

section Places

/-- Only the three special types have special nodes. -/
theorem Linked.ordinary (hs : s.Linked) (hnode : s.node h = .ok node) (htop : h ≠ .top)
    (hnil : h ≠ .nil) (hwildcard : h ≠ .wildcard) :
    node ≠ .top ∧ node ≠ .nil ∧ node ≠ .wildcard := by
  by_contra hspecial
  obtain ⟨traits, hslot⟩ := exists_slot_of_node hnode
  have hlt : h.index < 5 := hs.special hslot (by tauto)
  have hinitial := hs.builtin h hlt
  rw [hslot] at hinitial
  obtain ⟨index⟩ := h
  dsimp only at hlt
  interval_cases index
  · exact htop rfl
  · exact hnil rfl
  · exact hwildcard rfl
  · cases hinitial
    simp at hspecial
  · cases hinitial
    simp at hspecial

/-- A tuple has a state, which no other type has. -/
theorem Linked.own_entry {params : List Handle} {digest : UInt64} {entry : Nat} (hs : s.Linked)
    (hnode : s.node h = .ok (.tuple params digest entry)) :
    entry < s.tupleCount ∧
      ∀ h' params' digest', s.node h' = .ok (.tuple params' digest' entry) → h' = h := by
  obtain ⟨traits, hslot⟩ := exists_slot_of_node hnode
  refine ⟨hs.entry_lt hslot, fun h' params' digest' hnode' => ?_⟩
  obtain ⟨traits', hslot'⟩ := exists_slot_of_node hnode'
  exact hs.entry_unique hslot' hslot rfl rfl

/-- No description has two entries, since no two types have it. -/
theorem Inventoried.nodup_keys (hi : s.Inventoried) (hs : s.Catalogued) (kind : Kind) :
    ((s.listing kind).map Prod.fst).Nodup := by
  refine List.pairwise_map.mpr ((hi.descending kind).imp_of_mem ?_)
  rintro ⟨node, h⟩ ⟨node', h'⟩ hmem hmem' hlt (rfl : node = node')
  obtain ⟨traits, hslot⟩ := hi.slot_of_listing hmem
  obtain ⟨traits', hslot'⟩ := hi.slot_of_listing hmem'
  obtain rfl := hs.unique (kind_of_listing hmem).2 hslot hslot'
  exact lt_irrefl _ hlt

/-- A keyed type has one entry, under its description and in the catalog of its kind. -/
theorem Inventoried.filter_listing (hi : s.Inventoried) (hs : s.Catalogued)
    (hnode : s.node h = .ok node) (hkeyed : node.isKeyed) (kind : Kind) :
    (s.listing kind).filter (fun entry => entry.2 = h) =
      if kind = node.kind then [(node, h)] else [] := by
  obtain ⟨traits, hslot⟩ := exists_slot_of_node hnode
  split
  next hkind =>
    rw [hkind]
    have hmem := mem_listing_of_entered (hs.entered hslot hkeyed)
    exact filter_of_descending (hi.descending node.kind) hmem
  next hkind =>
    apply List.filter_eq_nil_iff.mpr
    rintro ⟨other, h'⟩ hmem heq
    obtain rfl : h' = h := of_decide_eq_true heq
    obtain ⟨traits', hslot'⟩ := hi.slot_of_listing hmem
    rw [hslot] at hslot'
    cases hslot'
    exact hkind (kind_of_listing hmem).1.symm

/-- A set has one entry, under its digest and in the catalog of its kind. -/
theorem WellFormed.count_bucket {kind : SetKind} {members : List Handle} {digest : UInt64}
    (hs : s.WellFormed) (hnode : s.node h = .ok (kind.node members))
    (hdigest : s.digest h = .ok digest) (kind' : SetKind) (word : UInt64) :
    ((s.sets kind').bucket word).count h = if kind' = kind ∧ word = digest then 1 else 0 := by
  obtain ⟨traits, hslot⟩ := exists_slot_of_node hnode
  have hnodup : ((s.sets kind').bucket word).Nodup := by
    apply (hs.normal.bucket_ascending word).imp
    rintro x y hlt rfl
    exact lt_irrefl _ hlt
  have hmem : h ∈ (s.sets kind').bucket word ↔ kind' = kind ∧ word = digest := by
    rw [hs.mem_bucket_iff, hdigest, hslot]
    constructor
    · rintro ⟨hword, others, traits', hset⟩
      cases hword
      refine ⟨?_, rfl⟩
      cases kind <;> cases kind' <;> cases hset <;> rfl
    · rintro ⟨rfl, rfl⟩
      exact ⟨rfl, members, traits, rfl⟩
  rw [hnodup.count]
  simp only [hmem]

end Places

end Store

theorem Reachable.inventoried {s : Store} (hs : Reachable s) : s.Inventoried :=
  hs.invariant Store.inventoried_initial (fun hs hst hi => hst.inventoried hs hi)
    fun _ hi => hi.revise rfl

open Store in
/-- The types of a reachable store are the three special ones and as many more as there are entries
in the catalogs and tuples. Each of them is a tuple, whose state no other type has, or it is the
value of one entry among all catalogs by key, which stands in the catalog of its kind and under its
own description, or it is a set of types and stands once in the catalog of its kind, in the bucket
of its digest, and in no other bucket. No description has two entries, so that the one under its own
description is what is found of a type. -/
theorem Reachable.inventory {s : Store} (hs : Reachable s) :
    s.size = 3 + s.catalogSizes.sum + s.tupleCount ∧
    (∀ kind, ((s.listing kind).map Prod.fst).Nodup) ∧
    ∀ h node, s.node h = .ok node → h ≠ .top → h ≠ .nil → h ≠ .wildcard →
      (∃ params digest entry, node = .tuple params digest entry ∧ entry < s.tupleCount ∧
        ∀ h' params' digest', s.node h' = .ok (.tuple params' digest' entry) → h' = h) ∨
      (node.isKeyed ∧ s.entered? node = some h ∧
        ∀ kind, (s.listing kind).filter (fun entry => entry.2 = h) =
          if kind = node.kind then [(node, h)] else []) ∨
      ∃ kind members digest, node = SetKind.node kind members ∧ s.digest h = .ok digest ∧
        ∀ kind' word, ((s.sets kind').bucket word).count h =
          if kind' = kind ∧ word = digest then 1 else 0 := by
  have hwf := hs.wellFormed
  refine ⟨hs.inventoried.size_eq, hs.inventoried.nodup_keys hwf.catalogued,
    fun h node hnode htop hnil hwildcard => ?_⟩
  obtain ⟨htop, hnil, hwildcard⟩ := hwf.linked.ordinary hnode htop hnil hwildcard
  rcases Node.ordinary_cases htop hnil hwildcard with
    ⟨params, digest, entry, rfl⟩ | hkeyed | ⟨kind, members, rfl⟩
  · exact .inl ⟨params, digest, entry, rfl, hwf.linked.own_entry hnode⟩
  · obtain ⟨traits, hslot⟩ := exists_slot_of_node hnode
    exact .inr (.inl ⟨hkeyed, hwf.catalogued.entered hslot hkeyed,
      hs.inventoried.filter_listing hwf.catalogued hnode hkeyed⟩)
  · obtain ⟨traits, hslot⟩ := exists_slot_of_node hnode
    obtain ⟨digest, hdigest⟩ := digest_answered hwf.linked (contains_of_slot hslot)
    exact .inr (.inr ⟨kind, members, digest, rfl, hdigest, hwf.count_bucket hnode hdigest⟩)

/-- `pairStore` once both tuples are promoted. Twelve types are three special ones, seven entries
and two tuples. The array type and the union of the elements have one entry each. -/
theorem pairStore_inventory :
    let s := (Operation.subtype ⟨7⟩ ⟨10⟩).apply pairStore
    Reachable s ∧ s.isPromoted ⟨7⟩ = .ok true ∧ s.size = 12 ∧
      s.catalogSizes = [5, 0, 0, 1, 1, 0, 0] ∧ s.tupleCount = 2 ∧
      s.size = 3 + s.catalogSizes.sum + s.tupleCount ∧
      s.node ⟨10⟩ = .ok (.generic .arrayClass [⟨9⟩]) ∧
      s.entered? (.generic .arrayClass [⟨9⟩]) = some ⟨10⟩ ∧
      (s.listing .generic).filter (fun entry => entry.2 = ⟨10⟩) =
        [(.generic .arrayClass [⟨9⟩], ⟨10⟩)] ∧
      s.node ⟨9⟩ = .ok (SetKind.union.node [⟨5⟩, ⟨6⟩]) ∧
      ∃ digest, s.digest ⟨9⟩ = .ok digest ∧ ((s.sets .union).bucket digest).count ⟨9⟩ = 1 := by
  intro s
  have hs : Reachable s := .step _ reachable_pairStore trivial
  have harray : s.node ⟨10⟩ = .ok (.generic .arrayClass [⟨9⟩]) := by decide +kernel
  have hunion : s.node ⟨9⟩ = .ok (SetKind.union.node [⟨5⟩, ⟨6⟩]) := by decide +kernel
  obtain ⟨hsize, -, htypes⟩ := Reachable.inventory hs
  have hentry : s.entered? (.generic .arrayClass [⟨9⟩]) = some ⟨10⟩ ∧
      (s.listing .generic).filter (fun entry => entry.2 = ⟨10⟩) =
        [(.generic .arrayClass [⟨9⟩], ⟨10⟩)] := by
    rcases htypes ⟨10⟩ _ harray (by decide) (by decide) (by decide) with
      ⟨_, _, _, hnode, -⟩ | ⟨-, hentered, hlisting⟩ | ⟨kind, _, _, hnode, -⟩
    · cases hnode
    · exact ⟨hentered, hlisting .generic⟩
    · cases kind <;> cases hnode
  refine ⟨hs, ?_, ?_, ?_, ?_, hsize, harray, hentry.1, hentry.2, hunion, ?_⟩
  · decide +kernel
  · decide +kernel
  · decide +kernel
  · decide +kernel
  · rcases htypes ⟨9⟩ _ hunion (by decide) (by decide) (by decide) with
      ⟨_, _, _, hnode, -⟩ | ⟨hkeyed, -⟩ | ⟨kind, _, digest, hnode, hdigest, hcount⟩
    · cases hnode
    · cases hkeyed
    · cases kind with
      | union => exact ⟨digest, hdigest, (hcount .union digest).trans (if_pos ⟨rfl, rfl⟩)⟩
      | intersection => cases hnode

end GradualTypes
