import GradualTypes.Proofs.Catalogs

/-!
The normal form of sets of types. The members of a union or an intersection are sorted by their
places, and none of them is nil, a set of the same kind or, in a union, the top. Neither members nor
places ever change, so a set stays in normal form whatever becomes of the tuples in it. Sets are
entered in their catalog one after the other, so the catalog holds them by age. The digests that
tuples keep are those of their elements.
-/

namespace GradualTypes.Store

variable {s t : Store} {node : Node} {traits : Traits} {digest : UInt64}

section Digests

def Sealed (s : Store) : Prop :=
  ∀ ⦃h params own entry traits⦄, s.slot? h = some ⟨.tuple params own entry, traits⟩ →
    ∃ digests, params.mapM s.digest = .ok digests ∧ own = Digest.ofTuple s.hash digests

theorem Sealed.allocate (hsealed : s.Sealed) (hs : s.Linked) (ha : s.Admits node traits digest) :
    (s.allocate node traits digest).Sealed := by
  have hext := Extends.allocate s node traits digest
  intro h params own entry traits' hslot
  rcases slot_of_slot_allocate hslot with hold | ⟨-, hnew⟩
  · obtain ⟨digests, hdigests, hown⟩ := hsealed hold
    refine ⟨digests, ?_, hown.trans (by rw [hash_allocate])⟩
    exact (digests_eq hext.toRetains hs fun x hx => hs.contains_of_refs hold hx).trans hdigests
  · cases hnew
    obtain ⟨-, digests, hdigests, hown⟩ := ha.entry params own entry rfl
    refine ⟨digests, ?_, hown.trans (by rw [hash_allocate])⟩
    exact (digests_eq hext.toRetains hs fun x hx => ha.refs x hx).trans hdigests

theorem Sealed.retain (hsealed : s.Sealed) (hs : s.Linked) (hslots : t.slots = s.slots)
    (hhash : t.hash = s.hash) : t.Sealed := by
  intro h params own entry traits hslot
  rw [slot?_of_slots hslots] at hslot
  obtain ⟨digests, hdigests, hown⟩ := hsealed hslot
  refine ⟨digests, ?_, hown.trans (by rw [hhash])⟩
  have hrefs := fun x (hx : x ∈ params) => hs.contains_of_refs hslot hx
  exact (digests_eq (.of_slots hslots hhash) hs hrefs).trans hdigests

end Digests

section Members

variable {kind : SetKind} {members : List Handle}

/-- Sets of types are in normal form, and their catalogs hold them by age. -/
structure Normal (s : Store) : Prop where
  sorted : ∀ {h kind members traits}, s.slot? h = some ⟨SetKind.node kind members, traits⟩ →
    members.Pairwise fun a b => (s.place a b).isLE
  plain : ∀ {h kind members traits}, s.slot? h = some ⟨SetKind.node kind members, traits⟩ →
    ∀ x ∈ members, ∃ slot, s.slot? x = some slot ∧ slot.node.IsMember kind ∧
      (kind = .union → slot.node ≠ .top)
  ascending : ∀ kind, (s.sets kind).entries.Pairwise fun entry entry' =>
    entry.2.index < entry'.2.index

private theorem isTop_of_slot {h : Handle} {slot : Slot} (hslot : s.slot? h = some slot) :
    s.isTop h = .ok (decide (slot.node = .top)) := by
  rw [isTop, node_of_slot hslot]
  rfl

/-- Whether one of some types is the top can be told from their nodes. -/
theorem anyTop_decides {types : List Handle} (htypes : ∀ p ∈ types, s.contains p) :
    Decides (types.anyM s.isTop) (∃ p ∈ types, s.node p = .ok .top) := by
  apply Decides.anyM
  intro p hp
  obtain ⟨slot, hslot⟩ := exists_slot (htypes p hp)
  rw [isTop_of_slot hslot, node_of_slot hslot]
  exact ⟨_, rfl, by simp⟩

/-- The parts of types are neither nil nor sets of the kind, and in a union a part is the top only
if it is one of the types. -/
theorem Normal.plain_of_parts (hnormal : s.Normal) {types : List Handle}
    {parts : List (List Handle)} (htypes : ∀ p ∈ types, s.contains p)
    (hparts : types.mapM (s.setPart kind) = .ok parts) :
    ∀ x ∈ parts.flatten, ∃ slot, s.slot? x = some slot ∧ slot.node.IsMember kind ∧
      (kind = .union → slot.node = .top → x ∈ types) := by
  intro x hx
  obtain ⟨part, hpart, hx⟩ := List.mem_flatten.mp hx
  obtain ⟨p, hp, hof⟩ := Lifting.exists_of_mem_mapM hparts hpart
  obtain ⟨⟨node, traits⟩, hslot⟩ := exists_slot (htypes p hp)
  rcases setPart_cases hslot hof with ⟨-, rfl⟩ | rfl | ⟨hmember, rfl⟩
  · simp at hx
  · obtain ⟨slot, hx, hmember, hplain⟩ := hnormal.plain hslot x hx
    exact ⟨slot, hx, hmember, fun hkind htop => absurd htop (hplain hkind)⟩
  · rw [List.mem_singleton.mp hx]
    exact ⟨_, hslot, hmember, fun _ _ => hp⟩

/-- A set that is made is in normal form, and it is younger than those before it. -/
theorem Normal.allocate (hnormal : s.Normal) (hs : s.Linked) (hnamed : s.Named)
    (hacyclic : s.Acyclic) (hgathered : s.Gathered) (ha : s.Admits node traits digest) :
    (s.allocate node traits digest).Normal := by
  have hext := Extends.allocate s node traits digest
  have hplace : ∀ {a b}, s.contains a → s.contains b →
      (s.allocate node traits digest).place a b = s.place a b :=
    place_eq hext.toRetains (by rw [names_allocate]; exact .refl s.names) hs hnamed
  -- members that were sorted before are still sorted
  have hstill : ∀ {members : List Handle}, (∀ x ∈ members, s.contains x) →
      members.Pairwise (fun a b => (s.place a b).isLE) →
      members.Pairwise fun a b => ((s.allocate node traits digest).place a b).isLE := by
    intro members hmembers hsorted
    refine hsorted.imp_of_mem fun {a b} ha hb hab => ?_
    rw [hplace (hmembers a ha) (hmembers b hb)]
    exact hab
  constructor
  · intro h kind members traits' hslot
    rcases slot_of_slot_allocate hslot with hold | ⟨-, hnew⟩
    · exact hstill (hs.contains_of_members hold) (hnormal.sorted hold)
    · cases hnew
      obtain ⟨types, parts, -, htypes, hparts, hrun⟩ := (ha.gathered kind members rfl).arranged
      have hflat := contains_of_setPart hs htypes hparts
      have harranged := Arranged.of_arrange hs hnamed hacyclic hflat hrun
      exact hstill (fun x hx => hflat x (harranged.subset hx)) harranged.sorted
  · intro h kind members traits' hslot x hx
    have hmember : ∃ slot, s.slot? x = some slot ∧ slot.node.IsMember kind ∧
        (kind = .union → slot.node ≠ .top) := by
      rcases slot_of_slot_allocate hslot with hold | ⟨-, hnew⟩
      · exact hnormal.plain hold x hx
      · cases hnew
        obtain ⟨types, parts, htop, htypes, hparts, hrun⟩ :=
          (ha.gathered kind members rfl).arranged
        have hflat := contains_of_setPart hs htypes hparts
        have harranged := Arranged.of_arrange hs hnamed hacyclic hflat hrun
        obtain ⟨slot, hslot, hmember, htype⟩ :=
          hnormal.plain_of_parts htypes hparts x (harranged.subset hx)
        refine ⟨slot, hslot, hmember, fun hkind hnode => ?_⟩
        have hany : types.anyM s.isTop = .ok true := by
          apply (anyTop_decides htypes).eq_true_iff.mpr
          exact ⟨x, htype hkind hnode, by rw [node_of_slot hslot, hnode]⟩
        rw [htop hkind] at hany
        cases hany
    obtain ⟨slot, hslot, hplain⟩ := hmember
    exact ⟨slot, hext.slots hslot, hplain⟩
  · intro kind
    rcases entries_allocate s node traits digest kind with hsame | hmore
    · rw [hsame]
      exact hnormal.ascending kind
    · rw [hmore]
      apply List.pairwise_append.mpr
      refine ⟨hnormal.ascending kind, List.pairwise_singleton _ _, ?_⟩
      intro entry hentry entry' hentry'
      obtain ⟨members, traits', hslot⟩ := hgathered.slot_of_entry hentry
      rw [List.mem_singleton.mp hentry']
      exact contains_iff.mp (contains_of_slot hslot)

theorem Normal.retain (hnormal : s.Normal) (hs : s.Linked) (hnamed : s.Named)
    (hslots : t.slots = s.slots) (hhash : t.hash = s.hash)
    (hsets : ∀ kind, t.sets kind = s.sets kind) (hnames : s.names.Keeps t.names) : t.Normal := by
  constructor
  · intro h kind members traits hslot
    rw [slot?_of_slots hslots] at hslot
    refine (hnormal.sorted hslot).imp_of_mem fun {a b} ha hb hab => ?_
    rw [place_eq (.of_slots hslots hhash) hnames hs hnamed]
    · exact hab
    · exact hs.contains_of_members hslot a ha
    · exact hs.contains_of_members hslot b hb
  · intro h kind members traits hslot x hx
    rw [slot?_of_slots hslots] at hslot
    obtain ⟨slot, hslot, hplain⟩ := hnormal.plain hslot x hx
    exact ⟨slot, by rw [slot?_of_slots hslots, hslot], hplain⟩
  · intro kind
    rw [hsets kind]
    exact hnormal.ascending kind

end Members

end GradualTypes.Store
