import GradualTypes.Proofs.Normalization

/-!
Sets rebuilt from their own members. The members of a union or an intersection stay sorted and plain
whatever becomes of the tuples in them, but they need not stay different: a promotion can make two
of them equal, and it can make a set equal to an older one. As long as the members differ,
rebuilding leaves the store as it is and returns the oldest set that has become equal under the same
digest. Otherwise fewer members are left. If these are at least two they make a set that is equal to
the old one, but need not be it.
-/

namespace GradualTypes

namespace Store

variable {s t : Store} {u v : Handle} {kind : SetKind} {members kept : List Handle}
  {traits : Traits}

section Members

variable (hs : s.WellFormed) (hslot : s.slot? u = some ⟨kind.node members, traits⟩)
include hs hslot

/-- The members of a set are left as they are when sets of the kind are opened. -/
theorem WellFormed.flat_members : s.flat kind members = members := by
  have hself : ∀ x ∈ members, s.spread kind x = [x] := by
    intro x hx
    obtain ⟨slot, hx, hmember, -⟩ := hs.normal.plain hslot x hx
    exact spread_of_ne hx hmember.2
  rw [flat, List.flatMap_congr hself, List.flatMap_singleton']
  apply List.filter_eq_self.mpr
  intro x hx
  obtain ⟨slot, hx, hmember, -⟩ := hs.normal.plain hslot x hx
  simpa using mt (hs.linked.special_iff hx).2.mpr hmember.1

theorem WellFormed.top_not_mem (hkind : kind = .union) : .top ∉ members := by
  intro htop
  obtain ⟨slot, hx, -, hplain⟩ := hs.normal.plain hslot .top htop
  exact hplain hkind ((hs.linked.special_iff hx).1.mpr rfl)

/-- What fits the members of a set is what is equal to the set and has its digest. -/
theorem WellFormed.fits_members_iff : s.Fits kind members v ↔
    (∃ others, s.node v = .ok (kind.node others)) ∧ s.digest v = s.digest u ∧ s.Same v u := by
  rw [Fits, digest_of_set hs.linked hslot]
  constructor
  · rintro ⟨hdigest, others, traits', hv, hsame⟩
    exact ⟨⟨others, node_of_slot hv⟩, hdigest, (hs.same_iff_sameTypes hv hslot).mpr hsame⟩
  · rintro ⟨⟨others, hnode⟩, hdigest, hsame⟩
    obtain ⟨traits', hv⟩ := exists_slot_of_node hnode
    exact ⟨hdigest, others, traits', hv, (hs.same_iff_sameTypes hv hslot).mp hsame⟩

variable (harranged : s.Arranged members kept) (hmakes : s.Makes kind kept v t)
include harranged hmakes

/-- Members that still differ make the oldest set that fits them, which the store holds. -/
theorem WellFormed.rebuild_of_unequal
    (hunequal : members.Pairwise fun x y => s.equal x y = .ok false) :
    t = s ∧ s.Fits kind members v ∧ ∀ w, s.Fits kind members w → v.index ≤ w.index := by
  have hmembers := hs.linked.contains_of_members hslot
  have hkept : members.Perm kept := by
    apply (List.perm_ext_iff_of_nodup (nodup_of_unequal hunequal)
      (nodup_of_unequal harranged.unequal)).mpr
    refine fun x => ⟨fun hx => ?_, fun hx => harranged.subset hx⟩
    obtain ⟨y, hy, hyx, -⟩ := harranged.first x hx
    rw [← hs.eq_of_same hmembers hunequal (harranged.subset hy) hx hyx]
    exact hy
  have hfits : s.Fits kind members u :=
    (hs.fits_members_iff hslot).mpr ⟨⟨members, node_of_slot hslot⟩, rfl, s.same_refl u⟩
  obtain ⟨found, hfound⟩ := findSet_answered kind hs hmembers
  cases found with
  | none => exact absurd hfits ((hs.findSet_none_iff hmembers).mp hfound u)
  | some w =>
    have htwo := (hs.gathered.entry hslot).1
    have hlookup := hs.lookup_perm hmembers hkept ((lookup_of_two_le htwo).trans hfound)
    obtain ⟨rfl, rfl⟩ := hmakes.again hlookup
    exact ⟨rfl, (hs.findSet_some_iff hmembers).mp hfound⟩

/-- Members not all of which are equal make a set that is equal to the old one. -/
theorem WellFormed.rebuild_of_differing
    (hdiffer : ∃ x ∈ members, ∃ y ∈ members, s.equal x y = .ok false) : t.Same v u := by
  obtain ⟨x, hx, y, hy, hxy⟩ := hdiffer
  have hmembers := hs.linked.contains_of_members hslot
  have hkept : ∀ z ∈ kept, s.contains z := fun z hz => hmembers z (harranged.subset hz)
  have htwo : 2 ≤ kept.length := by
    match kept, harranged with
    | [], harranged =>
      obtain ⟨z, hz, -⟩ := harranged.first x hx
      simp at hz
    | [z], harranged =>
      have hz := hmembers z (harranged.subset List.mem_cons_self)
      have hall : ∀ w ∈ members, s.Same z w := by
        intro w hw
        obtain ⟨z', hz', hsame, -⟩ := harranged.first w hw
        rw [List.mem_singleton.mp hz'] at hsame
        exact hsame
      have hsame : s.Same x y := hs.same_trans (hmembers x hx) hz (hmembers y hy)
        (hs.same_symm hz (hmembers x hx) (hall x hx)) (hall y hy)
      rw [Same, hxy] at hsame
      cases hsame
    | z :: z' :: rest, _ => simp
  have ht := hmakes.grows.wellFormed hs
  have hkept' : ∀ z ∈ kept, t.contains z := fun z hz => hmakes.grows.contains (hkept z hz)
  have hfound := hmakes.found
  rw [lookup_of_two_le htwo] at hfound
  obtain ⟨⟨-, others, traits', hv, hothers⟩, -⟩ := (ht.findSet_some_iff hkept').mp hfound
  have hu := hmakes.grows.slots hslot
  have hback : t.SameTypes kept members :=
    (hmakes.grows.sameTypes_iff hs hkept hmembers).mpr (harranged.sameTypes hs hmembers)
  apply (ht.same_iff_sameTypes hv hu).mpr
  exact ht.sameTypes_trans (ht.linked.contains_of_members hv) hkept'
    (ht.linked.contains_of_members hu) hothers hback

/-- Members that are all equal make one of them. -/
theorem WellFormed.rebuild_of_equal (hequal : ∀ x ∈ members, ∀ y ∈ members, s.Same x y) :
    v ∈ members ∧ t = s := by
  match kept, harranged, hmakes with
  | [], harranged, _ =>
    have htwo := (hs.gathered.entry hslot).1
    obtain ⟨x, hx⟩ := List.exists_mem_of_length_pos (by omega : 0 < members.length)
    obtain ⟨z, hz, -⟩ := harranged.first x hx
    simp at hz
  | [z], harranged, hmakes =>
    obtain ⟨rfl, rfl⟩ := hmakes.again rfl
    exact ⟨harranged.subset List.mem_cons_self, rfl⟩
  | z :: z' :: rest, harranged, _ =>
    have hmem' : z' ∈ z :: z' :: rest := List.mem_cons_of_mem z List.mem_cons_self
    have hsame := hequal z (harranged.subset List.mem_cons_self) z' (harranged.subset hmem')
    rw [Same, List.rel_of_pairwise_cons harranged.unequal List.mem_cons_self] at hsame
    cases hsame

end Members

end Store

/-- What rebuilding a union or an intersection from its own members returns in a reachable store,
whatever tuples were promoted since it was made. As long as no two members are equal they are still
arranged, the store is left as it is, and what is returned is equal to the old set. It is the old
set exactly if no older one of the same digest has become equal to it. If some members are equal but
not all, what is returned is still equal to the old set. If all are equal it is one of them. -/
theorem Reachable.make_members {s : Store} {kind : SetKind} {u : Handle} {members : List Handle}
    (hs : Reachable s) (hnode : s.node u = .ok (kind.node members)) :
    ∃ v t, kind.make members s = .ok v t ∧
      (members.Pairwise (fun x y => s.equal x y = .ok false) →
        s.arrange members = .ok members ∧ t = s ∧ s.equal v u = .ok true ∧
        (v = u ↔ ∀ w others, s.node w = .ok (kind.node others) → s.digest w = s.digest u →
          s.equal w u = .ok true → u.index ≤ w.index)) ∧
      ((∃ x ∈ members, ∃ y ∈ members, s.equal x y = .ok false) → t.equal v u = .ok true) ∧
      ((∀ x ∈ members, ∀ y ∈ members, s.equal x y = .ok true) → v ∈ members ∧ t = s) := by
  have hwf := hs.wellFormed
  obtain ⟨traits, hslot⟩ := Store.exists_slot_of_node hnode
  have hmembers := hwf.linked.contains_of_members hslot
  rcases hwf.make_run hmembers kind with
    ⟨⟨hkind, htop⟩, -⟩ | ⟨-, kept, v, t, harranged, hrun, hmakes⟩
  · exact absurd htop (hwf.top_not_mem hslot hkind)
  rw [hwf.flat_members hslot] at harranged
  refine ⟨v, t, hrun, fun hunequal => ?_, ?_, ?_⟩
  · obtain ⟨rfl, hfits, hleast⟩ := hwf.rebuild_of_unequal hslot harranged hmakes hunequal
    obtain ⟨⟨others, hv⟩, hdigest, hsame⟩ := (hwf.fits_members_iff hslot).mp hfits
    refine ⟨?_, rfl, hsame, ?_, fun holdest => ?_⟩
    · exact Store.arrange_of_sorted hwf.linked hwf.named hmembers (hwf.normal.sorted hslot) hunequal
    · rintro rfl w others hw hdigest hsame
      exact hleast w ((hwf.fits_members_iff hslot).mpr ⟨⟨others, hw⟩, hdigest, hsame⟩)
    · have hself := (hwf.fits_members_iff hslot).mpr ⟨⟨members, hnode⟩, rfl, t.same_refl u⟩
      exact Handle.eq_of_index (le_antisymm (hleast u hself) (holdest v others hv hdigest hsame))
  · exact hwf.rebuild_of_differing hslot harranged hmakes
  · exact hwf.rebuild_of_equal hslot harranged hmakes

/-- A union of a string and two tuples of integers, the first of which is then promoted. -/
def twinStore : Store :=
  .after [.nominal "Integer", .nominal "String", .tuple [⟨5⟩], .tuple [⟨5⟩, ⟨5⟩],
    .union [⟨6⟩, ⟨7⟩, ⟨8⟩], .promote ⟨7⟩]

/-- The first tuple is promoted, the members still differ, and rebuilding finds the union. -/
theorem twinStore_union_found :
    Reachable twinStore ∧ twinStore.node ⟨9⟩ = .ok (SetKind.node .union [⟨6⟩, ⟨7⟩, ⟨8⟩]) ∧
      twinStore.isPromoted ⟨7⟩ = .ok true ∧
      SetKind.make .union [⟨6⟩, ⟨7⟩, ⟨8⟩] twinStore = .ok ⟨9⟩ twinStore := by
  have hs : Reachable twinStore := .after (by decide)
  have hnode : twinStore.node ⟨9⟩ = .ok (SetKind.node .union [⟨6⟩, ⟨7⟩, ⟨8⟩]) := by decide +kernel
  have hunequal : [(⟨6⟩ : Handle), ⟨7⟩, ⟨8⟩].Pairwise
      fun x y => twinStore.equal x y = .ok false := by
    decide +kernel
  have hfirst : ∀ i : Fin 9, (twinStore.nodeAt ⟨i.val⟩).kind ≠ .union := by decide +kernel
  obtain ⟨v, t, hrun, hdiffer, -⟩ := Reachable.make_members hs hnode
  obtain ⟨-, heq, -, holdest⟩ := hdiffer hunequal
  have hv : v = ⟨9⟩ := by
    refine holdest.mpr fun w others hw _ _ => ?_
    by_contra hlt
    obtain ⟨traits, hslot⟩ := Store.exists_slot_of_node hw
    have hkind := hfirst ⟨w.index, Nat.lt_of_not_le hlt⟩
    rw [Store.nodeAt_of_slot hslot] at hkind
    exact hkind rfl
  rw [hv, heq] at hrun
  exact ⟨hs, hnode, by decide +kernel, hrun⟩

/-- When the second tuple is promoted as well it stands for the same array type as the first. Then
only one of them is left when the union is rebuilt, and another union is made. -/
theorem twinStore_union_lost :
    let s := (Operation.promote ⟨8⟩).apply twinStore
    Reachable s ∧ s.node ⟨9⟩ = .ok (SetKind.node .union [⟨6⟩, ⟨7⟩, ⟨8⟩]) ∧
      ∃ v t, SetKind.make .union [⟨6⟩, ⟨7⟩, ⟨8⟩] s = .ok v t ∧ v ≠ ⟨9⟩ ∧
        t.node v = .ok (SetKind.node .union [⟨6⟩, ⟨7⟩]) ∧ t.size = s.size + 1 := by
  intro s
  have hreachable : Reachable twinStore := .after (by decide)
  have hs : Reachable s := .step (.promote ⟨8⟩) hreachable trivial
  have hmade : (match SetKind.make .union [⟨6⟩, ⟨7⟩, ⟨8⟩] s with
      | .ok v t => some (v, t.node v, t.size)
      | .error _ _ => none) =
        some (⟨11⟩, .ok (SetKind.node .union [⟨6⟩, ⟨7⟩]), s.size + 1) := by
    decide +kernel
  cases hrun : SetKind.make .union [⟨6⟩, ⟨7⟩, ⟨8⟩] s with
  | error e t =>
    rw [hrun] at hmade
    cases hmade
  | ok v t =>
    rw [hrun] at hmade
    simp only [Option.some.injEq, Prod.mk.injEq] at hmade
    obtain ⟨rfl, hnode, hsize⟩ := hmade
    exact ⟨hs, by decide +kernel, ⟨11⟩, t, rfl, by decide, hnode, hsize⟩

end GradualTypes
