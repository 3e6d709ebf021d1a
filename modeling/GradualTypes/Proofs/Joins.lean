import GradualTypes.Proofs.Sharing
import GradualTypes.Proofs.Transparency

/-!
Unions as least upper bounds. As long as no tuple is promoted, a union that is made of types without
tuples holds exactly the types that are left after nested unions were opened and nil was dropped,
even if it is found in the catalog. Each of its members is below it: a member that is no annotated
type is compared with all members, itself among them, and what stands under an annotation reaches
the member through the annotation. So a union is below a type exactly if all its members are, and
the same holds of the types it was made of.
-/

namespace GradualTypes

namespace Store

variable {s t : Store} {a b c d h u x z : Handle} {m n : Nat} {kind : SetKind} {label : Name}
  {types members : List Handle}

section Made

/-- A tuple that is made is fixed, so what is promoted afterwards was promoted before. -/
theorem promoted_of_allocate {node : Node} {traits : Traits} {digest : UInt64} {array : Handle}
    (hs : s.Linked) (ha : s.Admits node traits digest)
    (hshape : (s.allocate node traits digest).shape h = .ok (.promoted array)) :
    s.shape h = .ok (.promoted array) := by
  obtain ⟨⟨node', traits'⟩, hslot, hof⟩ := shape_eq_ok_iff.mp hshape
  rcases slot_of_slot_allocate hslot with hold | ⟨rfl, hnew⟩
  · obtain ⟨shape, hshape'⟩ := hs.exists_shape (contains_of_slot hold)
    rw [(Extends.allocate s node traits digest).shape_eq hshape'] at hshape
    cases hshape
    exact hshape'
  · cases hnew
    cases node with
    | tuple params own entry =>
      obtain ⟨rfl, -⟩ := ha.entry params own entry rfl
      simp [Node.shape?, states_allocate, Node.entry?, TupleState.unbounded] at hof
    | _ => cases hof

theorem Grows.promoted_before {array : Handle} (hst : s.Grows t) (hs : s.WellFormed)
    (hshape : t.shape h = .ok (.promoted array)) : s.shape h = .ok (.promoted array) := by
  have hadded := hst.added
  clear hst
  induction hadded using Relation.ReflTransGen.head_induction_on with
  | refl => exact hshape
  | head hadds _ ih =>
    obtain ⟨node, traits, digest, ha, rfl⟩ := hadds
    exact promoted_of_allocate hs.linked ha (ih (hs.allocate ha))

/-- What only grows stays without promoted tuples. -/
theorem Grows.unpromoted (hst : s.Grows t) (hs : s.WellFormed)
    (hnone : ∀ h, s.isPromoted h ≠ .ok true) (h array : Handle) :
    t.shape h ≠ .ok (.promoted array) :=
  fun hshape => hnone h (hs.isPromoted_iff.mpr ⟨array, hst.promoted_before hs hshape⟩)

/-- Nothing is promoted if none of the types that there are is. -/
theorem WellFormed.unpromoted_of_handles (hs : s.WellFormed)
    (hnone : ∀ x ∈ s.handles, s.isPromoted x ≠ .ok true) (h : Handle) :
    s.isPromoted h ≠ .ok true := by
  intro hpromoted
  obtain ⟨array, hshape⟩ := hs.isPromoted_iff.mp hpromoted
  exact hnone h (mem_handles.mpr (Linked.contains_of_shape hshape)) hpromoted

/-- As long as all promoted tuples stand for deeper types, a type is equal to one without tuples
only if both are the same. -/
theorem WellFormed.eq_of_same_shallow (hs : s.WellFormed)
    (hdeep : ∀ h array, s.shape h = .ok (.promoted array) → s.depth b < s.depth array)
    (ha : s.contains a) (hb : s.IsTupleFree b) (hab : s.Same a b) : a = b := by
  induction hn : s.rank a + s.rank b using Nat.strong_induction_on generalizing a b with
  | _ n ih =>
    obtain ⟨left, hleft⟩ := hs.linked.exists_shape ha
    obtain ⟨right, hright, hnode⟩ := hs.shape_of_tupleFree hb
    rcases (hs.same_iff hleft hright).mp hab with heq | hsame
    · exact heq
    have hnode' : left.node?.isSome := by
      cases left with
      | promoted array =>
        have hdepth := depth_eq_of_equal hs.linked hs.acyclic ha (hs.contains_of_tupleFree hb) hab
        rw [depth_eq hs.linked hs.acyclic hleft] at hdepth
        exact absurd hdepth (hdeep a array hleft).ne'
      | tuple params =>
        cases right with
        | promoted array => cases hnode
        | tuple others => cases hnode
        | _ => exact hsame.elim
      | _ => rfl
    have hpart : ∀ y ∈ right.parts, s.depth y ≤ s.depth b := fun y hy =>
      depth_le_of_below hs.linked hs.acyclic (.single ⟨right, hright, hy⟩)
    refine hs.eq_of_sameShapes hleft hright hnode' hnode (hsame.imp ?_ ?_ ?_)
    · intro x hx hxb
      obtain ⟨hcx, hltx⟩ := hs.descends hleft hx
      exact ih _ (by omega) hdeep hcx hb hxb rfl
    · intro y hy hay
      have hlty := (hs.descends hright hy).2
      exact ih _ (by omega) (fun h array hshape => (hpart y hy).trans_lt (hdeep h array hshape)) ha
        (hs.tupleFree_of_refersTo hb ⟨_, hright, hy⟩).1 hay rfl
    · intro x hx y hy
      obtain ⟨hcx, hltx⟩ := hs.descends hleft hx
      obtain ⟨hcy, hlty⟩ := hs.descends hright hy
      have hfree := (hs.tupleFree_of_refersTo hb ⟨_, hright, hy⟩).1
      have heq : s.Same x y → x = y := fun hxy => ih _ (by omega)
        (fun h array hshape => (hpart y hy).trans_lt (hdeep h array hshape)) hcx hfree hxy rfl
      exact ⟨heq, fun hyx => (heq (hs.same_symm hcy hcx hyx)).symm⟩

/-- As long as no tuple is promoted, a type is equal to one without tuples only if both are the
same. -/
theorem WellFormed.eq_of_same_tupleFree (hs : s.WellFormed)
    (hnone : ∀ h array, s.shape h ≠ .ok (.promoted array)) (ha : s.contains a)
    (hb : s.IsTupleFree b) (hab : s.Same a b) : a = b :=
  hs.eq_of_same_shallow (fun h array hshape => absurd hshape (hnone h array)) ha hb hab

/-- No tuple occurs in a set if none occurs in its members. -/
theorem Flagged.isTupleFree_of_set (hs : s.Flagged) {traits : Traits}
    (hslot : s.slot? h = some ⟨kind.node members, traits⟩)
    (hmembers : ∀ x ∈ members, s.IsTupleFree x) : s.IsTupleFree h := by
  cases kind <;> exact (hs.isTupleFree_iff hslot).mpr ⟨Traits.hasTuple_none, hmembers⟩

variable (hs : s.WellFormed) (htypes : ∀ p ∈ types, s.IsTupleFree p)
include hs htypes

theorem WellFormed.tupleFree_of_flat (hx : x ∈ s.flat kind types) : s.IsTupleFree x := by
  have hcontains : ∀ p ∈ types, s.contains p := fun p hp => hs.contains_of_tupleFree (htypes p hp)
  obtain ⟨p, hp, -, hspread⟩ := (hs.mem_flat_iff hcontains).mp hx
  rcases spread_cases kind (hcontains p hp) with ⟨members, traits, hslot, hmembers⟩ | hself
  · have hx' : s.RefersTo p x := by
      refine ⟨_, shape_of_set hslot, ?_⟩
      rw [← hmembers]
      cases kind <;> exact hspread
    exact (hs.tupleFree_of_refersTo (htypes p hp) hx').1
  · rw [hself] at hspread
    rw [List.mem_singleton.mp hspread]
    exact htypes p hp

/-- Arranging types without tuples leaves out no more than repetitions. -/
theorem WellFormed.mem_arranged_iff (harranged : s.Arranged types members) :
    x ∈ members ↔ x ∈ types := by
  refine ⟨fun hx => harranged.subset hx, fun hx => ?_⟩
  obtain ⟨y, hy, hyx, -⟩ := harranged.first x hx
  have heq := (hs.equal_decides_eq (htypes y (harranged.subset hy)) (htypes x hx)).eq_true_iff
  rw [← heq.mp hyx]
  exact hy

/-- What a set of types without tuples is, if no tuple occurs in it either: the top if that absorbs
the others, nil if nothing is left of the types, the only type that is left, or a set of all that
are left. -/
theorem WellFormed.isMadeOf_cases (hh : s.IsTupleFree h) (hmade : s.IsMadeOf kind types h) :
    (kind = .union ∧ .top ∈ types) ∧ h = .top ∨ s.flat kind types = [] ∧ h = .nil ∨
      (∀ x, x ∈ s.flat kind types ↔ x = h) ∨
      ∃ members traits, s.slot? h = some ⟨kind.node members, traits⟩ ∧
        ∀ x, x ∈ s.flat kind types ↔ x ∈ members := by
  rcases hmade with htop | ⟨-, members, harranged, hstands⟩
  · exact .inl htop
  right
  have hflat : ∀ x ∈ s.flat kind types, s.IsTupleFree x := fun x => hs.tupleFree_of_flat htypes
  have hmem : ∀ {x}, x ∈ members ↔ x ∈ s.flat kind types := hs.mem_arranged_iff hflat harranged
  rcases members with _ | ⟨x, _ | ⟨y, rest⟩⟩
  · exact .inl ⟨List.eq_nil_iff_forall_not_mem.mpr fun x hx => by simp [← hmem] at hx, hstands⟩
  · obtain rfl : h = x := hstands
    exact .inr (.inl fun y => by simp [← hmem])
  · obtain ⟨others, traits, hslot, hsame⟩ := hstands
    have hothers : ∀ x ∈ others, s.IsTupleFree x := by
      intro x hx
      have hx' : x ∈ (kind.shape others).parts := by cases kind <;> exact hx
      exact (hs.tupleFree_of_refersTo hh ⟨_, shape_of_set hslot, hx'⟩).1
    have hperm := hs.perm_of_sameTypes hothers (fun x hx => hflat x (hmem.mp hx))
      (hs.gathered.entry hslot).2.1 (nodup_of_unequal harranged.unequal) hsame
    exact .inr (.inr ⟨others, traits, hslot, fun x => by rw [← hmem, hperm.mem_iff]⟩)

/-- In any case no tuple occurs in it, or it is a set each of whose members is equal to a type
without tuples. -/
theorem WellFormed.tupleFree_or_set (hmade : s.IsMadeOf kind types h) :
    s.IsTupleFree h ∨ ∃ members traits, s.slot? h = some ⟨kind.node members, traits⟩ ∧
      ∀ x ∈ members, ∃ y, s.IsTupleFree y ∧ s.Same x y := by
  rcases hmade with ⟨-, rfl⟩ | ⟨-, members, harranged, hstands⟩
  · exact .inl hs.linked.tupleFree_top.1
  have hmembers : ∀ x ∈ members, s.IsTupleFree x := fun x hx =>
    hs.tupleFree_of_flat htypes (harranged.subset hx)
  rcases members with _ | ⟨x, _ | ⟨y, rest⟩⟩
  · obtain rfl : h = .nil := hstands
    exact .inl hs.linked.tupleFree_nil.1
  · obtain rfl : h = x := hstands
    exact .inl (hmembers h List.mem_cons_self)
  · obtain ⟨others, traits, hslot, hsame⟩ := hstands
    refine .inr ⟨others, traits, hslot, fun x hx => ?_⟩
    obtain ⟨y, hy, hxy⟩ := hsame.1 x hx
    exact ⟨y, hmembers y hy, hxy⟩

/-- As long as no tuple is promoted, no tuple occurs in a set of types without tuples. -/
theorem WellFormed.tupleFree_of_isMadeOf (hnone : ∀ h array, s.shape h ≠ .ok (.promoted array))
    (hmade : s.IsMadeOf kind types h) : s.IsTupleFree h := by
  rcases hs.tupleFree_or_set htypes hmade with hfree | ⟨members, traits, hslot, hmembers⟩
  · exact hfree
  · refine hs.flagged.isTupleFree_of_set hslot fun x hx => ?_
    obtain ⟨y, hy, hxy⟩ := hmembers x hx
    rw [hs.eq_of_same_tupleFree hnone (hs.linked.contains_of_members hslot x hx) hy hxy]
    exact hy

end Made

section Below

variable (hs : s.WellFormed)
include hs

private theorem Wraps.isTupleFree (hwraps : s.Wraps a n c) (ha : s.IsTupleFree a) :
    s.IsTupleFree c := by
  induction hwraps with
  | bare _ _ => exact ha
  | annotated hshape _ ih =>
    exact ih (hs.tupleFree_of_refersTo ha ⟨_, hshape, List.mem_cons_self⟩).1

/-- Among types without tuples all annotations can be taken off. -/
theorem WellFormed.below_wraps (ha : s.IsTupleFree a) (hwraps : s.Wraps a m c)
    (hwraps' : s.Wraps b n d) : s.Below a b ↔ s.Below c d := by
  have hfixed : ∀ params, s.shape c ≠ .ok (.tuple params) := by
    obtain ⟨shape, hshape, hnode⟩ := hs.shape_of_tupleFree (hwraps.isTupleFree hs ha)
    intro params htuple
    rw [hshape] at htuple
    cases htuple
    cases hnode
  obtain ⟨answer, t, hrun, hrun'⟩ := hs.subtype_wraps hwraps hwraps' hfixed
  rw [Below, Below, hrun, hrun']

private theorem WellFormed.below_wraps_right (ha : s.IsTupleFree a) (hwraps : s.Wraps z n d) :
    s.Below a z ↔ s.Below a d := by
  obtain ⟨m, c, hwraps'⟩ := hs.exists_wraps (hs.contains_of_tupleFree ha)
  obtain ⟨right, hright, hbare⟩ := hwraps.exists_shape
  rw [hs.below_wraps ha hwraps' hwraps, hs.below_wraps ha hwraps' (.bare hright hbare)]

theorem WellFormed.below_annotated (ha : s.IsTupleFree a)
    (hshape : s.shape a = .ok (.annotated label c)) (hz : s.contains z) :
    s.Below a z ↔ s.Below c z := by
  have hc := (hs.tupleFree_of_refersTo ha ⟨_, hshape, List.mem_cons_self⟩).1
  obtain ⟨m, core, hwraps⟩ := hs.exists_wraps (hs.contains_of_tupleFree hc)
  obtain ⟨n, d, hwraps'⟩ := hs.exists_wraps hz
  rw [hs.below_wraps ha (.annotated hshape hwraps) hwraps', hs.below_wraps hc hwraps hwraps']

/-- Every member is below a union. -/
theorem WellFormed.below_union (hu : s.IsTupleFree u) (hshape : s.shape u = .ok (.union members))
    (hx : x ∈ members) : s.Below x u := by
  induction hn : u.index using Nat.strong_induction_on generalizing u members x with
  | _ n ih =>
    have hpart : ∀ {h shape y}, s.IsTupleFree h → s.shape h = .ok shape → y ∈ shape.parts →
        s.IsTupleFree y ∧ y.index < h.index := fun hfree hshape hy =>
      hs.tupleFree_of_refersTo hfree ⟨_, hshape, hy⟩
    obtain ⟨hxfree, hxlt⟩ := hpart hu hshape hx
    -- an older type that is below the member is taken apart until it can be compared with it
    have hold : ∀ {a}, s.IsTupleFree a → a.index < u.index → s.Below a x → s.Below a u := by
      intro a ha hlt hax
      induction hk : a.index using Nat.strong_induction_on generalizing a with
      | _ k ih' =>
        obtain ⟨left, hleft, hnode⟩ := hs.shape_of_tupleFree ha
        refine (hs.below_iff ha hu hleft hshape).mpr (.inr ?_)
        cases left with
        | promoted array => cases hnode
        | tuple params => cases hnode
        | annotated label inner =>
          intro y hy
          obtain rfl := List.mem_singleton.mp hy
          obtain ⟨hyfree, hylt⟩ := hpart ha hleft hy
          have hyx := (hs.below_annotated ha hleft (hs.contains_of_tupleFree hxfree)).mp hax
          exact ih' y.index (by omega) hyfree (by omega) hyx rfl
        | union others =>
          intro y hy
          obtain ⟨hyfree, hylt⟩ := hpart ha hleft hy
          have hya : s.Below y a := ih a.index (by omega) ha hleft hy rfl
          exact ih' y.index (by omega) hyfree (by omega) (hs.below_trans hyfree ha hxfree hya hax)
            rfl
        | _ => exact ⟨x, hx, hax⟩
    exact hold hxfree hxlt (hs.below_refl hxfree)

/-- A union is below a type exactly if all its members are. -/
theorem WellFormed.below_union_iff (hu : s.IsTupleFree u)
    (hshape : s.shape u = .ok (.union members)) (hz : s.IsTupleFree z) :
    s.Below u z ↔ ∀ x ∈ members, s.Below x z := by
  have hfree : ∀ x ∈ members, s.IsTupleFree x := fun x hx =>
    (hs.tupleFree_of_refersTo hu ⟨_, hshape, hx⟩).1
  constructor
  · intro huz x hx
    exact hs.below_trans (hfree x hx) hu hz (hs.below_union hu hshape hx) huz
  · intro hall
    obtain ⟨n, d, hwraps⟩ := hs.exists_wraps (hs.contains_of_tupleFree hz)
    obtain ⟨right, hright, hbare⟩ := hwraps.exists_shape
    rw [hs.below_wraps_right hu hwraps, hs.below_iff hu (hwraps.isTupleFree hs hz) hshape hright]
    have hmembers : ∀ x ∈ members, s.Below x d := fun x hx =>
      (hs.below_wraps_right (hfree x hx) hwraps).mp (hall x hx)
    cases right with
    | annotated label inner => exact absurd rfl (hbare label inner)
    | _ => exact .inr hmembers

private theorem WellFormed.below_spread_iff (hx : s.IsTupleFree x) (hz : s.IsTupleFree z) :
    s.Below x z ↔ ∀ y ∈ s.spread .union x, s.Below y z := by
  rcases spread_cases .union (hs.contains_of_tupleFree hx) with
    ⟨members, traits, hslot, hspread⟩ | hspread
  · rw [hspread]
    exact hs.below_union_iff hx (shape_of_set hslot) hz
  · simp [hspread]

variable (htypes : ∀ p ∈ types, s.IsTupleFree p)
include htypes

private theorem WellFormed.below_flat_iff (hz : s.IsTupleFree z) :
    (∀ y ∈ s.flat .union types, s.Below y z) ↔ ∀ x ∈ types, s.Below x z := by
  have hcontains : ∀ p ∈ types, s.contains p := fun p hp => hs.contains_of_tupleFree (htypes p hp)
  constructor
  · intro hall x hx
    by_cases hnil : x = .nil
    · obtain ⟨left, hleft, -⟩ := hs.shape_of_tupleFree (htypes x hx)
      obtain ⟨right, hright, -⟩ := hs.shape_of_tupleFree hz
      exact (hs.below_iff (htypes x hx) hz hleft hright).mpr (.inl (.inr (.inr hnil)))
    · refine (hs.below_spread_iff (htypes x hx) hz).mpr fun y hy => hall y ?_
      exact (hs.mem_flat_iff hcontains).mpr ⟨x, hx, hnil, hy⟩
  · intro hall y hy
    obtain ⟨x, hx, -, hspread⟩ := (hs.mem_flat_iff hcontains).mp hy
    exact (hs.below_spread_iff (htypes x hx) hz).mp (hall x hx) y hspread

/-- A union that is made of types without tuples is below a type exactly if these are. -/
theorem WellFormed.below_isMadeOf_iff (hu : s.IsTupleFree u) (hmade : s.IsMadeOf .union types u)
    (hz : s.IsTupleFree z) : s.Below u z ↔ ∀ x ∈ types, s.Below x z := by
  rcases hs.isMadeOf_cases htypes hu hmade with ⟨⟨-, htop⟩, rfl⟩ | hrest
  · exact ⟨fun huz x hx => hs.below_of_top_below (htypes x hx) hz huz, fun hall => hall _ htop⟩
  rw [← hs.below_flat_iff htypes hz]
  rcases hrest with ⟨hnone, rfl⟩ | honly | ⟨members, traits, hslot, hmembers⟩
  · obtain ⟨right, hright, -⟩ := hs.shape_of_tupleFree hz
    have hnil := (hs.below_iff hu hz hs.linked.tupleFree_nil.2 hright).mpr (.inl (.inr (.inr rfl)))
    simp [hnone, hnil]
  · simp [honly]
  · simp only [hmembers]
    exact hs.below_union_iff hu (shape_of_set hslot) hz

end Below

end Store

/-- In a reachable store in which no tuple is promoted, the union of types without tuples is their
least upper bound: all of them are below it, and it is below a type without tuples exactly if all of
them are. All these questions are answered without a change to the store. -/
theorem Reachable.subtype_union {s : Store} {xs : List Handle} (hs : Reachable s)
    (hnone : ∀ h, s.isPromoted h ≠ .ok true) (hxs : ∀ x ∈ xs, s.IsTupleFree x) :
    ∃ u t, Store.union xs s = .ok u t ∧ t.IsTupleFree u ∧
      (∀ x ∈ xs, Store.subtype x u t = .ok true t) ∧
      ∀ z, t.IsTupleFree z →
        (∃ answer, Store.subtype u z t = .ok answer t) ∧
        (∀ x ∈ xs, ∃ answer, Store.subtype x z t = .ok answer t) ∧
        (Store.subtype u z t = .ok true t ↔ ∀ x ∈ xs, Store.subtype x z t = .ok true t) := by
  have hwf := hs.wellFormed
  have hcontains : ∀ x ∈ xs, s.contains x := fun x hx => hwf.contains_of_tupleFree (hxs x hx)
  obtain ⟨u, t, hrun, hgrows, -, hmade⟩ := hwf.make_returns .union hcontains
  have ht := hgrows.wellFormed hwf
  have hxs' : ∀ x ∈ xs, t.IsTupleFree x := fun x hx => hgrows.toRetains.isTupleFree (hxs x hx)
  have hnone' : ∀ h array, t.shape h ≠ .ok (.promoted array) := fun h array hshape =>
    hnone h (hwf.isPromoted_iff.mpr ⟨array, hgrows.promoted_before hwf hshape⟩)
  have hu := ht.tupleFree_of_isMadeOf hxs' hnone' hmade
  have hiff : ∀ {z}, t.IsTupleFree z → (t.Below u z ↔ ∀ x ∈ xs, t.Below x z) := fun hz =>
    ht.below_isMadeOf_iff hxs' hu hmade hz
  refine ⟨u, t, hrun, hu, (hiff hu).mp (ht.below_refl hu), fun z hz => ?_⟩
  exact ⟨ht.subtype_quiet hu hz, fun x hx => ht.subtype_quiet (hxs' x hx) hz, hiff hz⟩

/-- Three classes, the union of two of them, that union under an annotation, the union of all three,
and the intersection of the first union with the third class. -/
def layeredStore : Store :=
  .after [.nominal "Integer", .nominal "String", .nominal "Comparable", .union [⟨5⟩, ⟨6⟩],
    .annotated "either" ⟨8⟩, .union [⟨5⟩, ⟨6⟩, ⟨7⟩], .intersection [⟨8⟩, ⟨7⟩]]

theorem layeredStore_unpromoted (h : Handle) : layeredStore.isPromoted h ≠ .ok true := by
  have hs : Reachable layeredStore := .after (by decide)
  exact hs.wellFormed.unpromoted_of_handles (by decide +kernel) h

/-- The union of the annotated union, nil and the third class is below the union of all three
classes, as these types are, and not below the union of two. -/
theorem layeredStore_subtype_union :
    let xs : List Handle := [⟨9⟩, .nil, ⟨7⟩]
    Reachable layeredStore ∧ (∀ h, layeredStore.isPromoted h ≠ .ok true) ∧
      (∀ x ∈ xs, layeredStore.IsTupleFree x) ∧
      ∃ t, Store.union xs layeredStore = .ok ⟨12⟩ t ∧
        (∀ x ∈ xs, Store.subtype x ⟨12⟩ t = .ok true t) ∧ t.IsTupleFree ⟨10⟩ ∧
        (∀ x ∈ xs, Store.subtype x ⟨10⟩ t = .ok true t) ∧
        Store.subtype ⟨12⟩ ⟨10⟩ t = .ok true t ∧ ¬ Store.subtype ⟨12⟩ ⟨8⟩ t = .ok true t := by
  intro xs
  have hs : Reachable layeredStore := .after (by decide)
  have hxs : ∀ x ∈ xs, layeredStore.IsTupleFree x := by decide +kernel
  obtain ⟨u, t, hrun, -, habove, hleast⟩ :=
    Reachable.subtype_union hs layeredStore_unpromoted hxs
  obtain rfl : u = ⟨12⟩ := eq_of_run' hrun (by decide +kernel)
  obtain rfl : (Operation.union xs).apply layeredStore = t :=
    Operation.apply_of_run (.union xs) rfl hrun
  set t := (Operation.union xs).apply layeredStore
  have hwide : t.IsTupleFree ⟨10⟩ := by decide +kernel
  obtain ⟨-, hquiet, hiff⟩ := hleast ⟨10⟩ hwide
  have hbelow : ∀ x ∈ xs, Store.subtype x ⟨10⟩ t = .ok true t := by
    have hyes : ∀ x ∈ xs, (Store.subtype x ⟨10⟩).run' t = some true := by decide +kernel
    intro x hx
    obtain ⟨answer, hanswer⟩ := hquiet x hx
    obtain rfl := eq_of_run' hanswer (hyes x hx)
    exact hanswer
  have hnot : ¬ Store.subtype ⟨12⟩ ⟨8⟩ t = .ok true t := by
    intro hyes
    have hno : (Store.subtype ⟨12⟩ ⟨8⟩).run' t = some false := by decide +kernel
    cases eq_of_run' hyes hno
  exact ⟨hs, layeredStore_unpromoted, hxs, t, hrun, habove, hwide, hbelow,
    hiff.mpr hbelow, hnot⟩

end GradualTypes
