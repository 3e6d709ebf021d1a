import GradualTypes.Proofs.Collation
import GradualTypes.Proofs.Covering
import GradualTypes.Proofs.Unpromoted

/-!
Order, equality and digests agree as long as no promoted tuple is involved: two types compare equal
exactly if they are equal, and then they have one digest. What both relations amount to is that the
types have one outline. From one outline equality follows by going down the types. The other way
round needs more, since sets are equal if each covers the other, while their outlines list the
members in order: it needs that no two members of a set have one outline. This is so when a set is
made, as of equal types one is kept, and it stays so for members in which nothing is promoted. So
the members of a set go on to be sorted, plain and, up to promotion, unequal.
-/

namespace GradualTypes

namespace Store

variable {s t : Store} {a b : Handle}

section Outlines

/-- No two built-in types have one node. -/
private theorem initial_node_injective : ∀ i j : Fin builtinCount,
    (initial.slot? ⟨i⟩).map Slot.node = (initial.slot? ⟨j⟩).map Slot.node → i = j := by
  decide +kernel

/-- The special types have one handle each. -/
theorem Linked.eq_of_special {node : Node} {traits traits' : Traits} (hs : s.Linked)
    (ha : s.slot? a = some ⟨node, traits⟩) (hb : s.slot? b = some ⟨node, traits'⟩)
    (hnode : node = .top ∨ node = .nil ∨ node = .wildcard) : a = b := by
  have hlt := hs.special ha hnode
  have hlt' := hs.special hb hnode
  rw [hs.builtin a hlt] at ha
  rw [hs.builtin b hlt'] at hb
  have hindex := initial_node_injective ⟨a.index, hlt⟩ ⟨b.index, hlt'⟩ (by simp [ha, hb])
  exact Handle.eq_of_index (Fin.mk.inj_iff.mp hindex)

variable (hs : s.WellFormed)
include hs

/-- Generic types over equal classes are over the same class. -/
theorem WellFormed.eq_of_base {base base' : Handle} {params params' : List Handle}
    {traits traits' : Traits} (ha : s.slot? a = some ⟨.generic base params, traits⟩)
    (hb : s.slot? b = some ⟨.generic base' params', traits'⟩) (hsame : s.Same base base') :
    base = base' := by
  have hshape : ∀ {h : Handle} {name : Name}, s.node h = .ok (.nominal name) →
      s.shape h = .ok (.nominal name) := by
    intro h name hnode
    obtain ⟨traits, hslot⟩ := exists_slot_of_node hnode
    exact shape_eq_ok_iff.mpr ⟨_, hslot, rfl⟩
  obtain ⟨name, hname⟩ := hs.linked.base_nominal ha
  obtain ⟨name', hname'⟩ := hs.linked.base_nominal hb
  rcases (hs.same_iff (hshape hname) (hshape hname')).mp hsame with heq | hnone
  · exact heq
  · exact hnone.elim

/-- Types of one kind and name are equal if what they refer to is equal position by position. -/
theorem WellFormed.same_of_refs {left right : Node} {traits traits' : Traits}
    (hleft : s.slot? a = some ⟨left, traits⟩) (hright : s.slot? b = some ⟨right, traits'⟩)
    (hfirst : s.shape a = .ok left.fixedShape) (hsecond : s.shape b = .ok right.fixedShape)
    (hkind : left.kind = right.kind) (hname : left.name? = right.name?)
    (hrefs : List.Forall₂ s.Same left.refs right.refs) : s.Same a b := by
  have hback : List.Forall₂ s.Same right.refs left.refs := by
    refine forall₂_symm_of_mem hrefs fun x hx y hy => ?_
    exact hs.same_symm (hs.linked.contains_of_refs hleft hx)
      (hs.linked.contains_of_refs hright hy)
  have hsets : (∀ x ∈ left.refs, ∃ y ∈ right.refs, s.Same x y) ∧
      ∀ y ∈ right.refs, ∃ x ∈ left.refs, s.Same y x :=
    ⟨fun x hx => exists_mem_of_forall₂ hrefs hx, fun y hy => exists_mem_of_forall₂ hback hy⟩
  rw [hs.same_iff hfirst hsecond]
  cases left <;> cases right <;> cases hkind
  case top.top => exact .inl (hs.linked.eq_of_special hleft hright (by simp))
  case nil.nil => exact .inl (hs.linked.eq_of_special hleft hright (by simp))
  case wildcard.wildcard => exact .inl (hs.linked.eq_of_special hleft hright (by simp))
  case nominal.nominal =>
    cases hname
    exact .inl (hs.catalogued.unique rfl hleft hright)
  case symbol.symbol =>
    cases hname
    exact .inl (hs.catalogued.unique rfl hleft hright)
  case var.var =>
    cases hname
    exact .inl (hs.catalogued.unique rfl hleft hright)
  case generic.generic =>
    cases hrefs with
    | cons hbase hparams => exact .inr ⟨hs.eq_of_base hleft hright hbase, hparams⟩
  case tuple.tuple => exact .inr hrefs
  case union.union => exact .inr hsets
  case intersection.intersection => exact .inr hsets
  case annotated.annotated =>
    cases hname
    cases hrefs with
    | cons hinner _ => exact .inr ⟨rfl, hinner⟩

/-- Types at one place in which no promoted tuple occurs are equal. The induction goes down the
handles, as what the types refer to is at one place. -/
theorem WellFormed.same_of_place (ha : s.contains a) (hb : s.contains b)
    (hfirst : s.IsUnpromoted a) (hsecond : s.IsUnpromoted b) (hplace : s.place a b = .eq) :
    s.Same a b := by
  induction hn : a.index using Nat.strong_induction_on generalizing a b with
  | _ n ih =>
    obtain ⟨left, hleft⟩ := exists_slot ha
    obtain ⟨right, hright⟩ := exists_slot hb
    obtain ⟨hkind, hname, hplaces⟩ := hs.of_place_eq hleft hright hplace
    apply hs.same_of_refs hleft hright (hs.shape_of_unpromoted hfirst hleft)
      (hs.shape_of_unpromoted hsecond hright) hkind hname
    refine forall₂_imp_of_mem hplaces fun x hx y hy hxy => ?_
    have hlt := hs.linked.refs_lt hleft x hx
    exact ih x.index (by omega) (hs.linked.contains_of_refs hleft hx)
      (hs.linked.contains_of_refs hright hy) (hfirst.ref hs.linked hleft hx)
      (hsecond.ref hs.linked hright hy) hxy rfl

end Outlines

section Members

/-- Two types have different outlines, unless a promoted tuple occurs in one of them. -/
def Apart (s : Store) (a b : Handle) : Prop :=
  s.IsUnpromoted a → s.IsUnpromoted b → s.outline a ≠ s.outline b

def Distinct (s : Store) : Prop :=
  ∀ ⦃h kind members traits⦄, s.slot? h = some ⟨SetKind.node kind members, traits⟩ →
    members.Pairwise s.Apart

theorem distinct_initial {hash : WordHash} : (initial hash).Distinct :=
  fun _ _ _ _ hslot => absurd hslot not_set_initial

theorem WellFormed.apart_of_unequal (hs : s.WellFormed) (ha : s.contains a) (hb : s.contains b)
    (hne : s.equal a b = .ok false) : s.Apart a b := by
  intro hfirst hsecond houtline
  have hsame := hs.same_of_place ha hb hfirst hsecond (place_eq_eq_iff.mpr houtline)
  rw [Same, hne] at hsame
  cases hsame

private theorem Persists.apart (hst : s.Persists t) (hs : s.WellFormed) (ha : s.contains a)
    (hb : s.contains b) (hab : s.Apart a b) : t.Apart a b := by
  intro hfirst hsecond
  rw [hst.outline_eq hs ha, hst.outline_eq hs hb]
  exact hab (hst.unpromoted hs.linked ha hfirst) (hst.unpromoted hs.linked hb hsecond)

private theorem Persists.pairwise_apart {members : List Handle} (hst : s.Persists t)
    (hs : s.WellFormed)
    (hmembers : ∀ x ∈ members, s.contains x) (hapart : members.Pairwise s.Apart) :
    members.Pairwise t.Apart :=
  hapart.imp_of_mem fun {x y} hx hy hxy => hst.apart hs (hmembers x hx) (hmembers y hy) hxy

/-- Of equal types one is kept, so the members of a new set are apart. -/
theorem Distinct.allocate {node : Node} {traits : Traits} {digest : UInt64} (hd : s.Distinct)
    (hs : s.WellFormed) (ha : s.Admits node traits digest) :
    (s.allocate node traits digest).Distinct := by
  have hst := (Formed.made ha).grows.persists
  intro h kind members traits' hslot
  rcases slot_of_slot_allocate hslot with hold | ⟨-, hnew⟩
  · exact hst.pairwise_apart hs (hs.linked.contains_of_members hold) (hd hold)
  · cases hnew
    obtain ⟨types, parts, -, htypes, hparts, hrun⟩ := (ha.gathered kind members rfl).arranged
    have hflat := contains_of_setPart hs.linked htypes hparts
    have harranged := Arranged.of_arrange hs.linked hs.named hs.acyclic hflat hrun
    have hmembers : ∀ x ∈ members, s.contains x := fun x hx => hflat x (harranged.subset hx)
    apply hst.pairwise_apart hs hmembers
    refine harranged.unequal.imp_of_mem fun {x y} hx hy hxy => ?_
    exact hs.apart_of_unequal (hmembers x hx) (hmembers y hy) hxy

theorem Grows.distinct (hst : s.Grows t) (hs : s.WellFormed) (hd : s.Distinct) : t.Distinct := by
  have hadded := hst.added
  clear hst
  have hboth : t.WellFormed ∧ t.Distinct := by
    induction hadded with
    | refl => exact ⟨hs, hd⟩
    | tail _ hadds ih =>
      obtain ⟨node, traits, digest, ha, rfl⟩ := hadds
      exact ⟨ih.1.allocate ha, ih.2.allocate ih.1 ha⟩
  exact hboth.2

theorem Change.distinct (hst : Change s t) (hs : s.WellFormed) (hd : s.Distinct) :
    t.Distinct := by
  obtain ⟨u, hgrows, hpersists, hslots⟩ := hst.split hs
  have hu := hgrows.wellFormed hs
  intro h kind members traits hslot
  rw [slot?_of_slots hslots] at hslot
  exact hpersists.pairwise_apart hu (hu.linked.contains_of_members hslot)
    (hgrows.distinct hs hd hslot)

theorem Evolves.distinct (hst : Evolves s t) (hs : s.WellFormed) (hd : s.Distinct) :
    t.Distinct := by
  induction hst with
  | refl => exact hd
  | tail hsm hchange ih => exact hchange.distinct (Evolves.wellFormed hsm hs) ih

/-- Types that are sorted by their places ascend by their outlines if no two have the same. -/
theorem ascending_of_sorted {types : List Handle}
    (hsorted : types.Pairwise fun x y => (s.place x y).isLE)
    (hne : types.Pairwise fun x y => s.outline x ≠ s.outline y) :
    Outline.Ascending (types.map s.outline) := by
  apply Outline.Ascending.of_sorted
  · apply List.pairwise_map.mpr
    apply hsorted.imp
    intro x y hxy
    rw [← place_eq_order]
    exact hxy
  · exact List.pairwise_map.mpr hne

/-- The members of a set without promoted tuples ascend by their outlines. -/
theorem Distinct.ascending {h : Handle} {members : List Handle} {traits : Traits}
    (hd : s.Distinct) (hs : s.WellFormed) (kind : SetKind) (hh : s.IsUnpromoted h)
    (hslot : s.slot? h = some ⟨kind.node members, traits⟩) :
    Outline.Ascending (members.map s.outline) := by
  have hmembers : ∀ x ∈ members, s.IsUnpromoted x := by
    intro x hx
    apply hh.ref hs.linked hslot
    rw [SetKind.refs_node]
    exact hx
  apply ascending_of_sorted (hs.normal.sorted hslot)
  exact (hd hslot).imp_of_mem fun {x y} hx hy hxy => hxy (hmembers x hx) (hmembers y hy)

end Members

section Agreement

variable (hs : s.WellFormed)
include hs

/-- Lists of the same types show the same of what equal types have in common. -/
theorem WellFormed.mem_map_iff_of_same {α : Type} {view : Handle → α} {xs ys : List Handle}
    (hxs : ∀ x ∈ xs, s.contains x) (hys : ∀ y ∈ ys, s.contains y) (hsame : s.SameTypes xs ys)
    (hview : ∀ x ∈ xs, ∀ y ∈ ys, s.Same x y → view x = view y) (o : α) :
    o ∈ xs.map view ↔ o ∈ ys.map view := by
  simp only [List.mem_map]
  constructor
  · rintro ⟨x, hx, rfl⟩
    obtain ⟨y, hy, hxy⟩ := hsame.1 x hx
    exact ⟨y, hy, (hview x hx y hy hxy).symm⟩
  · rintro ⟨y, hy, rfl⟩
    obtain ⟨x, hx, hyx⟩ := hsame.2 y hy
    exact ⟨x, hx, hview x hx y hy (hs.same_symm (hys y hy) (hxs x hx) hyx)⟩

/-- Equal types that are no promoted tuples agree in kind and label. What they refer to agrees in
what equal types have in common: position by position or, in sets, in whatever order. -/
theorem WellFormed.agree_of_same {α : Type} {view : Handle → α} {left right : Node}
    {traits traits' : Traits} (hleft : s.slot? a = some ⟨left, traits⟩)
    (hright : s.slot? b = some ⟨right, traits'⟩) (hfirst : s.shape a = .ok left.fixedShape)
    (hsecond : s.shape b = .ok right.fixedShape) (hsame : s.Same a b)
    (hparts : ∀ x ∈ left.refs, ∀ y ∈ right.refs, s.Same x y → view x = view y) :
    left.kind = right.kind ∧ s.label left = s.label right ∧
      (left.refs.map view = right.refs.map view ∨
        ∃ kind members others, left = SetKind.node kind members ∧
          right = SetKind.node kind others ∧
          ∀ o, o ∈ members.map view ↔ o ∈ others.map view) := by
  have hlists : ∀ {xs ys}, xs ⊆ left.refs → ys ⊆ right.refs → List.Forall₂ s.Same xs ys →
      xs.map view = ys.map view := by
    intro xs ys hxs hys hall
    rw [← List.forall₂_eq_eq_eq, List.forall₂_map_left_iff, List.forall₂_map_right_iff]
    exact forall₂_imp_of_mem hall fun x hx y hy => hparts x (hxs hx) y (hys hy)
  have hmem : s.SameTypes left.refs right.refs →
      ∀ o, o ∈ left.refs.map view ↔ o ∈ right.refs.map view := fun hsets =>
    hs.mem_map_iff_of_same (fun _ hx => hs.linked.contains_of_refs hleft hx)
      (fun _ hy => hs.linked.contains_of_refs hright hy) hsets hparts
  rcases (hs.same_iff hfirst hsecond).mp hsame with rfl | hshapes
  · rw [hleft] at hright
    cases hright
    exact ⟨rfl, rfl, .inl rfl⟩
  cases left <;> cases right
  case generic.generic base params base' params' =>
    obtain ⟨rfl, hparams⟩ := hshapes
    have heq := hlists (List.subset_cons_self _ _) (List.subset_cons_self _ _) hparams
    exact ⟨rfl, rfl, .inl (by simp [Node.refs, heq])⟩
  case tuple.tuple =>
    exact ⟨rfl, rfl, .inl (hlists (List.Subset.refl _) (List.Subset.refl _) hshapes)⟩
  case union.union members others =>
    exact ⟨rfl, rfl, .inr ⟨.union, members, others, rfl, rfl, hmem hshapes⟩⟩
  case intersection.intersection members others =>
    exact ⟨rfl, rfl, .inr ⟨.intersection, members, others, rfl, rfl, hmem hshapes⟩⟩
  case annotated.annotated name x name' y =>
    obtain ⟨rfl, hinner⟩ := hshapes
    have heq := hparts x List.mem_cons_self y List.mem_cons_self hinner
    exact ⟨rfl, rfl, .inl (by simp [Node.refs, heq])⟩
  all_goals exact hshapes.elim

variable (hd : s.Distinct)
include hd

/-- Equal types in which no promoted tuple occurs have one outline. -/
theorem WellFormed.outline_eq_of_same (ha : s.contains a) (hb : s.contains b)
    (hfirst : s.IsUnpromoted a) (hsecond : s.IsUnpromoted b) (hsame : s.Same a b) :
    s.outline a = s.outline b := by
  induction hn : a.index using Nat.strong_induction_on generalizing a b with
  | _ n ih =>
    obtain ⟨left, hleft⟩ := exists_slot ha
    obtain ⟨right, hright⟩ := exists_slot hb
    obtain ⟨hkind, hlabel, hrefs⟩ := hs.agree_of_same hleft hright
      (hs.shape_of_unpromoted hfirst hleft) (hs.shape_of_unpromoted hsecond hright) hsame
      fun x hx y hy hxy => by
        have hlt := hs.linked.refs_lt hleft x hx
        exact ih x.index (by omega) (hs.linked.contains_of_refs hleft hx)
          (hs.linked.contains_of_refs hright hy) (hfirst.ref hs.linked hleft hx)
          (hsecond.ref hs.linked hright hy) hxy rfl
    rw [outline_step hs.linked hs.named hleft, outline_step hs.linked hs.named hright,
      Outline.mk.injEq]
    refine ⟨hkind, hlabel, ?_⟩
    rcases hrefs with hrefs | ⟨kind, members, others, hnode, hnode', hmem⟩
    · exact hrefs
    · obtain ⟨left, traits⟩ := left
      obtain ⟨right, traits'⟩ := right
      subst hnode hnode'
      rw [SetKind.refs_node, SetKind.refs_node]
      exact (hd.ascending hs kind hfirst hleft).eq_of_mem_iff (hd.ascending hs kind hsecond hright)
        hmem

/-- Without promoted tuples, types are equal exactly if they have one outline. -/
theorem WellFormed.same_iff_outline (ha : s.contains a) (hb : s.contains b)
    (hfirst : s.IsUnpromoted a) (hsecond : s.IsUnpromoted b) :
    s.Same a b ↔ s.outline a = s.outline b :=
  ⟨hs.outline_eq_of_same hd ha hb hfirst hsecond, fun houtline =>
    hs.same_of_place ha hb hfirst hsecond (place_eq_eq_iff.mpr houtline)⟩

/-- Two members of a set are unequal, unless a promoted tuple occurs in one of them. -/
private theorem WellFormed.equal_members {h : Handle} {kind : SetKind} {members : List Handle}
    {traits : Traits} (hslot : s.slot? h = some ⟨kind.node members, traits⟩) (ha : a ∈ members)
    (hb : b ∈ members) (hne : a ≠ b) (hfirst : s.IsUnpromoted a) (hsecond : s.IsUnpromoted b) :
    s.equal a b = .ok false := by
  have hmembers := hs.linked.contains_of_members hslot
  have : Std.Symm s.Apart := ⟨fun x y hxy hy hx houtline => hxy hx hy houtline.symm⟩
  have hapart : s.Apart a b := (hd hslot).forall ha hb hne
  obtain ⟨answer, hanswer⟩ :=
    equal_answered hs.linked hs.acyclic (hmembers a ha) (hmembers b hb)
  cases answer with
  | false => exact hanswer
  | true =>
    have houtline := hs.outline_eq_of_same hd (hmembers a ha) (hmembers b hb) hfirst hsecond hanswer
    exact absurd houtline (hapart hfirst hsecond)

end Agreement

end Store

/-- In a reachable store the members of every set of types are apart. -/
theorem Reachable.distinct {s : Store} (hs : Reachable s) : s.Distinct := by
  obtain ⟨_, hevolves⟩ := hs.evolves
  exact hevolves.distinct Store.wellFormed_initial Store.distinct_initial

/-- In a reachable store the order agrees with equality: two types in which no promoted tuple occurs
compare equal exactly if they are equal. -/
theorem Reachable.order_eq_iff_equal {s : Store} {a b : Handle} (hs : Reachable s)
    (ha : s.contains a) (hb : s.contains b) (hfirst : s.IsUnpromoted a)
    (hsecond : s.IsUnpromoted b) :
    ∃ found answer, s.order a b = .ok found ∧ s.equal a b = .ok answer ∧
      (found = .eq ↔ answer = true) := by
  have hwf := hs.wellFormed
  obtain ⟨answer, hanswer⟩ := Store.equal_answered hwf.linked hwf.acyclic ha hb
  refine ⟨s.place a b, answer, Store.order_eq hwf.linked hwf.named ha hb, hanswer, ?_⟩
  have hsame := hwf.same_iff_outline hs.distinct ha hb hfirst hsecond
  rw [Store.Same, hanswer, Except.ok.injEq] at hsame
  rw [Store.place_eq_eq_iff, hsame]

/-- The pair store with one more tuple, which is then promoted. -/
def mixedStore : Store :=
  (Operation.promote ⟨12⟩).apply ((Operation.tuple [⟨11⟩]).apply pairStore)

theorem reachable_mixedStore : Reachable mixedStore :=
  .step (.promote ⟨12⟩) (.step (.tuple [⟨11⟩]) reachable_pairStore trivial) trivial

/-- The two tuples of the pair store are fixed, and so is everything in them. -/
theorem mixedStore_unpromoted {h : Handle} (hh : h ∈ [⟨5⟩, ⟨6⟩, ⟨7⟩, ⟨8⟩]) :
    mixedStore.IsUnpromoted h :=
  .of_closed (by decide +kernel) hh

/-- Two tuples that are different handles but equal, next to one that is promoted. -/
theorem mixedStore_order_eq_iff_equal :
    mixedStore.isPromoted ⟨12⟩ = .ok true ∧ mixedStore.contains ⟨7⟩ ∧ mixedStore.contains ⟨8⟩ ∧
      mixedStore.IsUnpromoted ⟨7⟩ ∧ mixedStore.IsUnpromoted ⟨8⟩ ∧
      mixedStore.order ⟨7⟩ ⟨8⟩ = .ok .eq ∧ mixedStore.equal ⟨7⟩ ⟨8⟩ = .ok true := by
  have hpromoted : mixedStore.isPromoted ⟨12⟩ = .ok true := by decide +kernel
  have hfirst : mixedStore.contains ⟨7⟩ := by decide +kernel
  have hsecond : mixedStore.contains ⟨8⟩ := by decide +kernel
  have hfixed := mixedStore_unpromoted (h := ⟨7⟩) (by simp)
  have hfixed' := mixedStore_unpromoted (h := ⟨8⟩) (by simp)
  have horder : mixedStore.order ⟨7⟩ ⟨8⟩ = .ok .eq := by decide +kernel
  obtain ⟨found, answer, hfound, hanswer, hiff⟩ :=
    Reachable.order_eq_iff_equal reachable_mixedStore hfirst hsecond hfixed hfixed'
  rw [horder] at hfound
  cases hfound
  rw [hiff.mp rfl] at hanswer
  exact ⟨hpromoted, hfirst, hsecond, hfixed, hfixed', horder, hanswer⟩

/-- In a reachable store digests are consistent: types that compare equal have one digest, promoted
tuples included, and so have equal types in which no promoted tuple occurs. -/
theorem Reachable.digest_consistent {s : Store} {a b : Handle} (hs : Reachable s)
    (ha : s.contains a) (hb : s.contains b) :
    ∃ word word', s.digest a = .ok word ∧ s.digest b = .ok word' ∧
      (s.order a b = .ok .eq → word = word') ∧
      (s.IsUnpromoted a → s.IsUnpromoted b → s.equal a b = .ok true → word = word') := by
  have hwf := hs.wellFormed
  obtain ⟨word, hword⟩ := Store.digest_answered hwf.linked ha
  obtain ⟨word', hword'⟩ := Store.digest_answered hwf.linked hb
  have hplace : s.place a b = .eq → word = word' := by
    intro hplace
    have hdigest := hwf.digest_eq_of_place ha hb hplace
    rw [hword, hword'] at hdigest
    exact Except.ok.inj hdigest
  refine ⟨word, word', hword, hword', ?_, ?_⟩
  · intro horder
    rw [Store.order_eq hwf.linked hwf.named ha hb] at horder
    exact hplace (Except.ok.inj horder)
  · intro hfirst hsecond hequal
    have hsame := hwf.same_iff_outline hs.distinct ha hb hfirst hsecond
    exact hplace (Store.place_eq_eq_iff.mpr (hsame.mp hequal))

/-- Two tuples at one place have one digest, both where they are promoted and, as equal types, where
they are fixed. -/
theorem mixedStore_digest_consistent :
    let s := (Operation.promote ⟨7⟩).apply pairStore
    (s.isPromoted ⟨7⟩ = .ok true ∧ s.isPromoted ⟨8⟩ = .ok true ∧ s.order ⟨7⟩ ⟨8⟩ = .ok .eq ∧
        s.digest ⟨7⟩ = s.digest ⟨8⟩) ∧
      mixedStore.IsUnpromoted ⟨7⟩ ∧ mixedStore.IsUnpromoted ⟨8⟩ ∧
        mixedStore.equal ⟨7⟩ ⟨8⟩ = .ok true ∧ mixedStore.digest ⟨7⟩ = mixedStore.digest ⟨8⟩ := by
  intro s
  have hs : Reachable s := .step (.promote ⟨7⟩) reachable_pairStore trivial
  have hpromoted : s.isPromoted ⟨7⟩ = .ok true := by decide +kernel
  have hpromoted' : s.isPromoted ⟨8⟩ = .ok true := by decide +kernel
  have horder : s.order ⟨7⟩ ⟨8⟩ = .ok .eq := by decide +kernel
  have hfixed := mixedStore_unpromoted (h := ⟨7⟩) (by simp)
  have hfixed' := mixedStore_unpromoted (h := ⟨8⟩) (by simp)
  have hequal : mixedStore.equal ⟨7⟩ ⟨8⟩ = .ok true := by decide +kernel
  obtain ⟨_, _, hword, hword', hplaced, -⟩ :=
    Reachable.digest_consistent (a := ⟨7⟩) (b := ⟨8⟩) hs (by decide +kernel) (by decide +kernel)
  obtain ⟨_, _, hmixed, hmixed', -, hsame⟩ := Reachable.digest_consistent (a := ⟨7⟩) (b := ⟨8⟩)
    reachable_mixedStore (by decide +kernel) (by decide +kernel)
  rw [hword, hword', hmixed, hmixed', hplaced horder, hsame hfixed hfixed' hequal]
  exact ⟨⟨hpromoted, hpromoted', horder, rfl⟩, hfixed, hfixed', hequal, rfl⟩

open Store in
/-- The members of a union or an intersection of a reachable store are at least two, all different
and in order. None of them is nil, a set of the same kind or, in a union, the top, and two of them
in which no promoted tuple occurs are not equal. -/
theorem Reachable.members_normal {s : Store} {h : Handle} {kind : SetKind} {members : List Handle}
    (hs : Reachable s) (hnode : s.node h = .ok (kind.node members)) :
    2 ≤ members.length ∧ members.Nodup ∧
    (∀ x ∈ members, ∃ node, s.node x = .ok node ∧ node ≠ .nil ∧
      (∀ others, node ≠ kind.node others) ∧ (kind = .union → node ≠ .top)) ∧
    (members.Pairwise fun a b => ∃ found, s.order a b = .ok found ∧ found.isLE) ∧
    ∀ a ∈ members, ∀ b ∈ members, a ≠ b → s.IsUnpromoted a → s.IsUnpromoted b →
      s.equal a b = .ok false := by
  have hwf := hs.wellFormed
  obtain ⟨traits, hslot⟩ := exists_slot_of_node hnode
  have hmembers := hwf.linked.contains_of_members hslot
  obtain ⟨htwo, hnodup, -⟩ := hwf.gathered.entry hslot
  refine ⟨htwo, hnodup, fun x hx => ?_, ?_, fun a ha b hb hne hfirst hsecond => ?_⟩
  · obtain ⟨slot, hx, ⟨hnil, hset⟩, htop⟩ := hwf.normal.plain hslot x hx
    exact ⟨slot.node, node_of_slot hx, hnil, hset, htop⟩
  · apply (hwf.normal.sorted hslot).imp_of_mem
    intro a b ha hb hab
    exact ⟨s.place a b, order_eq hwf.linked hwf.named (hmembers a ha) (hmembers b hb), hab⟩
  · exact hwf.equal_members hs.distinct hslot ha hb hne hfirst hsecond

/-- A union of a class and three tuples, of which two are then promoted to the same array type. -/
def listedStore : Store :=
  .after [.nominal "Integer", .nominal "String", .tuple [⟨5⟩], .tuple [⟨5⟩, ⟨5⟩], .tuple [⟨6⟩],
    .union [⟨9⟩, ⟨8⟩, ⟨7⟩, ⟨6⟩], .promote ⟨7⟩, .promote ⟨8⟩]

/-- The class and the last of the tuples are not promoted, and neither is anything in them. -/
private theorem listedStore_unpromoted {h : Handle} (hh : h ∈ [⟨6⟩, ⟨9⟩]) :
    listedStore.IsUnpromoted h :=
  .of_closed (by decide +kernel) hh

/-- In `listedStore` the two promoted members have become equal. The members are still all different
and in order, and the class and the tuple that is fixed are not equal. -/
theorem listedStore_members_normal :
    Reachable listedStore ∧
      listedStore.node ⟨10⟩ = .ok (SetKind.union.node [⟨6⟩, ⟨7⟩, ⟨8⟩, ⟨9⟩]) ∧
      listedStore.isPromoted ⟨7⟩ = .ok true ∧ listedStore.isPromoted ⟨8⟩ = .ok true ∧
      listedStore.equal ⟨7⟩ ⟨8⟩ = .ok true ∧ [⟨6⟩, ⟨7⟩, ⟨8⟩, (⟨9⟩ : Handle)].Nodup ∧
      (∃ found, listedStore.order ⟨8⟩ ⟨9⟩ = .ok found ∧ found.isLE) ∧
      listedStore.IsUnpromoted ⟨6⟩ ∧ listedStore.IsUnpromoted ⟨9⟩ ∧
      listedStore.equal ⟨6⟩ ⟨9⟩ = .ok false := by
  have hs : Reachable listedStore := .after (by decide)
  have hnode : listedStore.node ⟨10⟩ = .ok (SetKind.union.node [⟨6⟩, ⟨7⟩, ⟨8⟩, ⟨9⟩]) := by
    decide +kernel
  have hclass := listedStore_unpromoted (h := ⟨6⟩) (by simp)
  have htuple := listedStore_unpromoted (h := ⟨9⟩) (by simp)
  obtain ⟨-, hnodup, -, hsorted, hunequal⟩ :=
    Reachable.members_normal hs hnode
  have hclass_tuple := hunequal ⟨6⟩ (by simp) ⟨9⟩ (by simp) (by decide) hclass htuple
  simp only [List.pairwise_cons] at hsorted
  refine ⟨hs, hnode, ?_, ?_, ?_, hnodup, ?_, hclass, htuple, hclass_tuple⟩
  · decide +kernel
  · decide +kernel
  · decide +kernel
  · exact hsorted.2.2.1 ⟨9⟩ (by simp)

end GradualTypes
