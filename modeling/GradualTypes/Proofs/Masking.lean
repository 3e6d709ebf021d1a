import GradualTypes.Proofs.Joins
import GradualTypes.Proofs.Matching

/-!
Masked descriptors. Some parts of a descriptor are replaced by the wildcard, and what it describes
is matched with the result as a query. It fits as long as no member of a union or an intersection
changes its place: the members are arranged by what they are, so a wildcard among them comes first,
and the match goes by position. Members that keep their places may be masked too.
-/

namespace GradualTypes

namespace Outline

variable {kind : SetKind} {os : List Outline} {pairs : List (Outline × Outline)}

/-- Nothing absorbs a set of outlines that may be its members. -/
private theorem make_of_members (hos : ∀ o ∈ os, IsMember kind o) :
    make kind os = ofMembers kind (gather kind os) :=
  if_neg fun ⟨hunion, htop⟩ => (hos top htop).ne_top hunion rfl

/-- What may be a member is told by its kind, but for nil and the top. -/
private theorem IsMember.of_kind {k : Kind} {label : String} {parts : List Outline}
    (hkind : k ≠ kind.kind)
    (hnil : k ≠ .nil) (htop : k ≠ .top) : IsMember kind ⟨k, label, parts⟩ := by
  refine ⟨fun h => hnil ?_, hkind, fun _ h => htop ?_⟩
  · exact congrArg Outline.kind h
  · exact congrArg Outline.kind h

def InOrder (x y : Outline × Outline) : Prop :=
  x.1 ≠ y.1 ∧ x.2.order y.2 = x.1.order y.1

instance : DecidableRel InOrder := fun x y =>
  inferInstanceAs (Decidable (x.1 ≠ y.1 ∧ x.2.order y.2 = x.1.order y.1))

theorem InOrder.symm {x y : Outline × Outline} (hxy : InOrder x y) : InOrder y x := by
  refine ⟨hxy.1.symm, ?_⟩
  have hswap : y.2.order x.2 = (x.2.order y.2).swap := Std.OrientedCmp.eq_swap
  rw [hswap, hxy.2]
  exact Std.OrientedCmp.eq_swap.symm

def arrange (pairs : List (Outline × Outline)) : List (Outline × Outline) :=
  pairs.insertionSort fun x y => (x.1.order y.1).isLE

private theorem ascending_arrange (horder : pairs.Pairwise InOrder) :
    Ascending ((arrange pairs).map Prod.fst) ∧ Ascending ((arrange pairs).map Prod.snd) := by
  have hperm : (arrange pairs).Perm pairs := List.perm_insertionSort _ _
  have horder' : (arrange pairs).Pairwise InOrder :=
    (hperm.pairwise_iff InOrder.symm).mpr horder
  have hlaws := transCmp_comap (Prod.fst : Outline × Outline → Outline) order
  have hsorted : (arrange pairs).Pairwise fun x y => (x.1.order y.1).isLE :=
    pairwise_insertionSort_isLE (fun x y : Outline × Outline => x.1.order y.1) pairs
  have hlt : ∀ {x y : Outline × Outline}, InOrder x y ∧ (x.1.order y.1).isLE →
      x.1.order y.1 = .lt := by
    rintro x y ⟨⟨hne, -⟩, hle⟩
    cases hxy : x.1.order y.1 with
    | lt => rfl
    | eq => exact absurd (eq_of_order hxy) hne
    | gt => simp [hxy] at hle
  have hboth := horder'.and hsorted
  rw [Ascending, Ascending, List.pairwise_map, List.pairwise_map]
  exact ⟨hboth.imp hlt, hboth.imp fun hxy => hxy.1.2.trans (hlt hxy)⟩

private theorem gather_arrange (project : Outline × Outline → Outline)
    (hascending : Ascending ((arrange pairs).map project))
    (hmembers : ∀ o ∈ pairs.map project, IsMember kind o) :
    gather kind (pairs.map project) = (arrange pairs).map project := by
  have hperm : ((arrange pairs).map project).Perm (pairs.map project) :=
    (List.perm_insertionSort _ _).map project
  apply (ascending_gather kind _).eq_of_mem_iff hascending
  intro o
  rw [mem_gather, flat_of_members hmembers, hperm.mem_iff]

section Members

variable (horder : pairs.Pairwise InOrder)
  (hmembers : ∀ pair ∈ pairs, IsMember kind pair.1 ∧ IsMember kind pair.2)
include horder hmembers

/-- Two sets whose members are in one order have them at the same places. -/
theorem make_arrange : ∃ sorted : List (Outline × Outline), sorted.Perm pairs ∧
    make kind (pairs.map Prod.fst) = ofMembers kind (sorted.map Prod.fst) ∧
    make kind (pairs.map Prod.snd) = ofMembers kind (sorted.map Prod.snd) := by
  have hfirst : ∀ o ∈ pairs.map Prod.fst, IsMember kind o :=
    List.forall_mem_map.mpr fun pair hpair => (hmembers pair hpair).1
  have hsecond : ∀ o ∈ pairs.map Prod.snd, IsMember kind o :=
    List.forall_mem_map.mpr fun pair hpair => (hmembers pair hpair).2
  obtain ⟨hascending, hascending'⟩ := ascending_arrange horder
  refine ⟨arrange pairs, List.perm_insertionSort _ _, ?_, ?_⟩
  · rw [make_of_members hfirst, gather_arrange _ hascending hfirst]
  · rw [make_of_members hsecond, gather_arrange _ hascending' hsecond]

/-- One of them fits the other if its members fit those of the other. -/
theorem fits_make (hfits : ∀ pair ∈ pairs, pair.1.fits pair.2) :
    (make kind (pairs.map Prod.fst)).fits (make kind (pairs.map Prod.snd)) := by
  obtain ⟨sorted, hperm, hfirst, hsecond⟩ := make_arrange horder hmembers
  have hfits' : ∀ pair ∈ sorted, pair.1.fits pair.2 := fun pair hpair =>
    hfits pair (hperm.mem_iff.mp hpair)
  rw [hfirst, hsecond]
  rcases sorted with _ | ⟨x, _ | ⟨y, rest⟩⟩
  · exact IsNormal.fits_self (.leaf rfl)
  · exact hfits' x List.mem_cons_self
  · rw [ofMembers_of_two_le (by simp), ofMembers_of_two_le (by simp)]
    apply fits_of_parts (by cases kind <;> decide)
    rw [List.forall₂_map_left_iff, List.forall₂_map_right_iff, List.forall₂_same]
    exact hfits'

/-- One of them may be a member of a further set if the other may and this holds of their
members. -/
theorem member_make {other : SetKind}
    (hpairs : ∀ pair ∈ pairs, IsMember other pair.1 → IsMember other pair.2)
    (hmember : IsMember other (make kind (pairs.map Prod.fst))) :
    IsMember other (make kind (pairs.map Prod.snd)) := by
  obtain ⟨sorted, hperm, hfirst, hsecond⟩ := make_arrange horder hmembers
  rw [hfirst] at hmember
  rw [hsecond]
  rcases sorted with _ | ⟨x, _ | ⟨y, rest⟩⟩
  · exact hmember
  · exact hpairs x (hperm.mem_iff.mp List.mem_cons_self) hmember
  · rw [ofMembers_of_two_le (by simp)] at hmember ⊢
    exact .of_kind hmember.ne_kind (by cases kind <;> decide) (by cases kind <;> decide)

end Members

end Outline

namespace Descriptor

def set : SetKind → List Descriptor → Descriptor
  | .union, types => union types
  | .intersection, types => intersection types

private theorem outline_set (kind : SetKind) (types : List Descriptor) :
    (set kind types).outline = .make kind (outlines types) := by
  cases kind <;> rfl

private theorem outlines_eq (ds : List Descriptor) : outlines ds = ds.map outline := by
  induction ds with
  | nil => rfl
  | cons d ds ih => rw [outlines, ih, List.map_cons]

/-- The second descriptor is the first with some of its parts replaced by the wildcard. A set of
types may be entered on a condition. -/
inductive Masks (enters : SetKind → List (Descriptor × Descriptor) → Prop) :
    Descriptor → Descriptor → Prop where
  | kept (d : Descriptor) : Masks enters d d
  | hidden (d : Descriptor) : Masks enters d wildcard
  | generic {base : String} {pairs : List (Descriptor × Descriptor)}
      (hpairs : ∀ pair ∈ pairs, Masks enters pair.1 pair.2) :
      Masks enters (generic base (pairs.map Prod.fst)) (generic base (pairs.map Prod.snd))
  | array {element query : Descriptor} (helement : Masks enters element query) :
      Masks enters (array element) (array query)
  | tuple {pairs : List (Descriptor × Descriptor)}
      (hpairs : ∀ pair ∈ pairs, Masks enters pair.1 pair.2) :
      Masks enters (tuple (pairs.map Prod.fst)) (tuple (pairs.map Prod.snd))
  | set {kind : SetKind} {pairs : List (Descriptor × Descriptor)} (henters : enters kind pairs)
      (hpairs : ∀ pair ∈ pairs, Masks enters pair.1 pair.2) :
      Masks enters (set kind (pairs.map Prod.fst)) (set kind (pairs.map Prod.snd))

/-- The members of a set keep their places when they are masked: each of them is one as it stands,
and any two of them are in the same order as before. -/
def KeepPlaces (kind : SetKind) (pairs : List (Descriptor × Descriptor)) : Prop :=
  (∀ pair ∈ pairs, pair.1.outline.IsMember kind) ∧
    (pairs.map (Prod.map outline outline)).Pairwise Outline.InOrder

instance (kind : SetKind) (pairs : List (Descriptor × Descriptor)) :
    Decidable (KeepPlaces kind pairs) :=
  inferInstanceAs (Decidable (_ ∧ _))

variable {d q : Descriptor}

private theorem forall₂_fits_outlines {pairs : List (Descriptor × Descriptor)}
    (hpairs : ∀ pair ∈ pairs, pair.1.outline.fits pair.2.outline) :
    List.Forall₂ (fun a b : Outline => a.fits b) (outlines (pairs.map Prod.fst))
      (outlines (pairs.map Prod.snd)) := by
  rw [outlines_eq, outlines_eq, List.map_map, List.map_map, List.forall₂_map_left_iff,
    List.forall₂_map_right_iff, List.forall₂_same]
  exact hpairs

/-- A descriptor fits what is left of it when it is masked in place, and that may be a member of a
set wherever the descriptor may. -/
theorem Masks.fits_and_member (hmasks : Masks KeepPlaces d q) :
    d.outline.fits q.outline ∧ ∀ kind, d.outline.IsMember kind → q.outline.IsMember kind := by
  induction hmasks with
  | kept d => exact ⟨d.normal_outline.fits_self, fun _ hmember => hmember⟩
  | hidden d =>
    refine ⟨Outline.fits_wildcard _, fun kind _ => .of_kind ?_ (by decide) (by decide)⟩
    cases kind <;> decide
  | generic _ ih =>
    refine ⟨?_, fun kind _ => .of_kind ?_ (by decide) (by decide)⟩
    · exact Outline.fits_of_parts (by decide) (.cons (Outline.IsNormal.fits_self (.leaf rfl))
        (forall₂_fits_outlines fun pair hpair => (ih pair hpair).1))
    · cases kind <;> decide
  | array _ ih =>
    refine ⟨?_, fun kind _ => .of_kind ?_ (by decide) (by decide)⟩
    · exact Outline.fits_of_parts (by decide) (.cons (Outline.IsNormal.fits_self (.leaf rfl))
        (.cons ih.1 .nil))
    · cases kind <;> decide
  | tuple _ ih =>
    refine ⟨?_, fun kind _ => .of_kind ?_ (by decide) (by decide)⟩
    · exact Outline.fits_of_parts (by decide)
        (forall₂_fits_outlines fun pair hpair => (ih pair hpair).1)
    · cases kind <;> decide
  | @set kind pairs henters _ ih =>
    have hfirst : outlines (pairs.map Prod.fst) =
        (pairs.map (Prod.map outline outline)).map Prod.fst := by
      rw [outlines_eq, List.map_map, List.map_map]
      rfl
    have hsecond : outlines (pairs.map Prod.snd) =
        (pairs.map (Prod.map outline outline)).map Prod.snd := by
      rw [outlines_eq, List.map_map, List.map_map]
      rfl
    have hmembers : ∀ pair ∈ pairs.map (Prod.map outline outline),
        pair.1.IsMember kind ∧ pair.2.IsMember kind := by
      rw [List.forall_mem_map]
      intro pair hpair
      have hmember := henters.1 pair hpair
      exact ⟨hmember, (ih pair hpair).2 kind hmember⟩
    rw [outline_set, outline_set, hfirst, hsecond]
    refine ⟨Outline.fits_make henters.2 hmembers ?_, fun other => ?_⟩
    · exact List.forall_mem_map.mpr fun pair hpair => (ih pair hpair).1
    · apply Outline.member_make henters.2 hmembers
      exact List.forall_mem_map.mpr fun pair hpair => (ih pair hpair).2 other

end Descriptor

namespace Store

variable {s t : Store} {h k : Handle} {o q : Outline}

/-- No tuple is promoted exactly if no type has the shape of a promoted tuple. -/
theorem WellFormed.allFixed_iff_shape (hs : s.WellFormed) :
    s.AllFixed ↔ ∀ h array, s.shape h ≠ .ok (.promoted array) := by
  constructor
  · intro hfixed h array hshape
    have hpromoted := hs.isPromoted_iff.mpr ⟨array, hshape⟩
    rw [hfixed h (Linked.contains_of_shape hshape)] at hpromoted
    cases hpromoted
  · intro hnone h hh
    obtain ⟨shape, hshape⟩ := hs.linked.exists_shape hh
    have hself : s.canonical h = .ok h := canonical_of_shape hshape fun array harray =>
      hnone h array (harray ▸ hshape)
    rw [isPromoted, hself]
    simp [bind, Except.bind, pure, Except.pure]

/-- Forming types promotes no tuple. -/
theorem Forms.allFixed (hst : Forms s t) (hs : s.WellFormed) (hfixed : s.AllFixed) :
    t.AllFixed := by
  induction hst with
  | refl => exact hfixed
  | @tail u t hst hstep ih =>
    have hu : u.WellFormed := (Forms.steps hst).evolves.wellFormed hs
    rcases hstep with ⟨node, traits, digest, hadmits, rfl⟩ | ⟨text, name, names, hintern, rfl⟩
    · rw [(hu.allocate hadmits).allFixed_iff_shape]
      intro h array hshape
      exact hu.allFixed_iff_shape.mp ih h array (promoted_of_allocate hu.linked hadmits hshape)
    · rw [(hu.intern hintern).allFixed_iff_shape]
      exact hu.allFixed_iff_shape.mp ih

/-- As long as no tuple is promoted, a match is decided by what the types show. -/
theorem WellFormed.fits_of_shows (hs : s.WellFormed) (hd : s.Distinct) (hfixed : s.AllFixed)
    (hh : s.Shows h o) (hk : s.Shows k q) : s.fits h k = .ok (o.fits q) := by
  obtain ⟨hh, ho⟩ := hh
  obtain ⟨hk, hq⟩ := hk
  have hanswer : Decides (s.fits h k) (s.Suits h k) := .self (fits_answered hs hh hk)
  have houtline := hs.suits_iff_outline hd hh hk (hfixed.unpromoted hs hh)
    (hfixed.unpromoted hs hk)
  rw [ho hfixed, hq hfixed] at houtline
  rw [(hanswer.congr houtline).eq_decide, Bool.decide_eq_true]

end Store

open Store in
/-- In a reachable store in which no tuple is promoted, types are built and matched as their
descriptors tell, and a descriptor fits what is left of it when some of its parts are replaced by
the wildcard, if the members of the sets that are entered keep their places. Building fails only if
the table of names is full. -/
theorem Reachable.fits_masked {s : Store} (hs : Reachable s) (hfixed : s.AllFixed)
    (d q : Descriptor) :
    Yields (do return (← d.build, ← q.build)) s fun (h, k) t =>
      t.AllFixed ∧ t.fits h k = .ok (d.outline.fits q.outline) ∧
        (d.Masks Descriptor.KeepPlaces q → t.fits h k = .ok true) := by
  obtain ⟨_, hevolves⟩ := hs.evolves
  refine (d.build_yields hevolves).with_run.bind fun h u ⟨hrun, hsu, hh⟩ => ?_
  have hu := d.build_reachable hs hrun
  have hfixed' := ((d.build_leads hrun).forms hs).allFixed hs.wellFormed hfixed
  refine (q.build_yields (hevolves.trans hsu)).with_run.bind fun k t ⟨hrun', hut, hk⟩ => ?_
  have ht := q.build_reachable hu hrun'
  have hfixed'' := ((q.build_leads hrun').forms hu).allFixed hu.wellFormed hfixed'
  have hfits := ht.wellFormed.fits_of_shows ht.distinct hfixed'' (hut.shows hu.wellFormed hh) hk
  refine .inl (.pure ⟨hfixed'', hfits, fun hmasks => ?_⟩)
  rw [hfits, hmasks.fits_and_member.1]

namespace Descriptor

def openPair : Descriptor :=
  .tuple [.nominal "Integer", .union [.array (.nominal "String"), .var "T"]]

def maskedPair : Descriptor :=
  .tuple [.wildcard, .union [.array .wildcard, .var "T"]]

/-- The variable still comes before the array type. -/
private theorem masks_openPair : openPair.Masks KeepPlaces maskedPair := by
  have hunion := Masks.set (show KeepPlaces .union
    [(.array (.nominal "String"), .array .wildcard), (.var "T", .var "T")] by decide)
    (List.forall_mem_cons.mpr ⟨.array (.hidden _), List.forall_mem_singleton.mpr (.kept _)⟩)
  exact @Masks.tuple KeepPlaces [(.nominal "Integer", .wildcard), (_, _)]
    (List.forall_mem_cons.mpr ⟨.hidden _, List.forall_mem_singleton.mpr hunion⟩)

/-- In `pairStore` the pair fits the masked one. -/
theorem pairStore_fits_masked :
    let s := openPair.buildIn pairStore
    let t := maskedPair.buildIn s
    Reachable pairStore ∧ pairStore.AllFixed ∧ openPair.Masks KeepPlaces maskedPair ∧
      openPair.build pairStore = .ok ⟨15⟩ s ∧ maskedPair.build s = .ok ⟨18⟩ t ∧
      t.fits ⟨15⟩ ⟨18⟩ = .ok true := by
  intro s t
  have hfixed : pairStore.AllFixed := Store.allFixed_iff.mpr (by decide +kernel)
  have hopen : openPair.build pairStore = .ok ⟨15⟩ s := build_eq_of_run' (by decide +kernel)
  have hmasked : maskedPair.build s = .ok ⟨18⟩ t := build_eq_of_run' (by decide +kernel)
  have hrun : (do return (← openPair.build, ← maskedPair.build)) pairStore =
      .ok ((⟨15⟩ : Handle), (⟨18⟩ : Handle)) t :=
    bind_run_eq_ok_iff.mpr ⟨_, _, hopen, bind_run_eq_ok_iff.mpr ⟨_, _, hmasked, rfl⟩⟩
  obtain ⟨-, -, hfits⟩ := (Reachable.fits_masked reachable_pairStore hfixed openPair
    maskedPair).of_run hrun
  exact ⟨reachable_pairStore, hfixed, masks_openPair, hopen, hmasked, hfits masks_openPair⟩

/-- Two classes and a union of them, in which one is then replaced by the wildcard. The wildcard
comes first, so the other class is matched with the replaced one and the union does not fit. -/
theorem masked_union_misfits :
    let d : Descriptor := .union [.nominal "Integer", .nominal "String"]
    let q : Descriptor := .union [.nominal "Integer", .wildcard]
    let s := d.buildIn .initial
    let t := q.buildIn s
    d.Masks (fun _ _ => True) q ∧ d.build .initial = .ok ⟨7⟩ s ∧ q.build s = .ok ⟨8⟩ t ∧
      t.AllFixed ∧ t.fits ⟨7⟩ ⟨8⟩ = .ok false := by
  intro d q s t
  have hmasks : d.Masks (fun _ _ => True) q :=
    @Masks.set _ .union [(.nominal "Integer", .nominal "Integer"), (.nominal "String", .wildcard)]
      trivial (List.forall_mem_cons.mpr ⟨.kept _, List.forall_mem_singleton.mpr (.hidden _)⟩)
  have hfixed : t.AllFixed := Store.allFixed_iff.mpr (by decide +kernel)
  exact ⟨hmasks, build_eq_of_run' (by decide +kernel), build_eq_of_run' (by decide +kernel),
    hfixed, by decide +kernel⟩

end Descriptor

end GradualTypes
