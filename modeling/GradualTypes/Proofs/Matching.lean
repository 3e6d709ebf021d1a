import GradualTypes.Proofs.Annotations
import GradualTypes.Proofs.NormalOutlines

/-!
Matching told by outlines. Whether a type fits a query in which no promoted tuple occurs either, can
be told from their outlines: one annotation is taken off the query, a wildcard then fits everything,
annotations on the type are looked through, and otherwise kind and label have to be the same and the
parts have to fit one by one. Equal types have one outline, and an outline fits itself, so matching
extends equality. Without wildcards and annotations an outline fits nothing else, so there the two
agree.
-/

namespace GradualTypes

namespace Outline

variable {a b o inner : Outline} {as bs : List Outline}

def unannotated : Outline → Outline
  | ⟨.annotated, _, [inner]⟩ => inner
  | o => o

private theorem unannotated_of_ne (hkind : o.kind ≠ .annotated) : o.unannotated = o := by
  rw [unannotated]
  rintro label inner rfl
  exact hkind rfl

section Fits

mutual

def fits : Outline → Outline → Bool
  | ⟨kind, label, parts⟩, query =>
    query.unannotated.kind = .wildcard ||
      if kind = .annotated then fitsAll parts [query.unannotated]
      else query.unannotated.kind = kind && query.unannotated.label = label &&
        fitsAll parts query.unannotated.parts

def fitsAll : List Outline → List Outline → Bool
  | [], [] => true
  | a :: as, b :: bs => fits a b && fitsAll as bs
  | _, _ => false

end

private theorem fitsAll_iff : fitsAll as bs ↔ List.Forall₂ (fun a b => a.fits b) as bs := by
  induction as generalizing bs with
  | nil => cases bs <;> simp [fitsAll]
  | cons a as ih =>
    cases bs with
    | nil => simp [fitsAll]
    | cons b bs => rw [fitsAll, Bool.and_eq_true, ih, List.forall₂_cons]

/-- An outline that is not annotated fits the wildcard and what it agrees with part by part. -/
theorem fits_iff (hkind : a.kind ≠ .annotated) :
    a.fits b ↔ b.unannotated.kind = .wildcard ∨ b.unannotated.kind = a.kind ∧
      b.unannotated.label = a.label ∧
      List.Forall₂ (fun a b => a.fits b) a.parts b.unannotated.parts := by
  obtain ⟨kind, label, parts⟩ := a
  simp only [fits, if_neg hkind, Bool.or_eq_true, Bool.and_eq_true, decide_eq_true_eq, fitsAll_iff,
    and_assoc]

/-- The annotation on an annotated one is looked through. -/
theorem fits_annotated_iff {label : String} :
    fits ⟨.annotated, label, [inner]⟩ b ↔
      b.unannotated.kind = .wildcard ∨ inner.fits b.unannotated := by
  simp only [fits, if_true, Bool.or_eq_true, decide_eq_true_eq, fitsAll, Bool.and_true]

/-- A leaf fits the wildcard and itself. -/
private theorem fits_leaf_iff {kind : Kind} {label : String} (hleaf : kind.isLeaf) :
    fits ⟨kind, label, []⟩ b ↔
      b.unannotated.kind = .wildcard ∨ b.unannotated = ⟨kind, label, []⟩ := by
  rw [fits_iff (by rintro rfl; cases hleaf)]
  generalize b.unannotated = query
  obtain ⟨kind', label', parts⟩ := query
  simp [List.forall₂_nil_left_iff]

theorem fits_wildcard (o : Outline) : o.fits ⟨.wildcard, "", []⟩ := by
  obtain ⟨kind, label, parts⟩ := o
  rfl

/-- Of outlines of one kind and label one fits the other if its parts do. -/
theorem fits_of_parts {kind : Kind} {label : String} (hkind : kind ≠ .annotated)
    (hparts : List.Forall₂ (fun a b => a.fits b) as bs) :
    fits ⟨kind, label, as⟩ ⟨kind, label, bs⟩ := by
  rw [fits_iff hkind, unannotated_of_ne hkind]
  exact .inr ⟨rfl, rfl, hparts⟩

/-- A normal outline fits itself. -/
theorem IsNormal.fits_self (ho : o.IsNormal) : o.fits o := by
  induction ho with
  | leaf hleaf => exact fits_of_parts (by rintro rfl; cases hleaf) .nil
  | list hkind _ ih =>
    exact fits_of_parts (by rcases hkind with rfl | rfl <;> decide) (List.forall₂_same.mpr ih)
  | annotated _ ih => exact fits_annotated_iff.mpr (.inr ih)
  | @set kind _ _ _ _ _ ih =>
    exact fits_of_parts (by cases kind <;> decide) (List.forall₂_same.mpr ih)

inductive IsConcrete : Outline → Prop where
  | mk {o : Outline} (hwildcard : o.kind ≠ .wildcard) (hannotated : o.kind ≠ .annotated)
      (hparts : ∀ p ∈ o.parts, IsConcrete p) : IsConcrete o

/-- Of outlines without wildcards and annotations only equal ones fit. -/
theorem IsConcrete.eq_of_fits (ha : a.IsConcrete) (hb : b.IsConcrete) (hfits : a.fits b) :
    a = b := by
  induction ha generalizing b with
  | @mk a hwildcard hannotated hparts ih =>
    obtain ⟨hwildcard', hannotated', hparts'⟩ := hb
    rw [fits_iff hannotated, unannotated_of_ne hannotated', or_iff_right hwildcard'] at hfits
    obtain ⟨hkind, hlabel, hfits⟩ := hfits
    have hparts : a.parts = b.parts := by
      rw [← List.forall₂_eq_eq_eq]
      exact forall₂_imp_of_mem hfits fun x hx y hy hxy => ih x hx (hparts' y hy) hxy
    obtain ⟨kind, label, parts⟩ := a
    obtain ⟨kind', label', parts'⟩ := b
    rw [Outline.mk.injEq]
    exact ⟨hkind.symm, hlabel.symm, hparts⟩

end Fits

end Outline

private theorem Node.exists_annotated {node : Node} (hkind : node.kind = .annotated) :
    ∃ label inner, node = .annotated label inner := by
  cases node <;> first | exact ⟨_, _, rfl⟩ | cases hkind

namespace Store

variable {s : Store} {a b h x : Handle}

section Outlines

/-- In a type in which no promoted tuple occurs, both kinds of type look for the same query. -/
theorem WellFormed.target_of_unpromoted (hs : s.WellFormed) (left : Shape) (hb : s.contains b)
    (hunpromoted : s.IsUnpromoted b) :
    ∃ query, s.target left b = .ok query ∧ s.contains query ∧ s.IsUnpromoted query ∧
      s.outline query = (s.outline b).unannotated := by
  obtain ⟨⟨node, traits⟩, hslot⟩ := exists_slot hb
  have hshape := hs.shape_of_unpromoted hunpromoted hslot
  have hstep := outline_step hs.linked hs.named hslot
  by_cases hkind : node.kind = .annotated
  · obtain ⟨label, inner, rfl⟩ := Node.exists_annotated hkind
    have hinner : inner ∈ (Node.annotated label inner).refs := List.mem_cons_self
    have hunpromoted' := hunpromoted.ref hs.linked hslot hinner
    refine ⟨inner, ?_, hs.linked.contains_of_refs hslot hinner, hunpromoted', ?_⟩
    · rw [target_of_annotated left hshape]
      cases left with
      | tuple params => exact hunpromoted' inner (.self inner)
      | _ => rfl
    · rw [hstep]
      rfl
  · refine ⟨b, ?_, hb, hunpromoted, ?_⟩
    · rw [target_of_bare left hs hshape (by cases node <;> simp_all [Node.fixedShape, Node.kind])]
      cases left with
      | tuple params => exact hunpromoted b (.self b)
      | _ => rfl
    · rw [Outline.unannotated_of_ne]
      rwa [hstep]

/-- The wildcard is told by the kind of its outline. -/
theorem WellFormed.outline_wildcard_iff (hs : s.WellFormed) (hh : s.contains h) :
    (s.outline h).kind = .wildcard ↔ h = .wildcard := by
  have hwildcard : s.slot? .wildcard = some ⟨.wildcard, .none⟩ :=
    hs.linked.builtin .wildcard (by decide)
  constructor
  · intro hkind
    obtain ⟨⟨node, traits⟩, hslot⟩ := exists_slot hh
    rw [outline_step hs.linked hs.named hslot] at hkind
    obtain rfl : node = .wildcard := by cases node <;> first | rfl | cases hkind
    exact hs.linked.eq_of_special hslot hwildcard (by simp)
  · rintro rfl
    rw [outline_step hs.linked hs.named hwildcard]
    rfl

variable (hs : s.WellFormed) (hd : s.Distinct)
include hs hd

/-- A type that is neither annotated nor a leaf is compared with a query of another kind. -/
private theorem WellFormed.kind_eq_of_fitsBy {node node' : Node} {traits traits' : Traits}
    (ha : s.slot? a = some ⟨node, traits⟩) (hb : s.slot? b = some ⟨node', traits'⟩)
    (hfirst : s.IsUnpromoted a) (hsecond : s.IsUnpromoted b) (hbare : node.kind ≠ .annotated)
    (hfits : s.FitsBy s.Suits a node.fixedShape b node'.fixedShape) : node'.kind = node.kind := by
  by_contra hkind
  have hsame : s.Same a b := by
    cases node <;> cases node' <;>
      first | exact absurd rfl hkind | exact absurd rfl hbare | exact hfits | exact hfits.elim
  have houtline := hs.outline_eq_of_same hd (contains_of_slot ha) (contains_of_slot hb) hfirst
    hsecond hsame
  rw [outline_step hs.linked hs.named ha, outline_step hs.linked hs.named hb] at houtline
  exact hkind (congrArg Outline.kind houtline).symm

/-- A leaf is compared with a query of its own kind by equality. -/
theorem WellFormed.fitsBy_leaf_iff_outline {node node' : Node} {traits traits' : Traits}
    (ha : s.slot? a = some ⟨node, traits⟩) (hb : s.slot? b = some ⟨node', traits'⟩)
    (hfirst : s.IsUnpromoted a) (hsecond : s.IsUnpromoted b) (hkind : node'.kind = node.kind)
    (hleaf : node.kind.isLeaf) :
    s.FitsBy s.Suits a node.fixedShape b node'.fixedShape ↔
      node'.kind = node.kind ∧ s.label node' = s.label node ∧
        List.Forall₂ (fun x y => x.fits y) (node.refs.map s.outline)
          (node'.refs.map s.outline) := by
  have hsame : s.FitsBy s.Suits a node.fixedShape b node'.fixedShape ↔ s.Same a b := by
    cases node <;> first | exact Iff.rfl | cases hleaf
  have hrefs : node.refs = [] := by cases node <;> first | rfl | cases hleaf
  have hrefs' : node'.refs = [] := by
    rw [← hkind] at hleaf
    cases node' <;> first | rfl | cases hleaf
  rw [hsame, hs.same_iff_outline hd (contains_of_slot ha) (contains_of_slot hb) hfirst hsecond,
    outline_step hs.linked hs.named ha, outline_step hs.linked hs.named hb, hrefs, hrefs',
    Outline.mk.injEq]
  constructor
  · exact fun h => ⟨hkind, h.2.1.symm, .nil⟩
  · exact fun h => ⟨hkind.symm, h.2.1.symm, rfl⟩

omit hd in
private theorem WellFormed.outline_base {base : Handle} {params : List Handle} {traits : Traits}
    (ha : s.slot? a = some ⟨.generic base params, traits⟩) :
    ∃ text, s.outline base = .nominal text := by
  obtain ⟨name, hname⟩ := hs.linked.base_nominal ha
  obtain ⟨traits, hslot⟩ := exists_slot_of_node hname
  exact ⟨_, outline_step hs.linked hs.named hslot⟩

/-- The base of a generic type fits that of another exactly if it is the same. -/
private theorem WellFormed.base_fits_iff {base base' : Handle} {params queries : List Handle}
    {traits traits' : Traits} (ha : s.slot? a = some ⟨.generic base params, traits⟩)
    (hb : s.slot? b = some ⟨.generic base' queries, traits'⟩) (hfirst : s.IsUnpromoted a)
    (hsecond : s.IsUnpromoted b) : (s.outline base).fits (s.outline base') ↔ base = base' := by
  have hx : base ∈ (Node.generic base params).refs := List.mem_cons_self
  have hy : base' ∈ (Node.generic base' queries).refs := List.mem_cons_self
  have houtline : s.outline base = s.outline base' ↔ base = base' := by
    rw [← hs.same_iff_outline hd (hs.linked.contains_of_refs ha hx)
      (hs.linked.contains_of_refs hb hy) (hfirst.ref hs.linked ha hx)
      (hsecond.ref hs.linked hb hy)]
    exact ⟨hs.eq_of_base ha hb, fun h => h ▸ s.same_refl base⟩
  obtain ⟨label, hlabel⟩ := hs.outline_base ha
  obtain ⟨label', hlabel'⟩ := hs.outline_base hb
  rw [← houtline, hlabel, hlabel', Outline.nominal, Outline.fits_leaf_iff rfl,
    Outline.unannotated_of_ne (by simp [Outline.nominal])]
  simp [Outline.nominal, eq_comm]

/-- One step of the match of types in which no promoted tuple occurs, told by their outlines. -/
theorem WellFormed.fitsBy_iff_outline {node node' : Node} {traits traits' : Traits}
    (ha : s.slot? a = some ⟨node, traits⟩) (hb : s.slot? b = some ⟨node', traits'⟩)
    (hfirst : s.IsUnpromoted a) (hsecond : s.IsUnpromoted b) (hbare : node.kind ≠ .annotated)
    (hparts : ∀ x ∈ node.refs, ∀ y ∈ node'.refs,
      (s.Suits x y ↔ (s.outline x).fits (s.outline y))) :
    s.FitsBy s.Suits a node.fixedShape b node'.fixedShape ↔
      node'.kind = node.kind ∧ s.label node' = s.label node ∧
        List.Forall₂ (fun x y => x.fits y) (node.refs.map s.outline)
          (node'.refs.map s.outline) := by
  have hlists : ∀ {xs ys}, xs ⊆ node.refs → ys ⊆ node'.refs →
      (List.Forall₂ s.Suits xs ys ↔
        List.Forall₂ (fun x y => x.fits y) (xs.map s.outline) (ys.map s.outline)) := by
    intro xs ys hxs hys
    rw [List.forall₂_map_left_iff, List.forall₂_map_right_iff]
    constructor
    · exact fun h => forall₂_imp_of_mem h fun x hx y hy => (hparts x (hxs hx) y (hys hy)).mp
    · exact fun h => forall₂_imp_of_mem h fun x hx y hy => (hparts x (hxs hx) y (hys hy)).mpr
  by_cases hkind : node'.kind = node.kind
  swap
  · exact iff_of_false (fun h => hkind (hs.kind_eq_of_fitsBy hd ha hb hfirst hsecond hbare h))
      fun h => hkind h.1
  by_cases hleaf : node.kind.isLeaf
  · exact hs.fitsBy_leaf_iff_outline hd ha hb hfirst hsecond hkind hleaf
  -- what is left has no label but parts, and only the base of a generic type is asked for in itself
  have hlabel : s.label node' = s.label node := by
    cases node <;> cases node' <;>
      first | rfl | exact absurd rfl hleaf | exact absurd rfl hbare | cases hkind
  rw [and_iff_right hkind, and_iff_right hlabel]
  cases node with
  | generic base params =>
    obtain ⟨base', queries, rfl⟩ : ∃ base' queries, node' = .generic base' queries := by
      cases node' <;> first | exact ⟨_, _, rfl⟩ | cases hkind
    have hqueries : List.Forall₂ s.Suits params queries ↔ _ :=
      hlists (List.subset_cons_self base params) (List.subset_cons_self base' queries)
    rw [Node.refs, Node.refs, List.map_cons, List.map_cons, List.forall₂_cons, ← hqueries,
      hs.base_fits_iff hd ha hb hfirst hsecond]
    exact Iff.rfl
  | tuple params digest entry =>
    obtain ⟨queries, digest', entry', rfl⟩ : ∃ queries d e, node' = .tuple queries d e := by
      cases node' <;> first | exact ⟨_, _, _, rfl⟩ | cases hkind
    exact hlists (List.Subset.refl _) (List.Subset.refl _)
  | union members =>
    obtain ⟨queries, rfl⟩ : ∃ queries, node' = .union queries := by
      cases node' <;> first | exact ⟨_, rfl⟩ | cases hkind
    exact hlists (List.Subset.refl _) (List.Subset.refl _)
  | intersection members =>
    obtain ⟨queries, rfl⟩ : ∃ queries, node' = .intersection queries := by
      cases node' <;> first | exact ⟨_, rfl⟩ | cases hkind
    exact hlists (List.Subset.refl _) (List.Subset.refl _)
  | annotated => exact absurd rfl hbare
  | _ => exact absurd rfl hleaf

/-- Whether a type fits a query in which no promoted tuple occurs either, is told by their
outlines. -/
theorem WellFormed.suits_iff_outline (ha : s.contains a) (hb : s.contains b)
    (hfirst : s.IsUnpromoted a) (hsecond : s.IsUnpromoted b) :
    s.Suits a b ↔ (s.outline a).fits (s.outline b) := by
  -- the induction is on the type, as the query below an annotation is not one of its own parts
  induction hn : a.index using Nat.strong_induction_on generalizing a b with
  | _ n ih =>
    obtain ⟨⟨node, traits⟩, hslot⟩ := exists_slot ha
    have hleft := hs.shape_of_unpromoted hfirst hslot
    obtain ⟨query, htarget, hquery, hthird, houtline⟩ :=
      hs.target_of_unpromoted node.fixedShape hb hsecond
    obtain ⟨⟨node', traits'⟩, hslot'⟩ := exists_slot hquery
    have hright := hs.shape_of_unpromoted hthird hslot'
    have hpart : ∀ x ∈ node.refs, ∀ {y}, s.contains y → s.IsUnpromoted y →
        (s.Suits x y ↔ (s.outline x).fits (s.outline y)) := by
      intro x hx y hy hfourth
      have hlt := hs.linked.refs_lt hslot x hx
      exact ih x.index (by omega) (hs.linked.contains_of_refs hslot hx) hy
        (hfirst.ref hs.linked hslot hx) hfourth rfl
    rw [hs.suits_iff hleft (by cases node <;> simp [Node.fixedShape]) htarget hright,
      ← hs.outline_wildcard_iff hquery]
    have hstep := outline_step hs.linked hs.named hslot
    by_cases hbare : node.kind = .annotated
    · obtain ⟨label, inner, rfl⟩ := Node.exists_annotated hbare
      have hinner : s.Suits inner query ↔ (s.outline inner).fits (s.outline query) :=
        hpart inner List.mem_cons_self hquery hthird
      rw [hstep, Node.refs, List.map_singleton]
      exact (or_congr Iff.rfl hinner).trans (houtline ▸ Outline.fits_annotated_iff.symm)
    · rw [hs.fitsBy_iff_outline hd hslot hslot' hfirst hthird hbare fun x hx y hy =>
          hpart x hx (hs.linked.contains_of_refs hslot' hy) (hthird.ref hs.linked hslot' hy),
        Outline.fits_iff (by rwa [hstep]), ← houtline, hstep,
        outline_step hs.linked hs.named hslot']

end Outlines

section Concrete

def IsConcrete (s : Store) (h : Handle) : Prop :=
  ∀ x, s.Occurs h x → ∀ node, s.node x = .ok node → node ≠ .wildcard ∧ node.inner? = none

theorem IsConcrete.part (ha : s.IsConcrete a) (hab : s.HasPart a b) : s.IsConcrete b :=
  fun x hx => ha x (.part hab hx)

theorem IsConcrete.of_closed {types : List Handle}
    (hclosed : ∀ x ∈ types, (s.nodeAt x ≠ .wildcard ∧ (s.nodeAt x).inner? = none) ∧
      ∀ y ∈ (s.nodeAt x).parts, y ∈ types) (ha : a ∈ types) : s.IsConcrete a := by
  intro x hx node hnode
  induction hx with
  | self a =>
    obtain ⟨traits, hslot⟩ := exists_slot_of_node hnode
    have hself := (hclosed a ha).1
    rwa [nodeAt_of_slot hslot] at hself
  | @part a b c hpart _ ih =>
    obtain ⟨node, hnode', hb⟩ := hpart
    obtain ⟨traits, hslot⟩ := exists_slot_of_node hnode'
    have hparts := (hclosed a ha).2
    rw [nodeAt_of_slot hslot] at hparts
    exact ih (hparts b hb) hnode

/-- Such a type has an outline without wildcards and annotations. -/
theorem WellFormed.concrete_outline (hs : s.WellFormed) (ha : s.contains a)
    (hconcrete : s.IsConcrete a) : (s.outline a).IsConcrete := by
  induction hn : a.index using Nat.strong_induction_on generalizing a with
  | _ n ih =>
    obtain ⟨⟨node, traits⟩, hslot⟩ := exists_slot ha
    obtain ⟨hwildcard, hinner⟩ := hconcrete a (.self a) node (node_of_slot hslot)
    have hpart : ∀ x ∈ node.parts, (s.outline x).IsConcrete := by
      intro x hx
      have href : x ∈ node.refs := mem_refs_of_mem_parts hx
      have hlt := hs.linked.refs_lt hslot x href
      exact ih x.index (by omega) (hs.linked.contains_of_refs hslot href)
        (hconcrete.part ⟨node, node_of_slot hslot, hx⟩) rfl
    rw [outline_step hs.linked hs.named hslot]
    refine .mk (by cases node <;> simp_all [Node.kind]) ?_ ?_
    · cases node <;> simp_all [Node.kind, Node.inner?]
    · intro o ho
      obtain ⟨x, hx, rfl⟩ := List.mem_map.mp ho
      cases node with
      | generic base params =>
        rcases List.mem_cons.mp hx with rfl | hx
        · obtain ⟨text, hbase⟩ := hs.outline_base hslot
          rw [hbase]
          exact .mk (by simp [Outline.nominal]) (by simp [Outline.nominal])
            (by simp [Outline.nominal])
        · exact hpart x hx
      | _ => exact hpart x hx

end Concrete

end Store

open Store in
/-- Where no promoted tuple occurs, equal types fit each other, and if neither contains a wildcard
or an annotated type, only equal ones do. -/
theorem Reachable.fits_extends_equal {s : Store} {a b : Handle} (hs : Reachable s)
    (ha : s.contains a) (hb : s.contains b) (hfirst : s.IsUnpromoted a)
    (hsecond : s.IsUnpromoted b) :
    ∃ same suited, s.equal a b = .ok same ∧ s.fits a b = .ok suited ∧
      (same = true → suited = true) ∧ (s.IsConcrete a → s.IsConcrete b → suited = same) := by
  have hwf := hs.wellFormed
  obtain ⟨same, hsame⟩ := equal_answered hwf.linked hwf.acyclic ha hb
  obtain ⟨suited, hsuited⟩ := fits_answered hwf ha hb
  have hequal : same = true ↔ s.outline a = s.outline b := by
    rw [← hwf.same_iff_outline hs.distinct ha hb hfirst hsecond, Same, hsame, Except.ok.injEq]
  have hfits : suited = true ↔ (s.outline a).fits (s.outline b) := by
    rw [← hwf.suits_iff_outline hs.distinct ha hb hfirst hsecond, Suits, hsuited, Except.ok.injEq]
  have hextends : same = true → suited = true := by
    rw [hequal, hfits]
    intro heq
    rw [← heq]
    exact (hwf.normal_outline hs.distinct ha hfirst).fits_self
  refine ⟨same, suited, hsame, hsuited, hextends, fun hconcrete hconcrete' => ?_⟩
  rw [Bool.eq_iff_iff]
  refine ⟨fun h => hequal.mpr ?_, hextends⟩
  exact (hwf.concrete_outline ha hconcrete).eq_of_fits (hwf.concrete_outline hb hconcrete')
    (hfits.mp h)

/-- In `mixedStore` two equal fixed tuples fit each other. One of their elements, a class, is not
equal to them and does not fit them. -/
theorem mixedStore_fits_extends_equal :
    (∀ h ∈ [⟨5⟩, ⟨6⟩, ⟨7⟩, ⟨8⟩], mixedStore.contains h ∧ mixedStore.IsUnpromoted h ∧
        mixedStore.IsConcrete h) ∧
      mixedStore.equal ⟨7⟩ ⟨8⟩ = .ok true ∧ mixedStore.fits ⟨7⟩ ⟨8⟩ = .ok true ∧
      mixedStore.equal ⟨5⟩ ⟨7⟩ = .ok false ∧ mixedStore.fits ⟨5⟩ ⟨7⟩ = .ok false := by
  have htypes : ∀ h ∈ [⟨5⟩, ⟨6⟩, ⟨7⟩, ⟨8⟩], mixedStore.contains h ∧ mixedStore.IsUnpromoted h ∧
      mixedStore.IsConcrete h := by
    intro h hh
    refine ⟨?_, mixedStore_unpromoted hh, .of_closed (by decide +kernel) hh⟩
    revert h
    decide +kernel
  obtain ⟨hclass, hfixed, hconcrete⟩ := htypes ⟨5⟩ (by simp)
  obtain ⟨hfirst, hfixed', hconcrete'⟩ := htypes ⟨7⟩ (by simp)
  obtain ⟨hsecond, hfixed'', -⟩ := htypes ⟨8⟩ (by simp)
  have hequal : mixedStore.equal ⟨7⟩ ⟨8⟩ = .ok true := by decide +kernel
  have hequal' : mixedStore.equal ⟨5⟩ ⟨7⟩ = .ok false := by decide +kernel
  obtain ⟨same, suited, hsame, hsuited, hextends, -⟩ :=
    Reachable.fits_extends_equal reachable_mixedStore hfirst hsecond hfixed' hfixed''
  obtain ⟨same', suited', hsame', hsuited', -, hagree⟩ :=
    Reachable.fits_extends_equal reachable_mixedStore hclass hfirst hfixed hfixed'
  rw [hsame, Except.ok.injEq] at hequal
  rw [hsame', Except.ok.injEq] at hequal'
  refine ⟨htypes, ?_, ?_, ?_, ?_⟩
  · rw [hsame, hequal]
  · rw [hsuited, hextends hequal]
  · rw [hsame', hequal']
  · rw [hsuited', hagree hconcrete hconcrete', hequal']

end GradualTypes
