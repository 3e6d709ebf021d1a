import GradualTypes.Proofs.Delegation
import GradualTypes.Proofs.Membership
import GradualTypes.Proofs.Rebuilding

/-!
Equal types have equal instances. Substitution may leave one of two equal types as it is and form
the other again: a promoted tuple gives way to its array type, and a set is put together from the
instances of its members, of which fewer may be left. So an instance is described by the shape of
the type, up to which of equal sets was found. By this description an inert type is an instance of
itself, and whatever substitution forms is an instance. Instances of equal types agree level by
level, because sets of equal types are equal.
-/

namespace GradualTypes

namespace Store

variable {s t : Store} {subst : Substitution} {a b h r : Handle} {kind : SetKind} {shape : Shape}
  {traits : Traits} {types members xs ys : List Handle}

section Sets

variable (hs : s.WellFormed)
include hs

/-- A set in which no tuple occurs is made of its own members: they are different handles, so no two
of them are equal. -/
theorem WellFormed.isMadeOf_members (hslot : s.slot? h = some ⟨kind.node members, traits⟩)
    (hfree : ∀ x ∈ members, s.IsTupleFree x) : s.IsMadeOf kind members h := by
  obtain ⟨htwo, hnodup, -⟩ := hs.gathered.entry hslot
  have hmembers := hs.linked.contains_of_members hslot
  have hunequal : members.Pairwise fun x y => s.equal x y = .ok false := by
    refine hnodup.imp_of_mem fun {x y} hx hy hne => ?_
    rw [(hs.equal_decides_eq (hfree x hx) (hfree y hy)).eq_decide, decide_eq_false hne]
  have harrange := arrange_of_sorted hs.linked hs.named hmembers (hs.normal.sorted hslot) hunequal
  refine .inr ⟨hs.top_not_mem hslot, members, ?_, ?_⟩
  · rw [hs.flat_members hslot]
    exact .of_arrange hs.linked hs.named hs.acyclic hmembers harrange
  · match members, htwo with
    | x :: y :: rest, _ => exact ⟨_, traits, hslot, .of_mem_iff fun _ => Iff.rfl⟩

/-- Only a set of the kind is equal to a set, and it is one of the same types. -/
theorem WellFormed.exists_set_of_same (hslot : s.slot? a = some ⟨kind.node members, traits⟩)
    (hb : s.contains b) (hab : s.Same a b) :
    ∃ others traits', s.slot? b = some ⟨kind.node others, traits'⟩ ∧
      s.SameTypes members others := by
  have hleft := shape_of_set hslot
  obtain ⟨right, hright⟩ := hs.linked.exists_shape hb
  rcases (hs.same_iff hleft hright).mp hab with rfl | hsame
  · exact ⟨members, traits, hslot, .of_mem_iff fun _ => Iff.rfl⟩
  cases right with
  | promoted array =>
    -- the tuple stands for an array type, which is no set
    obtain ⟨element, harray⟩ := hs.shape_of_array hright
    have hsame := (hs.same_promoted_right hright (contains_of_slot hslot)).mp hab
    rcases (hs.same_iff hleft harray).mp hsame with rfl | hstep
    · rw [hleft] at harray
      cases kind <;> cases harray
    · cases kind <;> exact hstep.elim
  | union others =>
    cases kind with
    | union =>
      obtain ⟨traits', hslot'⟩ := slot_of_shape hright rfl
      exact ⟨others, traits', hslot', hsame⟩
    | intersection => exact hsame.elim
  | intersection others =>
    cases kind with
    | union => exact hsame.elim
    | intersection =>
      obtain ⟨traits', hslot'⟩ := slot_of_shape hright rfl
      exact ⟨others, traits', hslot', hsame⟩
  | _ => cases kind <;> exact hsame.elim

private theorem WellFormed.sameTypes_spread (kind : SetKind) (ha : s.contains a) (hb : s.contains b)
    (hab : s.Same a b) : s.SameTypes (s.spread kind a) (s.spread kind b) := by
  have hba := hs.same_symm ha hb hab
  rcases spread_cases kind ha with ⟨members, traits, hslot, hspread⟩ | hspread
  · obtain ⟨others, traits', hslot', hsame⟩ := hs.exists_set_of_same hslot hb hab
    rw [hspread, spread_of_set hslot']
    exact hsame
  rcases spread_cases kind hb with ⟨members, traits, hslot, hspread'⟩ | hspread'
  · obtain ⟨others, traits', hslot', hsame⟩ := hs.exists_set_of_same hslot ha hba
    rw [spread_of_set hslot', hspread']
    exact hsame.symm
  · rw [hspread, hspread']
    exact ⟨by simpa using hab, by simpa using hba⟩

/-- What is left of lists of the same types is the same types. -/
private theorem WellFormed.sameTypes_flat (kind : SetKind) (hxs : ∀ x ∈ xs, s.contains x)
    (hys : ∀ y ∈ ys, s.contains y) (hsame : s.SameTypes xs ys) :
    s.SameTypes (s.flat kind xs) (s.flat kind ys) := by
  have hcover : ∀ {xs ys : List Handle}, (∀ x ∈ xs, s.contains x) → (∀ y ∈ ys, s.contains y) →
      (∀ x ∈ xs, ∃ y ∈ ys, s.Same x y) →
      ∀ p ∈ s.flat kind xs, ∃ q ∈ s.flat kind ys, s.Same p q := by
    intro xs ys hxs hys hcover p hp
    obtain ⟨x, hx, hne, hp⟩ := (hs.mem_flat_iff hxs).mp hp
    obtain ⟨y, hy, hxy⟩ := hcover x hx
    obtain ⟨q, hq, hpq⟩ := (hs.sameTypes_spread kind (hxs x hx) (hys y hy) hxy).1 p hp
    refine ⟨q, (hs.mem_flat_iff hys).mpr ⟨y, hy, ?_, hq⟩, hpq⟩
    rintro rfl
    have hyx := hs.same_symm (hxs x hx) (hys .nil hy) hxy
    exact hne (hs.eq_of_same_leaf hs.linked.tupleFree_nil.2 rfl (hxs x hx) hyx)
  exact ⟨hcover hxs hys hsame.1, hcover hys hxs hsame.2⟩

/-- Sets made of the same types are equal. -/
theorem WellFormed.same_of_isMadeOf (hxs : ∀ x ∈ xs, s.contains x) (hys : ∀ y ∈ ys, s.contains y)
    (hsame : s.SameTypes xs ys) (ha : s.IsMadeOf kind xs a) (hb : s.IsMadeOf kind ys b) :
    s.Same a b := by
  have hflat := hs.sameTypes_flat kind hxs hys hsame
  rcases ha with ⟨⟨rfl, htop⟩, rfl⟩ | ⟨htop, members, harranged, hstands⟩
  · rcases hb with ⟨-, rfl⟩ | ⟨htop', -⟩
    · exact s.same_refl .top
    · exact absurd (hs.top_mem_of_sameTypes hys hflat htop) (htop' rfl)
  · rcases hb with ⟨⟨rfl, htop'⟩, -⟩ | ⟨-, members', harranged', hstands'⟩
    · exact absurd (hs.top_mem_of_sameTypes hxs hflat.symm htop') (htop rfl)
    have hleft : ∀ x ∈ s.flat kind xs, s.contains x := hs.contains_of_flat hxs
    have hright : ∀ y ∈ s.flat kind ys, s.contains y := hs.contains_of_flat hys
    exact hs.same_of_standsFor (fun x hx => hleft x (harranged.subset hx))
      (fun y hy => hright y (harranged'.subset hy)) harranged.unequal harranged'.unequal
      (hs.sameTypes_of_arranged hleft hright harranged harranged' hflat) hstands hstands'

end Sets

section Inert

theorem IsInert.isTupleFree (hinert : s.IsInert h) : s.IsTupleFree h := by
  obtain ⟨traits, htraits, hclear⟩ := hinert
  have hboth : traits.hasVar = false ∧ traits.hasTuple = false := by
    simpa [Traits.isInert_eq] using hclear
  exact ⟨traits, htraits, hboth.2⟩

/-- An inert type is neither a variable nor a tuple, and its arguments are inert. -/
theorem WellFormed.shape_of_inert (hs : s.WellFormed) (hinert : s.IsInert h) :
    ∃ shape, s.shape h = .ok shape ∧ shape.node?.isSome ∧ (∀ name, shape ≠ .var name) ∧
      ∀ x ∈ shape.arguments, s.IsInert x := by
  obtain ⟨shape, hshape, hsome⟩ := hs.shape_of_tupleFree hinert.isTupleFree
  obtain ⟨node, hnode⟩ := Option.isSome_iff_exists.mp hsome
  obtain ⟨traits, hslot⟩ := slot_of_shape hshape hnode
  have hclear : traits.isInert := by
    obtain ⟨traits', htraits, hclear⟩ := hinert
    rw [traits_of_slot hslot] at htraits
    cases htraits
    exact hclear
  obtain ⟨hown, hparts⟩ := (hs.flagged.clear_iff Traits.isPassedOn_inert hslot).mp hclear
  refine ⟨shape, hshape, hsome, ?_, ?_⟩
  · rintro name rfl
    cases hnode
    simp [Node.ownTraits, Traits.isInert_eq] at hown
  · cases shape <;> cases hnode <;> exact hparts

end Inert

section Instances

def InstanceBy (s : Store) (subst : Substitution) (h : Handle) (types : List Handle) (r : Handle) :
    Shape → Prop
  | .var name => r = (subst.find? name).getD h
  | .generic base _ => s.shape r = .ok (.generic base types)
  | .promoted _ => types = [r]
  | .tuple _ => s.shape r = .ok (.tuple types)
  | .union _ => s.IsMadeOf .union types r
  | .intersection _ => s.IsMadeOf .intersection types r
  | .annotated label _ => ∃ inner, types = [inner] ∧ s.shape r = .ok (.annotated label inner)
  | .top | .nil | .wildcard | .nominal _ | .symbol _ => r = h

def InstanceWithin (s : Store) (subst : Substitution) : Nat → Handle → Handle → Prop
  | 0, _, _ => False
  | depth + 1, h, r => s.contains r ∧ ∃ shape types, s.shape h = .ok shape ∧
      List.Forall₂ (fun x y => InstanceWithin s subst depth x y) shape.arguments types ∧
      s.InstanceBy subst h types r shape

variable {depth : Nat}

theorem InstanceWithin.contains (hr : s.InstanceWithin subst depth h r) : s.contains r := by
  cases depth with
  | zero => exact hr.elim
  | succ depth => exact hr.1

theorem contains_of_instances
    (hxs : List.Forall₂ (fun x y => s.InstanceWithin subst depth x y) xs types) :
    ∀ y ∈ types, s.contains y := by
  intro y hy
  obtain ⟨x, -, hxy⟩ := exists_mem_of_forall₂ hxs.flip hy
  exact hxy.contains

private theorem Grows.instanceBy (hst : s.Grows t) (hs : s.WellFormed)
    (htypes : ∀ x ∈ types, s.contains x) (hr : s.InstanceBy subst h types r shape) :
    t.InstanceBy subst h types r shape := by
  cases shape with
  | generic base params => exact hst.shape_eq hr
  | tuple params => exact hst.shape_eq hr
  | union members => exact hst.isMadeOf hs htypes hr
  | intersection members => exact hst.isMadeOf hs htypes hr
  | annotated label inner =>
    obtain ⟨inner', htypes, hshape⟩ := hr
    exact ⟨inner', htypes, hst.shape_eq hshape⟩
  | _ => exact hr

private theorem Grows.instanceWithin (hst : s.Grows t) (hs : s.WellFormed)
    (hr : s.InstanceWithin subst depth h r) : t.InstanceWithin subst depth h r := by
  induction depth generalizing h r with
  | zero => exact hr
  | succ depth ih =>
    obtain ⟨hcontains, shape, types, hshape, harguments, hby⟩ := hr
    exact ⟨hst.contains hcontains, shape, types, hst.shape_eq hshape,
      harguments.imp fun _ _ hx => ih hx, hst.instanceBy hs (contains_of_instances harguments) hby⟩

/-- An inert type is an instance of itself. -/
private theorem WellFormed.instanceWithin_self (hs : s.WellFormed) (hinert : s.IsInert h)
    (hdepth : s.rank h < depth) : s.InstanceWithin subst depth h h := by
  induction depth generalizing h with
  | zero => omega
  | succ depth ih =>
    obtain ⟨shape, hshape, hsome, hvar, harguments⟩ := hs.shape_of_inert hinert
    refine ⟨Linked.contains_of_shape hshape, shape, shape.arguments, hshape, ?_, ?_⟩
    · refine List.forall₂_same.mpr fun x hx => ?_
      have hlt := (hs.descends hshape (shape.arguments_subset hx)).2
      exact ih (harguments x hx) (by omega)
    · have hfree : ∀ x ∈ shape.arguments, s.IsTupleFree x := fun x hx =>
        (harguments x hx).isTupleFree
      cases shape with
      | var name => exact absurd rfl (hvar name)
      | promoted array => cases hsome
      | tuple params => cases hsome
      | generic base params => exact hshape
      | union members =>
        obtain ⟨_, hslot⟩ := slot_of_shape hshape rfl
        exact hs.isMadeOf_members hslot hfree
      | intersection members =>
        obtain ⟨_, hslot⟩ := slot_of_shape hshape rfl
        exact hs.isMadeOf_members hslot hfree
      | annotated label inner => exact ⟨inner, rfl, hshape⟩
      | _ => rfl

/-- What is formed again from the instances of the arguments of a type is an instance of it. -/
theorem instanceBy_reform {u : Store} (hs : s.WellFormed) (hst : s.Grows t)
    (hshape : s.shape h = .ok shape) (htypes : ∀ x ∈ types, t.contains x)
    (hlength : types.length = shape.arguments.length)
    (hrun : reform subst h shape types t = .ok r u) : u.InstanceBy subst h types r shape := by
  have ht := hst.wellFormed hs
  cases shape with
  | generic base params =>
    obtain ⟨_, hslot⟩ := ((formGeneric_again hs hst hshape htypes).of_run hrun).slot
    exact shape_eq_ok_iff.mpr ⟨_, hslot, rfl⟩
  | promoted array =>
    obtain ⟨x, rfl⟩ := List.length_eq_one_iff.mp hlength
    cases hrun
    rfl
  | tuple params =>
    obtain ⟨-, digest, hformed⟩ := (formTuple_returns ht htypes).of_run hrun
    exact hformed.shape_tuple ht.linked
  | union members =>
    exact ((ht.make_returns .union htypes).of_run ((union_run htypes).trans hrun)).2.2
  | intersection members =>
    exact ((ht.make_returns .intersection htypes).of_run ((intersection_run htypes).trans hrun)).2.2
  | annotated label inner =>
    obtain ⟨x, rfl⟩ := List.length_eq_one_iff.mp hlength
    have hx := htypes x List.mem_cons_self
    obtain ⟨_, hslot⟩ := ((formAnnotated_again hs hst hshape hx).of_run hrun).slot
    exact ⟨x, rfl, shape_eq_ok_iff.mpr ⟨_, hslot, rfl⟩⟩
  | _ =>
    cases hrun
    rfl

/-- Substitution returns an instance. -/
theorem instantiateWithin_instance (hs : s.WellFormed) (hsubst : ∀ x ∈ subst.types, s.contains x)
    (depth : Nat) (hh : s.contains h) (hdepth : s.rank h < depth) :
    Returns (instantiateWithin subst depth h) s fun r t =>
      s.Grows t ∧ t.InstanceWithin subst depth h r := by
  refine (@instantiateWithin_rule s s subst h (fun depth x y t => t.InstanceWithin subst depth x y)
    hs hsubst ?_ ?_ ?_ depth (.refl s) hh hdepth).mono fun r t hpost => ⟨hpost.1, hpost.2.2⟩
  · intro depth x y t u hst htu _ hy
    exact htu.instanceWithin (hst.wellFormed hs) hy
  · intro depth x t hst _ hlt hinert
    exact hst.instanceWithin hs (hs.instanceWithin_self hinert hlt)
  · intro depth x shape types y t u hst hshape hvalid harguments hrun htu hy
    refine ⟨hy, shape, types, (hst.trans htu).shape_eq hshape, ?_, ?_⟩
    · exact harguments.imp fun _ _ hz => htu.instanceWithin (hst.wellFormed hs) hz
    · exact instanceBy_reform hs hst hshape hvalid harguments.length_eq.symm hrun

end Instances

section Congruence

variable {left right : Shape} {P Q : Handle → Handle → Prop}

private theorem eq_of_instanceBy_leaf {types' : List Handle} {x y : Handle} (hleaf : shape.isLeaf)
    (hx : s.InstanceBy subst h types x shape) (hy : s.InstanceBy subst h types' y shape) :
    x = y := by
  cases shape with
  | top | nil | wildcard | nominal _ | symbol _ | var _ => exact hx.trans hy.symm
  | _ => cases hleaf

private theorem sameShapes_self {same : Handle → Handle → Prop} (hsame : ∀ x, same x x)
    (hleaf : ¬shape.isLeaf) (hplain : ∀ array, shape ≠ .promoted array) :
    SameShapes same a shape a shape := by
  cases shape with
  | top | nil | wildcard | nominal _ | symbol _ | var _ => exact absurd rfl hleaf
  | promoted array => exact absurd rfl (hplain array)
  | generic base params => exact ⟨rfl, List.forall₂_same.mpr fun x _ => hsame x⟩
  | tuple params => exact List.forall₂_same.mpr fun x _ => hsame x
  | union members | intersection members =>
    exact ⟨fun x hx => ⟨x, hx, hsame x⟩, fun x hx => ⟨x, hx, hsame x⟩⟩
  | annotated label inner => exact ⟨rfl, hsame inner⟩

/-- Types that correspond to the same types are the same types, if those that correspond to equal
types are equal. -/
private theorem SameTypes.corresponding {types' : List Handle} (hsame : s.SameTypes xs ys)
    (hxs : List.Forall₂ P xs types) (hys : List.Forall₂ Q ys types')
    (hpart : ∀ {x y x' y'}, P x x' → Q y y' → s.Same x y → s.Same x' y')
    (hpart' : ∀ {x y x' y'}, P x x' → Q y y' → s.Same y x → s.Same y' x') :
    s.SameTypes types types' := by
  constructor
  · intro x' hx'
    obtain ⟨x, hx, hxx⟩ := exists_mem_of_forall₂ hxs.flip hx'
    obtain ⟨y, hy, hxy⟩ := hsame.1 x hx
    obtain ⟨y', hy', hyy⟩ := exists_mem_of_forall₂ hys hy
    exact ⟨y', hy', hpart hxx hyy hxy⟩
  · intro y' hy'
    obtain ⟨y, hy, hyy⟩ := exists_mem_of_forall₂ hys.flip hy'
    obtain ⟨x, hx, hyx⟩ := hsame.2 y hy
    obtain ⟨x', hx', hxx⟩ := exists_mem_of_forall₂ hxs hx
    exact ⟨x', hx', hpart' hxx hyy hyx⟩

private theorem forall₂_corresponding {R S : Handle → Handle → Prop} {types' : List Handle}
    (hsame : List.Forall₂ R xs ys) (hxs : List.Forall₂ P xs types)
    (hys : List.Forall₂ Q ys types')
    (hpart : ∀ {x y x' y'}, P x x' → Q y y' → R x y → S x' y') :
    List.Forall₂ S types types' := by
  have hnext : List.Forall₂ (fun x y' => ∃ y, R x y ∧ Q y y') xs types' :=
    forall₂_trans_of_mem hsame hys fun x _ y _ y' _ hxy hyy => ⟨y, hxy, hyy⟩
  refine forall₂_trans_of_mem hxs.flip hnext fun x' _ x _ y' _ hxx hyy => ?_
  obtain ⟨y, hxy, hyy⟩ := hyy
  exact hpart hxx hyy hxy

variable (hs : s.WellFormed)
include hs

/-- Types whose shapes agree have equal instances, if the instances of their arguments agree. -/
theorem WellFormed.same_of_instanceBy {types' : List Handle} {x y : Handle}
    (hplain : ∀ array, left ≠ .promoted array) (hplain' : ∀ array, right ≠ .promoted array)
    (htypes : ∀ z ∈ types, s.contains z) (htypes' : ∀ z ∈ types', s.contains z)
    (hleft : List.Forall₂ P left.arguments types) (hright : List.Forall₂ Q right.arguments types')
    (hpart : ∀ {x y x' y'}, P x x' → Q y y' → s.Same x y → s.Same x' y')
    (hpart' : ∀ {x y x' y'}, P x x' → Q y y' → s.Same y x → s.Same y' x')
    (hsame : SameShapes s.Same a left b right) (hx : s.InstanceBy subst a types x left)
    (hy : s.InstanceBy subst b types' y right) : s.Same x y := by
  unfold SameShapes at hsame
  split at hsame
  · exact absurd rfl (hplain _)
  · exact absurd rfl (hplain' _)
  · exact (hs.same_iff hx hy).mpr (.inr (forall₂_corresponding hsame hleft hright hpart))
  · obtain ⟨rfl, hparams⟩ := hsame
    have hforall := forall₂_corresponding hparams hleft hright hpart
    exact (hs.same_iff hx hy).mpr (.inr ⟨rfl, hforall⟩)
  · exact hs.same_of_isMadeOf htypes htypes'
      (SameTypes.corresponding hsame hleft hright hpart hpart') hx hy
  · exact hs.same_of_isMadeOf htypes htypes'
      (SameTypes.corresponding hsame hleft hright hpart hpart') hx hy
  · obtain ⟨rfl, hinner⟩ := hsame
    obtain ⟨x', rfl, hx⟩ := hx
    obtain ⟨y', rfl, hy⟩ := hy
    obtain ⟨hxx, -⟩ := List.forall₂_cons.mp hleft
    obtain ⟨hyy, -⟩ := List.forall₂_cons.mp hright
    exact (hs.same_iff hx hy).mpr (.inr ⟨rfl, hpart hxx hyy hinner⟩)
  · exact hsame.elim

/-- Instances of equal types are equal. A promoted tuple is left behind on either side, so the
induction is on the levels of both. -/
theorem WellFormed.same_of_instances {m n : Nat} {x y : Handle}
    (hx : s.InstanceWithin subst m a x) (hy : s.InstanceWithin subst n b y) (hab : s.Same a b) :
    s.Same x y := by
  induction hk : m + n using Nat.strong_induction_on generalizing a b x y m n with
  | _ k ih =>
    cases m with
    | zero => exact hx.elim
    | succ m =>
    cases n with
    | zero => exact hy.elim
    | succ n =>
    have hwhole := hx
    have hwhole' := hy
    obtain ⟨-, left, types, hleft, hargs, hbyx⟩ := hx
    obtain ⟨-, right, types', hright, hargs', hbyy⟩ := hy
    by_cases hpromoted : ∃ array, left = .promoted array
    · obtain ⟨array, rfl⟩ := hpromoted
      obtain rfl : types = [x] := hbyx
      obtain ⟨harray, -⟩ := List.forall₂_cons.mp hargs
      have hsame := (hs.same_promoted_left hleft (Linked.contains_of_shape hright)).mp hab
      exact ih _ (by omega) harray hwhole' hsame rfl
    by_cases hpromoted' : ∃ array, right = .promoted array
    · obtain ⟨array, rfl⟩ := hpromoted'
      obtain rfl : types' = [y] := hbyy
      obtain ⟨harray, -⟩ := List.forall₂_cons.mp hargs'
      have hsame := (hs.same_promoted_right hright (Linked.contains_of_shape hleft)).mp hab
      exact ih _ (by omega) hwhole harray hsame rfl
    have hstep : SameShapes s.Same a left b right → s.Same x y := fun hsame =>
      hs.same_of_instanceBy (not_exists.mp hpromoted) (not_exists.mp hpromoted')
        (contains_of_instances hargs) (contains_of_instances hargs') hargs hargs'
        (fun hx hy hxy => ih _ (by omega) hx hy hxy rfl)
        (fun hx hy hyx => ih _ (by omega) hy hx hyx rfl) hsame hbyx hbyy
    rcases (hs.same_iff hleft hright).mp hab with rfl | hsame
    · -- the same tuple may have been formed twice, so only a leaf has just one instance
      rw [hleft] at hright
      cases hright
      by_cases hleaf : left.isLeaf
      · rw [eq_of_instanceBy_leaf hleaf hbyx hbyy]
        exact s.same_refl y
      · exact hstep (sameShapes_self s.same_refl hleaf (not_exists.mp hpromoted))
    · exact hstep hsame

/-- Equal types are instantiated, one after the other, to equal types. -/
theorem WellFormed.same_instantiate (ha : s.contains a) (hb : s.contains b) (hab : s.Same a b)
    (hsubst : ∀ x ∈ subst.types, s.contains x) :
    ∃ x t y u, instantiate a subst s = .ok x t ∧ instantiate b subst t = .ok y u ∧
      u.Same x y := by
  have hrank := hs.linked.rank_le_size a
  obtain ⟨x, t, hrun, hst, hx⟩ :=
    instantiateWithin_instance hs hsubst (s.size + 1) ha (by omega)
  have ht := hst.wellFormed hs
  have hsubst' : ∀ x ∈ subst.types, t.contains x := fun x hx => hst.contains (hsubst x hx)
  have hrank' := ht.linked.rank_le_size b
  obtain ⟨y, u, hrun', htu, hy⟩ :=
    instantiateWithin_instance ht hsubst' (t.size + 1) (hst.contains hb) (by omega)
  have hu := htu.wellFormed ht
  have hequal : u.Same a b := by
    rw [Same, (hst.trans htu).equal_eq hs ha hb]
    exact hab
  refine ⟨x, t, y, u, ?_, ?_, ?_⟩
  · rw [instantiate_run ha hsubst]
    exact hrun
  · rw [instantiate_run (hst.contains hb) hsubst']
    exact hrun'
  · exact hu.same_of_instances (htu.instanceWithin ht hx) hy hequal

end Congruence

end Store

/-- In a reachable store equality is a congruence: equal types have the same values, and they are
instantiated by any substitution, one after the other, to equal types. -/
theorem Reachable.equal_congruence {s : Store} {a b : Handle} {subst : Substitution}
    (hs : Reachable s) (ha : s.contains a) (hb : s.contains b) (hab : s.equal a b = .ok true)
    (hsubst : ∀ x ∈ subst.types, s.contains x) :
    (∀ v, SameAnswer (s.member a v) (s.member b v)) ∧
      ∃ x t y u, Store.instantiate a subst s = .ok x t ∧ Store.instantiate b subst t = .ok y u ∧
        u.equal x y = .ok true := by
  have hwf := hs.wellFormed
  refine ⟨fun v => ?_, hwf.same_instantiate ha hb hab hsubst⟩
  exact .of_iff (hwf.belongs_congr ha hb hab) (Store.member_answered hwf ha v)
    (Store.member_answered hwf hb v)

/-- A variable, the class of integers, and a promoted tuple of it. Two unions with the class, one of
the tuple and one of the array type it stands for, are each put into a tuple with the variable. -/
def wrappedStore : Store :=
  .after [.var "T", .nominal "Integer", .tuple [⟨6⟩], .promote ⟨7⟩, .union [⟨7⟩, ⟨6⟩],
    .union [⟨8⟩, ⟨6⟩], .tuple [⟨5⟩, ⟨9⟩], .tuple [⟨5⟩, ⟨10⟩]]

/-- Of the two unions in `wrappedStore` one is inert and the other is put together again. The tuples
around them are equal, and so are the new tuples in which the variable is replaced. -/
theorem wrappedStore_equal_congruence :
    let subst : Substitution := ⟨[(⟨4, 0⟩, ⟨7⟩)]⟩
    let v : Value := .array [.int 1, .array [.int 2]]
    Reachable wrappedStore ∧ wrappedStore.equal ⟨11⟩ ⟨12⟩ = .ok true ∧
      wrappedStore.node ⟨9⟩ = .ok (.union [⟨6⟩, ⟨7⟩]) ∧
      wrappedStore.node ⟨10⟩ = .ok (.union [⟨6⟩, ⟨8⟩]) ∧
      SameAnswer (wrappedStore.member ⟨11⟩ v) (wrappedStore.member ⟨12⟩ v) ∧
      ∃ t u, Store.instantiate ⟨11⟩ subst wrappedStore = .ok ⟨13⟩ t ∧
        Store.instantiate ⟨12⟩ subst t = .ok ⟨14⟩ u ∧ u.equal ⟨13⟩ ⟨14⟩ = .ok true := by
  intro subst v
  have hs : Reachable wrappedStore :=
    .after (by decide)
  have hequal : wrappedStore.equal ⟨11⟩ ⟨12⟩ = .ok true := by decide +kernel
  have hsubst : ∀ x ∈ subst.types, wrappedStore.contains x := by decide +kernel
  obtain ⟨hvalues, x, t, y, u, hrun, hrun', hinstances⟩ :=
    Reachable.equal_congruence hs (by decide +kernel) (by decide +kernel) hequal hsubst
  have hhandles : (do
      let x ← Store.instantiate ⟨11⟩ subst
      let y ← Store.instantiate ⟨12⟩ subst
      return (x, y) : StoreM (Handle × Handle)).run' wrappedStore = some (⟨13⟩, ⟨14⟩) := by
    decide +kernel
  obtain ⟨w, hruns⟩ := exists_run_of_run' hhandles
  rw [bind_run hrun, bind_run hrun'] at hruns
  cases hruns
  exact ⟨hs, hequal, by decide +kernel, by decide +kernel, hvalues v, t, u, hrun, hrun', hinstances⟩

end GradualTypes
