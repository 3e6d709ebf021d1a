import GradualTypes.Proofs.Joins

/-!
Intersections below their members. An intersection on the left is opened last: before that, the
right type is taken apart as far as it goes. Its annotations come off, an intersection asks for all
its members, and a union asks for one of its members. What the annotations and intersections in a
type ask for are its conjuncts. A conjunct that is no union is found through the member that it
comes from. One that is a union is not found so, because by then the question is whether the whole
intersection is below a single member of the union.
-/

namespace GradualTypes

namespace Store

/-- What is left of a type when all annotations and intersections in it are opened. -/
inductive Conjunct (s : Store) : Handle → Handle → Prop where
  | self {a shape} (hshape : s.shape a = .ok shape)
      (hlayer : shape.layer = .plain ∨ shape.layer = .union) : Conjunct s a a
  | part {a shape x p} (hshape : s.shape a = .ok shape)
      (hlayer : shape.layer = .annotated ∨ shape.layer = .intersection) (hx : x ∈ shape.parts)
      (hp : Conjunct s x p) : Conjunct s a p

/-- What is asked of a type for a conjunct of another. If the conjunct is a union, the type has to
be below a single member of it. Otherwise a component of the type has to be below the conjunct. -/
def Satisfies (s : Store) (h p : Handle) : Prop :=
  (∀ members, s.shape p = .ok (.union members) → ∃ m ∈ members, s.Below h m) ∧
    ((∀ members, s.shape p ≠ .ok (.union members)) → ∃ x, s.RefersTo h x ∧ s.Below x p)

variable {s : Store} {a h p x : Handle} {shape : Shape} {types members : List Handle}

section Conjuncts

theorem conjunct_of_closed (hshape : s.shape a = .ok shape)
    (hlayer : shape.layer = .plain ∨ shape.layer = .union) : s.Conjunct a p ↔ p = a := by
  constructor
  · intro hp
    cases hp with
    | self _ _ => rfl
    | part hshape' hlayer' _ _ =>
      rw [hshape] at hshape'
      cases hshape'
      rcases hlayer with hlayer | hlayer <;> simp [hlayer] at hlayer'
  · rintro rfl
    exact .self hshape hlayer

theorem conjunct_of_open (hshape : s.shape a = .ok shape)
    (hlayer : shape.layer = .annotated ∨ shape.layer = .intersection) :
    s.Conjunct a p ↔ ∃ x ∈ shape.parts, s.Conjunct x p := by
  constructor
  · intro hp
    cases hp with
    | self hshape' hlayer' =>
      rw [hshape] at hshape'
      cases hshape'
      rcases hlayer with hlayer | hlayer <;> simp [hlayer] at hlayer'
    | part hshape' _ hx hp =>
      rw [hshape] at hshape'
      cases hshape'
      exact ⟨_, hx, hp⟩
  · rintro ⟨x, hx, hp⟩
    exact .part hshape hlayer hx hp

private theorem Conjunct.plain_or_union (hp : s.Conjunct a p) :
    ∃ shape, s.shape p = .ok shape ∧
      (shape.layer = .plain ∨ ∃ members, shape = .union members) := by
  induction hp with
  | @self a shape hshape hlayer =>
    refine ⟨shape, hshape, hlayer.imp_right fun hlayer => ?_⟩
    cases shape with
    | union members => exact ⟨members, rfl⟩
    | _ => cases hlayer
  | part _ _ _ _ ih => exact ih

private theorem satisfies_union (hshape : s.shape p = .ok (.union members)) :
    s.Satisfies h p ↔ ∃ m ∈ members, s.Below h m := by
  constructor
  · exact fun hmet => hmet.1 members hshape
  · refine fun hany => ⟨fun members' hshape' => ?_, fun hnot => absurd hshape (hnot members)⟩
    rw [hshape] at hshape'
    cases hshape'
    exact hany

private theorem satisfies_plain (hset : s.shape h = .ok (.intersection members))
    (hshape : s.shape p = .ok shape) (hlayer : shape.layer = .plain) :
    s.Satisfies h p ↔ ∃ x ∈ members, s.Below x p := by
  have hunion : ∀ others, s.shape p ≠ .ok (.union others) := by
    intro others hothers
    rw [hshape] at hothers
    cases hothers
    cases hlayer
  constructor
  · intro hmet
    obtain ⟨x, ⟨left, hleft, hx⟩, hxp⟩ := hmet.2 hunion
    rw [hset] at hleft
    cases hleft
    exact ⟨x, hx, hxp⟩
  · rintro ⟨x, hx, hxp⟩
    exact ⟨fun others hothers => absurd hothers (hunion others), fun _ => ⟨x, ⟨_, hset, hx⟩, hxp⟩⟩

variable (hs : s.WellFormed)
include hs

private theorem Conjunct.isTupleFree (hp : s.Conjunct a p) (ha : s.IsTupleFree a) :
    s.IsTupleFree p := by
  induction hp with
  | self _ _ => exact ha
  | part hshape _ hx _ ih => exact ih (hs.tupleFree_of_refersTo ha ⟨_, hshape, hx⟩).1

/-- A type is below its conjuncts, unions apart. -/
theorem WellFormed.below_conjunct (ha : s.IsTupleFree a) (hp : s.Conjunct a p)
    (hshape : s.shape p = .ok shape) (hlayer : shape.layer = .plain) : s.Below a p := by
  induction hp with
  | self _ _ => exact hs.below_refl ha
  | @part a left x p hleft hlayer' hx hp ih =>
    have hxfree := (hs.tupleFree_of_refersTo ha ⟨_, hleft, hx⟩).1
    have hxp := ih hxfree hshape
    cases left with
    | annotated label inner =>
      obtain rfl := List.mem_singleton.mp hx
      exact (hs.below_annotated ha hleft (Linked.contains_of_shape hshape)).mpr hxp
    | intersection others =>
      refine (hs.below_iff ha (hp.isTupleFree hs hxfree) hleft hshape).mpr (.inr ?_)
      change s.BelowBy (Layer.intersection.rule shape.layer) _ _ _ _
      rw [hlayer]
      exact ⟨x, hx, hxp⟩
    | _ => rcases hlayer' with hlayer' | hlayer' <;> cases hlayer'

section Step

variable {right : Shape} (hh : s.IsSettled h) (hset : s.shape h = .ok (.intersection members))
  (ha : s.IsTupleFree a) (hright : s.shape a = .ok right) (hne : h ≠ a)
include hh hset ha hright hne

/-- A settled intersection is below another type at sight only if that is the top. -/
theorem WellFormed.below_intersection_iff :
    s.Below h a ↔ a = .top ∨
      s.BelowBy (Layer.intersection.rule right.layer) h (.intersection members) a right := by
  obtain ⟨_, hright', hnode⟩ := hs.shape_of_tupleFree ha
  rw [hright] at hright'
  cases hright'
  have hstep := hs.below_iff_of_settled hh (.of_tupleFree hs ha) hset hright (by simp)
    (not_promoted_of_node hnode)
  have hnil : h ≠ .nil := by
    rintro rfl
    rw [hs.linked.tupleFree_nil.2] at hset
    cases hset
  rw [hstep, Evident, or_iff_right hne, or_iff_left hnil]
  rfl

/-- What has components is taken apart before the intersection is. -/
theorem WellFormed.below_intersection_iff_of_layer (hlayer : right.layer ≠ .plain) :
    s.Below h a ↔
      s.BelowBy (Layer.intersection.rule right.layer) h (.intersection members) a right := by
  rw [hs.below_intersection_iff hh hset ha hright hne]
  refine or_iff_right ?_
  rintro rfl
  rw [hs.linked.tupleFree_top.2] at hright
  cases hright
  exact hlayer rfl

/-- What has no components is above an intersection exactly if it is above a member. -/
theorem WellFormed.below_intersection_iff_of_plain (hlayer : right.layer = .plain) :
    s.Below h a ↔ ∃ x ∈ members, s.Below x a := by
  rw [hs.below_intersection_iff hh hset ha hright hne, hlayer]
  refine or_iff_right_of_imp ?_
  rintro rfl
  obtain ⟨x, hx⟩ := hs.exists_part hset nofun
  rw [hs.linked.tupleFree_top.2] at hright
  cases hright
  exact ⟨x, hx, hs.subtype_top (hs.descends hset hx).1
    (Linked.contains_of_shape hs.linked.tupleFree_top.2)
    (canonical_of_shape hs.linked.tupleFree_top.2 (by simp))⟩

end Step

/-- A settled intersection is below another type exactly if it satisfies all its conjuncts. -/
theorem WellFormed.below_iff_conjuncts (hh : s.IsSettled h)
    (hset : s.shape h = .ok (.intersection members)) (ha : s.IsTupleFree a)
    (hne : ∀ y, Relation.ReflTransGen s.RefersTo a y → h ≠ y) :
    s.Below h a ↔ ∀ p, s.Conjunct a p → s.Satisfies h p := by
  induction hn : a.index using Nat.strong_induction_on generalizing a with
  | _ n ih =>
    obtain ⟨right, hright, -⟩ := hs.shape_of_tupleFree ha
    -- annotations and intersections ask for all their components
    have hopen : right.layer = .annotated ∨ right.layer = .intersection →
        (s.Below h a ↔ ∀ y ∈ right.parts, s.Below h y) →
        (s.Below h a ↔ ∀ p, s.Conjunct a p → s.Satisfies h p) := by
      intro hlayer hall
      have hpart : ∀ y ∈ right.parts,
          (s.Below h y ↔ ∀ p, s.Conjunct y p → s.Satisfies h p) := by
        intro y hy
        obtain ⟨hyfree, hlt⟩ := hs.tupleFree_of_refersTo ha ⟨_, hright, hy⟩
        exact ih y.index (by omega) hyfree (fun w hw => hne w (hw.head ⟨_, hright, hy⟩)) rfl
      rw [hall]
      constructor
      · intro hbelow p hp
        obtain ⟨y, hy, hp⟩ := (conjunct_of_open hright hlayer).mp hp
        exact (hpart y hy).mp (hbelow y hy) p hp
      · exact fun hmet y hy => (hpart y hy).mpr fun p hp => hmet p (.part hright hlayer hy hp)
    have hclosed : right.layer = .plain ∨ right.layer = .union →
        (s.Below h a ↔ s.Satisfies h a) →
        (s.Below h a ↔ ∀ p, s.Conjunct a p → s.Satisfies h p) := by
      intro hlayer hself
      simp only [conjunct_of_closed hright hlayer, forall_eq, hself]
    have hlayers := hs.below_intersection_iff_of_layer hh hset ha hright (hne a .refl)
    cases right with
    | annotated label inner => exact hopen (.inl rfl) (hlayers nofun)
    | intersection others => exact hopen (.inr rfl) (hlayers nofun)
    | union others =>
      exact hclosed (.inr rfl) ((hlayers nofun).trans (satisfies_union hright).symm)
    | _ =>
      refine hclosed (.inl rfl) ?_
      rw [satisfies_plain hset hright rfl]
      exact hs.below_intersection_iff_of_plain hh hset ha hright (hne a .refl) rfl

end Conjuncts

section Made

variable (hs : s.WellFormed) (htypes : ∀ p ∈ types, s.IsTupleFree p)
  (hnil : ∀ p ∈ types, p ≠ .nil)
include hs htypes hnil

private theorem WellFormed.mem_flat_of_spread {kind : SetKind} {y : Handle} (hx : x ∈ types)
    (hy : y ∈ s.spread kind x) : y ∈ s.flat kind types := by
  have hcontains : ∀ p ∈ types, s.contains p := fun p hp => hs.contains_of_tupleFree (htypes p hp)
  exact (hs.mem_flat_iff hcontains).mpr ⟨x, hx, hnil x hx, hy⟩

/-- Each conjunct of a type that an intersection is made of is above something that is left of the
types, unless it is a union. -/
theorem WellFormed.exists_below_conjunct (hx : x ∈ types) (hp : s.Conjunct x p)
    (hshape : s.shape p = .ok shape) (hlayer : shape.layer = .plain) :
    ∃ y ∈ s.flat .intersection types, s.Below y p := by
  have hmem : ∀ {y}, y ∈ s.spread .intersection x → y ∈ s.flat .intersection types :=
    hs.mem_flat_of_spread htypes hnil hx
  rcases spread_cases .intersection (hs.contains_of_tupleFree (htypes x hx)) with
    ⟨members, traits, hslot, hspread⟩ | hspread
  · have hset : s.shape x = .ok (.intersection members) := shape_of_set hslot
    obtain ⟨y, hy, hp⟩ := (conjunct_of_open hset (.inr rfl)).mp hp
    have hyfree := (hs.tupleFree_of_refersTo (htypes x hx) ⟨_, hset, hy⟩).1
    exact ⟨y, hmem (hspread ▸ hy), hs.below_conjunct hyfree hp hshape hlayer⟩
  · exact ⟨x, hmem (by simp [hspread]), hs.below_conjunct (htypes x hx) hp hshape hlayer⟩

omit hnil in
/-- A set of types without tuples is settled, even if it is an older one with other, equal
members. -/
theorem WellFormed.isSettled_of_isMadeOf {kind : SetKind} (hmade : s.IsMadeOf kind types h) :
    s.IsSettled h := by
  rcases hs.tupleFree_or_set htypes hmade with hfree | ⟨members, traits, hslot, hmembers⟩
  · exact .of_tupleFree hs hfree
  · have hfixed : ∀ params, kind.shape members ≠ .tuple params := by
      cases kind <;> simp [SetKind.shape]
    refine .of_shape (shape_of_set hslot) hfixed fun x hx => ?_
    have hx' : x ∈ members := by cases kind <;> exact hx
    obtain ⟨y, hy, hxy⟩ := hmembers x hx'
    exact .of_same hs (hs.linked.contains_of_members hslot x hx') (hs.contains_of_tupleFree hy) hxy
      (.of_tupleFree hs hy)

/-- If no tuple occurs in the intersection of some types, it is one of them, or it is a set of all
that is left of them and younger than all that. -/
private theorem WellFormed.eq_or_younger (hh : s.IsTupleFree h)
    (hmade : s.IsMadeOf .intersection types h) (hx : x ∈ types) :
    h = x ∨ ∃ members, s.shape h = .ok (.intersection members) ∧
      ∀ y ∈ s.flat .intersection types, y ∈ members ∧ y.index < h.index := by
  have hcontains : ∀ p ∈ types, s.contains p := fun p hp => hs.contains_of_tupleFree (htypes p hp)
  have hmem : ∀ {y}, y ∈ s.spread .intersection x → y ∈ s.flat .intersection types :=
    hs.mem_flat_of_spread htypes hnil hx
  rcases hs.isMadeOf_cases htypes hh hmade with
    ⟨⟨hkind, -⟩, -⟩ | ⟨hnone, -⟩ | honly | ⟨members, traits, hslot, hmembers⟩
  · cases hkind
  · exact absurd hnone (hs.flat_ne_nil .intersection hcontains ⟨x, hx, hnil x hx⟩)
  · left
    rcases spread_cases .intersection (hcontains x hx) with
      ⟨members, traits, hslot, hspread⟩ | hspread
    · -- a set has two members, so it does not come down to one type
      obtain ⟨htwo, hnodup, -⟩ := hs.gathered.entry hslot
      have hall : ∀ y ∈ members, y = h := fun y hy => (honly y).mp (hmem (hspread ▸ hy))
      rcases members with _ | ⟨y, _ | ⟨w, rest⟩⟩
      · simp at htwo
      · simp at htwo
      · simp [hall y (by simp), hall w (by simp)] at hnodup
    · exact ((honly x).mp (hmem (by simp [hspread]))).symm
  · have hset : s.shape h = .ok (.intersection members) := shape_of_set hslot
    refine .inr ⟨members, hset, fun y hy => ?_⟩
    have hy := (hmembers y).mp hy
    exact ⟨hy, (hs.tupleFree_of_refersTo hh ⟨_, hset, hy⟩).2⟩

/-- The intersection of some types is one of them, or it is a set that is found in none of them. If
no tuple occurs in the set, all that is left of the types is in it. -/
theorem WellFormed.eq_or_isIntersection (hmade : s.IsMadeOf .intersection types h)
    (hx : x ∈ types) : h = x ∨ ∃ members, s.shape h = .ok (.intersection members) ∧
      (∀ y, Relation.ReflTransGen s.RefersTo x y → h ≠ y) ∧
      (s.IsTupleFree h → ∀ y ∈ s.flat .intersection types, y ∈ members) := by
  by_cases hh : s.IsTupleFree h
  · refine or_iff_not_imp_left.mpr fun heq => ?_
    obtain ⟨members, hset, hflat⟩ :=
      (hs.eq_or_younger htypes hnil hh hmade hx).resolve_left heq
    refine ⟨members, hset, fun y hxy => ?_, fun _ y hy => (hflat y hy).1⟩
    rcases Relation.ReflTransGen.cases_head hxy with rfl | ⟨z, hz, hzy⟩
    · exact heq
    -- what is found in one of the types is no younger than what is left of it
    obtain ⟨hzfree, hltz⟩ := hs.tupleFree_of_refersTo (htypes x hx) hz
    have hley := (hs.tupleFree_of_below hzfree hzy).2
    have hmem : ∀ {y}, y ∈ s.spread .intersection x → y.index < h.index := fun hy =>
      (hflat _ (hs.mem_flat_of_spread htypes hnil hx hy)).2
    have hlt : z.index < h.index := by
      rcases spread_cases .intersection (hs.contains_of_tupleFree (htypes x hx)) with
        ⟨others, traits, hslot, hspread⟩ | hspread
      · obtain ⟨shape, hshape, hz⟩ := hz
        rw [shape_of_set hslot] at hshape
        cases hshape
        exact hmem (hspread ▸ hz)
      · exact hltz.trans (hmem (by simp [hspread]))
    rintro rfl
    omega
  · rcases hs.tupleFree_or_set htypes hmade with hfree | ⟨members, traits, hslot, -⟩
    · exact absurd hfree hh
    · refine .inr ⟨members, shape_of_set hslot, fun y hxy => ?_, fun hfree => absurd hfree hh⟩
      rintro rfl
      exact hh (hs.tupleFree_of_below (htypes x hx) hxy).1

/-- An intersection is below a type that it is made of exactly if it is that type or satisfies all
its conjuncts. -/
theorem WellFormed.below_made_iff (hmade : s.IsMadeOf .intersection types h) (hx : x ∈ types) :
    s.Below h x ↔ h = x ∨ ∀ p, s.Conjunct x p → s.Satisfies h p := by
  by_cases heq : h = x
  · subst heq
    exact iff_of_true (hs.below_refl (htypes h hx)) (.inl rfl)
  obtain ⟨members, hset, hne, -⟩ :=
    (hs.eq_or_isIntersection htypes hnil hmade hx).resolve_left heq
  rw [or_iff_right heq]
  exact hs.below_iff_conjuncts (hs.isSettled_of_isMadeOf htypes hmade) hset (htypes x hx) hne

/-- If no tuple occurs in the intersection, then all conjuncts but the unions are satisfied. -/
theorem WellFormed.satisfies_made (hh : s.IsTupleFree h)
    (hmade : s.IsMadeOf .intersection types h) (hx : x ∈ types) (hne : h ≠ x)
    (hp : s.Conjunct x p) (hunion : ∀ others, s.shape p ≠ .ok (.union others)) :
    s.Satisfies h p := by
  obtain ⟨members, hset, -, hmembers⟩ :=
    (hs.eq_or_isIntersection htypes hnil hmade hx).resolve_left hne
  obtain ⟨shape, hshape, hlayer⟩ := hp.plain_or_union
  rcases hlayer with hlayer | ⟨others, rfl⟩
  · obtain ⟨y, hy, hyp⟩ := hs.exists_below_conjunct htypes hnil hx hp hshape hlayer
    exact (satisfies_plain hset hshape hlayer).mpr ⟨y, hmembers hh y hy, hyp⟩
  · exact absurd hshape (hunion others)

end Made

end Store

/-- In a reachable store the intersection of types without tuples, none of them nil, is compared
with each of them without a change to the store. It is below one of the types exactly if it is that
type or satisfies all its conjuncts. If no tuple occurs in the intersection, which is so as long as
no tuple is promoted, then all conjuncts but the unions are satisfied, so the intersection is below
one of the types exactly if it is that type, or if it is below a single member of each union among
the conjuncts of the type. -/
theorem Reachable.subtype_intersection {s : Store} {xs : List Handle} (hs : Reachable s)
    (hxs : ∀ x ∈ xs, s.IsTupleFree x) (hnil : ∀ x ∈ xs, x ≠ .nil) :
    ∃ h t, Store.intersection xs s = .ok h t ∧
      ((∀ x, s.isPromoted x ≠ .ok true) → t.IsTupleFree h) ∧
      ∀ x ∈ xs, ∃ answer, Store.subtype h x t = .ok answer t ∧
        (answer = true ↔ h = x ∨ ∀ u, t.Conjunct x u → t.Satisfies h u) ∧
        (t.IsTupleFree h → (answer = true ↔ h = x ∨ ∀ u members, t.Conjunct x u →
          t.shape u = .ok (.union members) → ∃ m ∈ members, Store.subtype h m t = .ok true t)) := by
  have hwf := hs.wellFormed
  have hcontains : ∀ x ∈ xs, s.contains x := fun x hx => hwf.contains_of_tupleFree (hxs x hx)
  obtain ⟨h, t, hrun, hgrows, hh, hmade⟩ := hwf.make_returns .intersection hcontains
  have ht := hgrows.wellFormed hwf
  have hxs' : ∀ x ∈ xs, t.IsTupleFree x := fun x hx => hgrows.toRetains.isTupleFree (hxs x hx)
  refine ⟨h, t, hrun, fun hnone => ?_, fun x hx => ?_⟩
  · refine ht.tupleFree_of_isMadeOf hxs' (fun x array hshape => ?_) hmade
    exact hnone x (hwf.isPromoted_iff.mpr ⟨array, hgrows.promoted_before hwf hshape⟩)
  · obtain ⟨answer, hanswer⟩ := ht.subtype_settled hh (ht.contains_of_tupleFree (hxs' x hx))
      (ht.isSettled_of_isMadeOf hxs' hmade) (.of_tupleFree ht (hxs' x hx))
    have hbelow : t.Below h x ↔ answer = true := by simp [Store.Below, hanswer]
    have hiff := ht.below_made_iff hxs' hnil hmade hx
    refine ⟨answer, hanswer, hbelow.symm.trans hiff, fun hfree => ?_⟩
    rw [← hbelow, hiff]
    refine or_congr_right' fun hne => ⟨fun hall u members hu hunion => ?_, fun hunions u hu => ?_⟩
    · exact (hall u hu).1 members hunion
    · by_cases hunion : ∃ members, t.shape u = .ok (.union members)
      · obtain ⟨members, hunion⟩ := hunion
        exact (Store.satisfies_union hunion).mpr (hunions u members hu hunion)
      · exact ht.satisfies_made hxs' hnil hfree hmade hx hne hu (not_exists.mp hunion)

/-- The intersection of the union of all three classes with the third class is below both, and below
the union because the third class is a member of it. -/
theorem layeredStore_subtype_intersection :
    let xs : List Handle := [⟨10⟩, ⟨7⟩]
    Reachable layeredStore ∧ (∀ x ∈ xs, layeredStore.IsTupleFree x) ∧ (∀ x ∈ xs, x ≠ .nil) ∧
      ∃ t, Store.intersection xs layeredStore = .ok ⟨12⟩ t ∧ t.IsTupleFree ⟨12⟩ ∧
        Store.subtype ⟨12⟩ ⟨7⟩ t = .ok true t ∧ Store.subtype ⟨12⟩ ⟨10⟩ t = .ok true t := by
  intro xs
  have hs : Reachable layeredStore := .after (by decide)
  have hxs : ∀ x ∈ xs, layeredStore.IsTupleFree x := by decide +kernel
  have hnil : ∀ x ∈ xs, x ≠ .nil := by decide
  obtain ⟨h, t, hrun, hfree, hbelow⟩ :=
    Reachable.subtype_intersection hs hxs hnil
  have hfree := hfree layeredStore_unpromoted
  obtain rfl : h = ⟨12⟩ := eq_of_run' hrun (by decide +kernel)
  obtain rfl : (Operation.intersection xs).apply layeredStore = t :=
    Operation.apply_of_run (.intersection xs) rfl hrun
  set t := (Operation.intersection xs).apply layeredStore
  have hclass : t.shape ⟨7⟩ = .ok (.nominal ⟨1, 1⟩) := by decide +kernel
  have hunion : t.shape ⟨10⟩ = .ok (.union [⟨7⟩, ⟨5⟩, ⟨6⟩]) := by decide +kernel
  have hyes : ∀ {x answer}, Store.subtype ⟨12⟩ x t = .ok answer t → answer = true →
      Store.subtype ⟨12⟩ x t = .ok true t := fun hrun htrue => htrue ▸ hrun
  obtain ⟨answer, hthird, -, hiff⟩ := hbelow ⟨7⟩ (by simp [xs])
  have hthird := hyes hthird ((hiff hfree).mpr (.inr fun u members hu hshape => by
    rw [(Store.conjunct_of_closed hclass (.inl rfl)).mp hu, hclass] at hshape
    cases hshape))
  obtain ⟨answer', hall, -, hiff'⟩ := hbelow ⟨10⟩ (by simp [xs])
  have hall := hyes hall ((hiff' hfree).mpr (.inr fun u members hu hshape => by
    rw [(Store.conjunct_of_closed hunion (.inr rfl)).mp hu, hunion] at hshape
    cases hshape
    exact ⟨⟨7⟩, by simp, hthird⟩))
  exact ⟨hs, hxs, hnil, t, hrun, hfree, hthird, hall⟩

/-- The intersection of the union of two classes with the third class is below the third class and
not below the union. -/
theorem layeredStore_intersection_not_below :
    Reachable layeredStore ∧
      (Store.intersection [⟨8⟩, ⟨7⟩]).run' layeredStore = some ⟨11⟩ ∧
      layeredStore.IsTupleFree ⟨8⟩ ∧ layeredStore.IsTupleFree ⟨7⟩ ∧
      (Store.subtype ⟨11⟩ ⟨7⟩).run' layeredStore = some true ∧
      (Store.subtype ⟨11⟩ ⟨8⟩).run' layeredStore = some false :=
  ⟨.after (by decide), by decide +kernel, by decide +kernel, by decide +kernel,
    by decide +kernel, by decide +kernel⟩

/-- Two intersections that are equal from the time when a tuple is promoted, in a store whose hash
does not tell a tuple from an array type. -/
def collidingStore : Store :=
  [.nominal "Integer", .nominal "String", .nominal "Comparable", .union [⟨5⟩, ⟨6⟩], .tuple [⟨5⟩],
    .array ⟨5⟩, .intersection [⟨8⟩, ⟨9⟩], .intersection [⟨8⟩, ⟨10⟩], .array ⟨11⟩, .array ⟨12⟩,
    .intersection [⟨13⟩, ⟨7⟩], .promote ⟨9⟩].foldl (fun s op => Operation.apply op s)
    (.initial fun _ => 0)

/-- The intersection of an array type with a class is found to be an older one, in which a promoted
tuple occurs. It is not below the array type, although that has no union among its conjuncts. -/
theorem collidingStore_intersection_not_below :
    Reachable collidingStore ∧ collidingStore.IsTupleFree ⟨14⟩ ∧ collidingStore.IsTupleFree ⟨7⟩ ∧
      (Store.intersection [⟨14⟩, ⟨7⟩]).run' collidingStore = some ⟨15⟩ ∧
      collidingStore.shape ⟨14⟩ = .ok (.generic .arrayClass [⟨12⟩]) ∧
      (Store.subtype ⟨15⟩ ⟨14⟩).run' collidingStore = some false :=
  ⟨.foldl (.initial _) (by decide), by decide +kernel, by decide +kernel, by decide +kernel,
    by decide +kernel, by decide +kernel⟩

end GradualTypes
