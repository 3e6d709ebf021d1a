import GradualTypes.Proofs.Membership
import GradualTypes.Proofs.Unpromoted

/-!
Membership never shrinks. A promotion takes a tuple to the array type of the union of its elements.
A value of the tuple is an array of which each item belongs to one of the elements, and so to their
union, even if that is an older one with other, equal members. Only nil can be lost, because a union
drops it, unless it belongs to another of the elements. So no step takes a value in which nil does
not occur from a type; only the declaration of a superclass can.
-/

namespace GradualTypes

namespace Store

variable {s t u : Store} {h : Handle} {v : Value}

section Classes

theorem hierarchy_withState (change : TupleState → TupleState) :
    (s.withState h change).hierarchy = s.hierarchy := by
  rcases withState_cases s h change with heq | ⟨_, _, -, -, heq⟩ <;> rw [heq]

private theorem Shift.hierarchy_eq (hst : Shift s t) (hs : s.WellFormed) :
    t.hierarchy = s.hierarchy := by
  cases hst with
  | bound hlower hupper => rw [hierarchy_withState, hierarchy_withState]
  | promotion hshape hunion harray =>
    obtain ⟨parts, -, hset, hformed⟩ := promotion_formed hs hshape hunion harray
    rw [hierarchy_withState]
    exact (hset.grows.trans hformed.grows).hierarchy_eq
  | report event => rfl

/-- A search does not touch the classes. -/
theorem Shifts.hierarchy_eq (hst : Shifts s t) (hs : s.WellFormed) :
    t.hierarchy = s.hierarchy := by
  induction hst with
  | refl => rfl
  | tail hsm hmt ih => exact (hmt.hierarchy_eq (Shifts.settles hsm hs).wellFormed).trans ih

end Classes

/-- An array belongs to a promoted tuple if its items belong to the element of the array type. -/
theorem WellFormed.belongs_items_iff {tuple array element : Handle} {items : List Value}
    (hs : s.WellFormed) (htuple : s.shape tuple = .ok (.promoted array))
    (harray : s.shape array = .ok (.generic .arrayClass [element])) :
    s.Belongs tuple (.array items) ↔ ∀ item ∈ items, s.Belongs element item := by
  rw [hs.belongs_iff htuple, BelongsBy, hs.belongs_iff harray, BelongsBy, BelongsByParams,
    if_pos rfl]

/-- Nil is not lost when the elements of a tuple are united: if its type is among them it belongs to
another of them as well, unless there are no others. -/
def KeepsNil (s : Store) (params : List Handle) : Prop :=
  .nil ∈ params → (∀ p ∈ params, p = .nil) ∨ ∃ p ∈ params, p ≠ .nil ∧ s.member p .nil = .ok true

instance (s : Store) (params : List Handle) : Decidable (s.KeepsNil params) :=
  inferInstanceAs (Decidable (_ → _))

theorem KeepsNil.imp {params : List Handle} (hs : s.KeepsNil params)
    (hkeeps : ∀ p ∈ params, s.Belongs p .nil → t.Belongs p .nil) : t.KeepsNil params := by
  intro hnil
  rcases hs hnil with hall | ⟨p, hp, hne, hmember⟩
  · exact .inl hall
  · exact .inr ⟨p, hp, hne, hkeeps p hp hmember⟩

section Promotion

variable {tuple element array : Handle} {params : List Handle} (hs : s.WellFormed)
  (hshape : s.shape tuple = .ok (.tuple params)) (hunion : formUnion params s = .ok element t)
  (harray : formArray element t = .ok array u)
include hs hshape hunion harray

/-- What a promotion makes of the tuple, and of which element. -/
theorem shapes_promotedTo :
    (u.promotedTo tuple array).shape tuple = .ok (.promoted array) ∧
      (u.promotedTo tuple array).shape array = .ok (.generic .arrayClass [element]) := by
  obtain ⟨parts, -, hset, hformed⟩ := promotion_formed hs hshape hunion harray
  obtain ⟨traits, hslot⟩ := hformed.slot
  refine ⟨(shape_of_promotion hs hshape hunion harray).1, ?_⟩
  exact shape_eq_ok_iff.mpr ⟨_, (retains_withState u tuple _).slots hslot, rfl⟩

/-- The element of the array type is the union of the elements of the tuple. -/
theorem element_isMadeOf :
    s.Grows u ∧ u.contains element ∧ u.IsMadeOf .union params element := by
  obtain ⟨-, -, -, hformed⟩ := promotion_formed hs hshape hunion harray
  have hparams : ∀ p ∈ params, s.contains p := fun p hp => (hs.descends hshape hp).1
  obtain ⟨hst, hcontains, hmade⟩ :=
    (hs.make_returns .union hparams).of_run ((union_run hparams).trans hunion)
  exact ⟨hst.trans hformed.grows, hformed.grows.contains hcontains,
    hformed.grows.isMadeOf (hst.wellFormed hs) (fun p hp => hst.contains (hparams p hp)) hmade⟩

/-- What belongs to an element of the tuple belongs to the union of the elements. -/
theorem belongs_element {p : Handle} (hp : p ∈ params)
    (hv : v.isNil = false ∨ u.KeepsNil params) (hmember : u.Belongs p v) :
    u.Belongs element v := by
  obtain ⟨hgrows, -, hmade⟩ := element_isMadeOf hs hshape hunion harray
  have hu := hgrows.wellFormed hs
  have hparams : ∀ p ∈ params, u.contains p := fun p hp =>
    hgrows.contains (hs.descends hshape hp).1
  have hother : ∀ q ∈ params, q ≠ .nil → u.Belongs q v → u.Belongs element v := by
    intro q hq hne hqv
    rw [hu.belongs_isMadeOf_iff hparams ⟨q, hq, hne⟩ hmade]
    exact ⟨q, List.mem_filter.mpr ⟨hq, by simpa using hne⟩, hqv⟩
  by_cases hne : p = .nil
  · -- nil is dropped, so another element has to have it
    subst hne
    have hnil : v.isNil = true := (hu.belongs_iff hu.linked.tupleFree_nil.2).mp hmember
    obtain rfl := Value.isNil_iff.mp hnil
    rcases hv.resolve_left (by simp [hnil]) hp with hall | ⟨q, hq, hne, hqv⟩
    · rw [hu.eq_nil_of_isMadeOf hall hmade]
      exact hmember
    · exact hother q hq hne hqv
  · exact hother p hp hne hmember

/-- A promotion takes no value from a type if nil is kept wherever it occurs in the value, should
the tuple be near the type. The induction is on the rank after the promotion, by which the elements
of the array type are below the tuple. -/
theorem belongs_promotedTo {good : Value → Prop} {near : Handle → Prop}
    (hgood : ∀ v w, good v → w ∈ v.components →
      good w ∧ (near tuple → w.isNil = false ∨ u.KeepsNil params))
    (hclosed : ∀ x y, near x → (u.promotedTo tuple array).RefersTo x y → near y)
    (hh : u.contains h) (hnear : near h) (hv : good v) (hmember : u.Belongs h v) :
    (u.promotedTo tuple array).Belongs h v := by
  obtain ⟨parts, -, hset, hformed⟩ := promotion_formed hs hshape hunion harray
  have hgrows := hset.grows.trans hformed.grows
  have hu := hgrows.wellFormed hs
  have htuple := hgrows.shape_eq hshape
  have hafter := ((shifts_promotedTo hshape hunion harray).settles hs).wellFormed
  have hretains := retains_promotedTo u tuple array
  obtain ⟨hpromoted, hgeneric⟩ := shapes_promotedTo hs hshape hunion harray
  obtain ⟨traits, hslot⟩ := hformed.slot
  induction hn : (u.promotedTo tuple array).rank h using Nat.strong_induction_on
    generalizing h v with
  | _ n ih =>
    by_cases heq : h = tuple
    · subst heq
      obtain ⟨items, hitems, hforall⟩ := (hu.belongs_iff htuple).mp hmember
      obtain ⟨-, hlt⟩ := hafter.descends hpromoted List.mem_cons_self
      obtain ⟨-, hlt'⟩ := hafter.descends hgeneric (List.mem_cons_of_mem _ List.mem_cons_self)
      cases v with
      | array values =>
        cases hitems
        refine (hafter.belongs_items_iff hpromoted hgeneric).mpr fun item hitem => ?_
        obtain ⟨hitem', hnil⟩ := hgood _ item hv hitem
        obtain ⟨p, hp, hpitem⟩ := exists_mem_of_forall₂ hforall.flip hitem
        have helement := belongs_element hs hshape hunion harray hp (hnil hnear) hpitem
        have hcontains : u.contains element :=
          hu.linked.contains_of_refs hslot (List.mem_cons_of_mem _ List.mem_cons_self)
        have harraynear := hclosed h array hnear ⟨_, hpromoted, List.mem_cons_self⟩
        have hnear' := hclosed array element harraynear
          ⟨_, hgeneric, List.mem_cons_of_mem _ List.mem_cons_self⟩
        exact ih _ (by omega) hcontains hnear' hitem' helement rfl
      | _ => cases hitems
    · obtain ⟨shape, hold⟩ := hu.linked.exists_shape hh
      have hnew : (u.promotedTo tuple array).shape h = .ok shape :=
        (shape_withState hu.linked (.inl heq)).trans hold
      rw [hafter.belongs_iff hnew]
      refine belongsBy_imp (hierarchy_withState _) (fun x hx => ?_) (fun x hx w hw hxw => ?_)
        ((hu.belongs_iff hold).mp hmember)
      · obtain ⟨slot, hslot⟩ := exists_slot (hu.descends hold hx).1
        rw [node_of_slot hslot, node_of_slot (hretains.slots hslot)]
      · have hw : good w := hw.elim (fun heq => heq ▸ hv) fun hw => (hgood v w hv hw).1
        obtain ⟨-, hlt⟩ := hafter.descends hnew hx
        have hnear' := hclosed h x hnear ⟨shape, hnew, hx⟩
        exact ih _ (by omega) (hu.descends hold hx).1 hnear' hw hxw rfl

end Promotion

section Steps

/-- Membership in the types of a store does not change as long as no shape and no class does. -/
theorem belongs_iff_of_shapes (hs : s.WellFormed) (ht : t.WellFormed) (hretains : s.Retains t)
    (hhierarchy : t.hierarchy = s.hierarchy) (hshape : ∀ h, t.shape h = s.shape h)
    (hh : s.contains h) : t.Belongs h v ↔ s.Belongs h v :=
  belongs_iff_of_kept (s.contains ·) hs ht hretains hhierarchy
    (fun x _ _ hx => ⟨(hshape x).trans hx, fun _ hy => (hs.descends hx hy).1⟩) hh hh

/-- A step takes no value from a type if nil is kept wherever it occurs in the value, should the
step be a promotion of a tuple near the type. -/
theorem Step.belongs_of_good {good : Value → Prop} {near : Handle → Prop} (hst : Step s t)
    (hs : s.WellFormed) (hgood : ∀ v w, good v → w ∈ v.components → good w)
    (hkeeps : ∀ tuple params array, near tuple → s.shape tuple = .ok (.tuple params) →
      t.shape tuple = .ok (.promoted array) → ∀ v w, good v → w ∈ v.components →
        w.isNil = false ∨ s.KeepsNil params)
    (hclosed : ∀ x y, near x → t.RefersTo x y → near y)
    (hh : s.contains h) (hnear : near h) (hv : good v) (hmember : s.Belongs h v) :
    t.Belongs h v := by
  have ht := hst.evolves.wellFormed hs
  cases hst with
  | add hadds =>
    obtain ⟨node, traits, digest, ha, rfl⟩ := hadds
    exact ((Formed.made ha).grows.belongs_iff hs hh).mpr hmember
  | move hmove =>
    cases hmove with
    | @bound lower upper _ hlower hupper =>
      have halike := alike_recorded s lower upper
      refine (belongs_iff_of_shapes hs ht ?_ ?_ halike.shape_eq hh).mpr hmember
      · exact ((Move.bound hlower hupper).shifts.settles hs).toRetains
      · rw [hierarchy_withState, hierarchy_withState]
    | promotion hshape hunion harray =>
      obtain ⟨parts, -, hset, hformed⟩ := promotion_formed hs hshape hunion harray
      have hgrows := hset.grows.trans hformed.grows
      refine belongs_promotedTo hs hshape hunion harray
        (fun v w hv hw => ⟨hgood v w hv hw, fun htuple => ?_⟩) hclosed (hgrows.contains hh) hnear hv
        ((hgrows.belongs_iff hs hh).mpr hmember)
      refine (hkeeps _ _ _ htuple hshape (shape_of_promotion hs hshape hunion harray).1 v w hv
        hw).imp id fun hkeeps => hkeeps.imp fun p hp hpnil => ?_
      exact (hgrows.belongs_iff hs (hs.descends hshape hp).1).mpr hpnil
    | broken tuple =>
      exact (belongs_iff_of_shapes hs ht (.of_slots rfl rfl) rfl (fun _ => rfl) hh).mpr hmember
  | intern hintern =>
    exact (belongs_iff_of_shapes hs ht (.of_slots rfl rfl) rfl (fun _ => rfl) hh).mpr hmember

theorem Step.belongs (hst : Step s t) (hs : s.WellFormed) (hh : s.contains h) (hv : v.NilFree)
    (hmember : s.Belongs h v) : t.Belongs h v := by
  refine @Step.belongs_of_good s t h v Value.NilFree (fun _ => True) hst hs
    (fun _ _ hv hw => hv.component hw) (fun _ _ _ _ _ _ v w hv hw => ?_) (fun _ _ _ _ => trivial) hh
    trivial hv hmember
  exact .inl (hv.component hw).isNil_eq_false

theorem Steps.belongs (hst : Steps s t) (hs : s.WellFormed) (hh : s.contains h) (hv : v.NilFree)
    (hmember : s.Belongs h v) : t.Belongs h v := by
  induction hst with
  | refl => exact hmember
  | @tail m t hsm hmt ih =>
    have hevolves := Steps.evolves hsm
    have hcontains := (hevolves.persists hs).contains hh
    exact hmt.belongs (hevolves.wellFormed hs) hcontains hv ih

private theorem contains_of_belongs (hmember : s.Belongs h v) : s.contains h := by
  obtain ⟨shape, hshape, -⟩ := bind_eq_ok_iff.mp hmember
  exact Linked.contains_of_shape hshape

end Steps

end Store

/-- In a reachable store a value in which nil does not occur belongs to a type for good: whatever is
made, instantiated, compared or promoted later, it still does, as long as no superclass is declared.
-/
theorem Reachable.member_persists {s t : Store} {h : Handle} {v : Value} (hs : Reachable s)
    (hst : Leads (fun op => op.isDeclaration = false) s t) (hv : v.NilFree)
    (hmember : s.member h v = .ok true) : t.member h v = .ok true :=
  have hsteps : Store.Steps s t := hst.steps hs fun _ hop => hop
  hsteps.belongs hs.wellFormed (Store.contains_of_belongs hmember) hv hmember

/-- The tuples of `pairStore` bound each other, so a search for one of them below the array type of
their elements promotes the other as well. It keeps its values. -/
theorem pairStore_member_persists :
    let v := Value.array [.int 1, .str "one"]
    let t := (Operation.subtype ⟨7⟩ ⟨10⟩).apply pairStore
    Reachable pairStore ∧ Leads (fun op => op.isDeclaration = false) pairStore t ∧ v.NilFree ∧
      pairStore.isPromoted ⟨8⟩ = .ok false ∧ t.isPromoted ⟨8⟩ = .ok true ∧
      pairStore.member ⟨8⟩ v = .ok true ∧ t.member ⟨8⟩ v = .ok true := by
  intro v t
  have hst : Leads (fun op => op.isDeclaration = false) pairStore t := .step _ .refl rfl trivial
  have hv : v.NilFree := by
    refine .array ?_
    simp only [List.forall_mem_cons, List.not_mem_nil, false_imp_iff, implies_true, and_true]
    exact ⟨.int 1, .str "one"⟩
  have hmember : pairStore.member ⟨8⟩ v = .ok true := by decide +kernel
  refine ⟨reachable_pairStore, hst, hv, ?_, ?_, hmember,
    Reachable.member_persists reachable_pairStore hst hv hmember⟩
  · decide +kernel
  · decide +kernel

end GradualTypes
