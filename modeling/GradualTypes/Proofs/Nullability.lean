import GradualTypes.Proofs.Bounds
import GradualTypes.Proofs.Permanence
import GradualTypes.Proofs.Replay
import GradualTypes.Proofs.Widening

/-!
What a promotion does to values with nil in them. The elements of a tuple are united when it is
promoted, and a union drops nil. If nil belongs to another of the elements nothing is lost, and what
nil belongs to it never leaves. So a call that promotes only tuples that keep nil takes no value
from any type. If the tuple does not keep nil it loses all its values, as each of them holds nil at
the place of the type of nil.
-/

namespace GradualTypes

namespace Store

variable {s t u : Store} {h x y tuple element array : Handle} {v : Value} {params : List Handle}

section Kept

/-- Nil stays in every type it belongs to: there is nothing in it that could be lost. -/
private theorem Step.belongs_nil (hst : Step s t) (hs : s.WellFormed) (hh : s.contains h)
    (hmember : s.Belongs h .nil) : t.Belongs h .nil := by
  have hnone : ∀ v w : Value, v = .nil → w ∉ v.components := by
    rintro v w rfl hw
    cases hw
  exact @Step.belongs_of_good s t h .nil (· = .nil) (fun _ => True) hst hs
    (fun v w hv hw => absurd hw (hnone v w hv))
    (fun _ _ _ _ _ _ v w hv hw => absurd hw (hnone v w hv)) (fun _ _ _ _ => trivial) hh trivial rfl
    hmember

private theorem Steps.belongs_nil (hst : Steps s t) (hs : s.WellFormed) (hh : s.contains h)
    (hmember : s.Belongs h .nil) : t.Belongs h .nil := by
  induction hst with
  | refl => exact hmember
  | tail hsm hmt ih =>
    have hevolves := Steps.evolves hsm
    exact hmt.belongs_nil (hevolves.wellFormed hs) ((hevolves.persists hs).contains hh) ih

/-- A search makes no tuple, and what is a fixed tuple after a move was one before it. -/
private theorem Move.shape_of_tuple (hst : Move s t) (hs : s.WellFormed)
    (hshape : t.shape x = .ok (.tuple params)) : s.shape x = .ok (.tuple params) := by
  cases hst with
  | bound hlower hupper => exact ((alike_recorded s _ _).shape_eq x).symm.trans hshape
  | @promotion tuple _ _ _ _ _ hold hunion harray =>
    obtain ⟨hpromoted, hothers⟩ := shape_of_promotion hs hold hunion harray
    have hne : x ≠ tuple := by
      rintro rfl
      have hcontra := hpromoted.symm.trans hshape
      cases hcontra
    have hfixed := isFixed_of_shape hshape
    rw [IsFixed, tupleState?_promotedTo hs hold hunion harray, if_neg hne] at hfixed
    obtain ⟨state, hstate, -⟩ := Option.map_eq_some_iff.mp hfixed
    obtain ⟨shape, hshape'⟩ := hs.linked.exists_shape (contains_of_tupleState hstate)
    have heq := (hothers x shape hne hshape').symm.trans hshape
    cases heq
    exact hshape'
  | broken tuple => exact hshape

private theorem Moves.shape_of_tuple (hst : Moves s t) (hs : s.WellFormed)
    (hshape : t.shape x = .ok (.tuple params)) : s.shape x = .ok (.tuple params) := by
  induction hst with
  | refl => exact hshape
  | tail hsm hmt ih => exact ih (hmt.shape_of_tuple (Moves.settles hsm hs).wellFormed hshape)

/-- A type is met on the way down from another. From a promoted tuple the way goes on to the array
type that it stands for and to the elements of which it was made. -/
def Meets (t : Store) : Handle → Handle → Prop :=
  Relation.ReflTransGen fun x y => t.RefersTo x y ∨ t.HasPart x y

/-- What a type referred to before is still met from it: if it was promoted since, it was a tuple
and referred to its elements. -/
theorem Moves.meets_of_refersTo (hst : Moves s t) (hs : s.WellFormed) (hhx : t.Meets h x)
    (hxy : s.RefersTo x y) : t.Meets h y := by
  have hsettles := hst.settles hs
  obtain ⟨shape, hshape, hy⟩ := hxy
  refine hhx.tail ?_
  have hpersists := hst.steps.evolves.persists hs
  rcases hpersists.shape_cases hs.linked hsettles.wellFormed.linked hshape with
    hkept | ⟨params, array, rfl, -⟩
  · exact .inl ⟨shape, hkept, hy⟩
  · obtain ⟨digest, entry, traits, -, -, hslot, -⟩ := slot_of_shape_tuple hshape
    exact .inr ⟨_, node_of_slot (hsettles.slots hslot), hy⟩

/-- Membership in a type does not change as long as no tuple is promoted that is met from it. -/
theorem Moves.belongs_iff_of_fixed (hst : Moves s t) (hs : s.WellFormed)
    (hfixed : ∀ x params array, t.Meets h x → s.shape x = .ok (.tuple params) →
      t.shape x ≠ .ok (.promoted array)) (hh : s.contains h) :
    t.Belongs h v ↔ s.Belongs h v := by
  have hsettles := hst.settles hs
  have ht := hsettles.wellFormed
  have hpersists := hst.steps.evolves.persists hs
  refine belongs_iff_of_kept (t.Meets h) hs ht hsettles.toRetains (hst.shifts.hierarchy_eq hs)
    (fun x shape hx hshape => ⟨?_, fun y hy => hst.meets_of_refersTo hs hx ⟨shape, hshape, hy⟩⟩) hh
    .refl
  rcases hpersists.shape_cases hs.linked ht.linked hshape with hkept | ⟨params, array, rfl, hlost⟩
  · exact hkept
  · exact absurd hlost (hfixed x params array hx hshape)

/-- A search takes no value from a type if the tuples that it promotes keep nil, as far as they are
met from the type in the end. -/
theorem Moves.belongs_of_keepsNil (hst : Moves s t) (hs : s.WellFormed)
    (hkeeps : ∀ x params array, t.Meets h x → s.shape x = .ok (.tuple params) →
      t.shape x = .ok (.promoted array) → s.KeepsNil params)
    (hh : s.contains h) (hmember : s.Belongs h v) : t.Belongs h v := by
  suffices hbefore : ∀ m, Moves s m → Moves m t → m.Belongs h v from hbefore t hst .refl
  intro m hsm
  induction hsm with
  | refl => exact fun _ => hmember
  | @tail m m' hsm hmove ih =>
    intro hlast
    have hm := Moves.settles hsm hs
    have hm' := hmove.shifts.settles hm.wellFormed
    have hlater := hlast.steps.evolves.persists hm'.wellFormed
    refine @Step.belongs_of_good m m' h v (fun _ => True) (t.Meets h) (.move hmove) hm.wellFormed
      (fun _ _ _ _ => trivial) ?_ (fun x y hx hxy => hlast.meets_of_refersTo hm'.wellFormed hx hxy)
      (hm.contains hh) .refl trivial (ih (.head hmove hlast))
    intro x params array hx hshape hpromoted _ _ _ _
    -- the tuple was fixed at the start, and nil has not left its elements since
    have hstart := Moves.shape_of_tuple hsm hs hshape
    refine .inr ((hkeeps x params array hx hstart (hlater.promoted hpromoted)).imp
      fun p hp hpnil => ?_)
    exact (Moves.steps hsm).belongs_nil hs (hs.descends hstart hp).1 hpnil

end Kept

section Lost

variable (hs : s.WellFormed) (hshape : s.shape tuple = .ok (.tuple params))
  (hunion : formUnion params s = .ok element t) (harray : formArray element t = .ok array u)
include hs hshape hunion harray

/-- The elements of a tuple are below it, so its promotion does not matter to their union. -/
theorem belongs_element_promotedTo (hmember : (u.promotedTo tuple array).Belongs element v) :
    u.Belongs element v := by
  obtain ⟨hgrows, hcontains, -⟩ := element_isMadeOf hs hshape hunion harray
  have hu := hgrows.wellFormed hs
  have hafter := ((shifts_promotedTo hshape hunion harray).settles hs).wellFormed
  have hretains := retains_promotedTo u tuple array
  obtain ⟨hpromoted, hgeneric⟩ := shapes_promotedTo hs hshape hunion harray
  have hmem : element ∈ [Handle.arrayClass, element] :=
    List.mem_cons_of_mem _ List.mem_cons_self
  refine (belongs_iff_of_kept
    (fun x => (u.promotedTo tuple array).rank x < (u.promotedTo tuple array).rank tuple) hu hafter
    hretains (hierarchy_withState _) (fun x shape hlt hx => ?_) hcontains ?_).mp hmember
  · have hne : x ≠ tuple := by
      rintro rfl
      exact absurd hlt (lt_irrefl _)
    have hnew : (u.promotedTo tuple array).shape x = .ok shape :=
      (shape_withState hu.linked (.inl hne)).trans hx
    exact ⟨hnew, fun y hy => (hafter.descends hnew hy).2.trans hlt⟩
  · exact (hafter.descends hgeneric hmem).2.trans (hafter.descends hpromoted List.mem_cons_self).2

/-- A tuple that does not keep nil has none of its values after its promotion. -/
theorem not_belongs_promotedTo (hlost : ¬ s.KeepsNil params) (hmember : s.Belongs tuple v) :
    ¬ (u.promotedTo tuple array).Belongs tuple v := by
  obtain ⟨hgrows, -, hmade⟩ := element_isMadeOf hs hshape hunion harray
  have hafter := ((shifts_promotedTo hshape hunion harray).settles hs).wellFormed
  have hparams : ∀ p ∈ params, s.contains p := fun p hp => (hs.descends hshape hp).1
  obtain ⟨hnil, hothers⟩ : Handle.nil ∈ params ∧ ¬ ((∀ p ∈ params, p = .nil) ∨
      ∃ p ∈ params, p ≠ .nil ∧ s.member p .nil = .ok true) := Classical.not_imp.mp hlost
  obtain ⟨hsome, hnone⟩ := not_or.mp hothers
  -- the value holds nil where the type of nil stands
  obtain ⟨items, hitems, hforall⟩ := (hs.belongs_iff hshape).mp hmember
  obtain ⟨item, hitem, hinil⟩ := exists_mem_of_forall₂ hforall hnil
  obtain rfl := Value.isNil_iff.mp ((hs.belongs_iff hs.linked.tupleFree_nil.2).mp hinil)
  cases v with
  | array values =>
    cases hitems
    intro hbelongs
    obtain ⟨hpromoted, hgeneric⟩ := shapes_promotedTo hs hshape hunion harray
    rw [hafter.belongs_items_iff hpromoted hgeneric] at hbelongs
    have helement := belongs_element_promotedTo hs hshape hunion harray (hbelongs .nil hitem)
    have hne : ∃ p ∈ params, p ≠ .nil := by simpa using hsome
    rw [(hgrows.wellFormed hs).belongs_isMadeOf_iff (fun p hp => hgrows.contains (hparams p hp)) hne
      hmade] at helement
    obtain ⟨p, hp, hpnil⟩ := helement
    obtain ⟨hp, hpne⟩ := List.mem_filter.mp hp
    exact hnone ⟨p, hp, by simpa using hpne, (hgrows.belongs_iff hs (hparams p hp)).mp hpnil⟩
  | _ => cases hitems

end Lost

end Store

/-- In a reachable store the promotion of a fixed tuple takes none of its values from it in which
nil does not occur, and none at all if nil is kept by it and by every other tuple that the call
promotes and that is met from it in the end. If the tuple does not keep nil and the call promotes no
other that is met from it, it loses all its values. -/
theorem Reachable.member_promote {s : Store} {tuple : Handle} {params : List Handle}
    (hs : Reachable s) (hshape : s.shape tuple = .ok (.tuple params)) :
    ∃ consistent t, Store.promote tuple s = .ok consistent t ∧
      ∀ v, s.member tuple v = .ok true →
        ((v.NilFree ∨ ∀ x others, t.Meets tuple x → s.shape x = .ok (.tuple others) →
          t.isPromoted x = .ok true → s.KeepsNil others) → t.member tuple v = .ok true) ∧
        (¬ s.KeepsNil params → (∀ x others, t.Meets tuple x → s.shape x = .ok (.tuple others) →
          t.isPromoted x = .ok true → x = tuple) → t.member tuple v = .ok false) := by
  have hwf := hs.wellFormed
  have htuple := Store.Linked.contains_of_shape hshape
  obtain ⟨element, m, array, u, hunion, harray⟩ := Store.exists_promotion hwf hshape
  obtain ⟨consistent, t, hrun, hlast⟩ :=
    Store.promote_moves_of_tuple hwf hshape hunion harray
  have hfirst : Store.Move s (u.promotedTo tuple array) := .promotion hshape hunion harray
  have hmoves : Store.Moves s t := .head hfirst hlast
  have ht := (hmoves.settles hwf).wellFormed
  refine ⟨consistent, t, hrun, fun v hmember => ⟨?_, fun hlost honly => ?_⟩⟩
  · rintro (hv | hkeeps)
    · exact hmoves.steps.belongs hwf htuple hv hmember
    · refine hmoves.belongs_of_keepsNil hwf (fun x others _ hmet hx hpromoted => ?_) htuple hmember
      exact hkeeps x others hmet hx (ht.isPromoted_iff.mpr ⟨_, hpromoted⟩)
  · have hsettles := hfirst.shifts.settles hwf
    have hpromoted := (Store.shapes_promotedTo hwf hshape hunion harray).1
    have hiff : t.Belongs tuple v ↔ (u.promotedTo tuple array).Belongs tuple v := by
      refine hlast.belongs_iff_of_fixed hsettles.wellFormed (fun x others _ hmet hx hlater => ?_)
        (hsettles.contains htuple)
      have hlater := ht.isPromoted_iff.mpr ⟨_, hlater⟩
      obtain rfl := honly x others hmet (hfirst.shape_of_tuple hwf hx) hlater
      rw [hpromoted] at hx
      cases hx
    have hgone := Store.not_belongs_promotedTo hwf hshape hunion harray hlost hmember
    have hanswer := Decides.self (Store.member_answered ht ((hmoves.settles hwf).contains htuple) v)
    exact (hanswer.congr (iff_false_intro (mt hiff.mp hgone))).eq_decide

/-- Two tuples of nil and a symbol, one of them inside a third tuple, which has another tuple below
it, and a tuple of nil and a string. -/
def nilStore : Store :=
  .after [.symbol "a", .tuple [.nil, ⟨5⟩], .array ⟨5⟩, .tuple [.nil, ⟨5⟩], .array ⟨8⟩,
    .array ⟨7⟩, .tuple [⟨9⟩, ⟨10⟩], .tuple [.nil, ⟨10⟩], .subtype ⟨12⟩ ⟨11⟩, .nominal "String",
    .tuple [.nil, ⟨13⟩]]

/-- Nil belongs to the class of strings, so the last tuple of `nilStore` keeps a value that holds
nil when it is promoted. The first tuple loses all its values. -/
theorem nilStore_member_promote :
    let first := (Operation.promote ⟨6⟩).apply nilStore
    let last := (Operation.promote ⟨14⟩).apply nilStore
    Reachable nilStore ∧ nilStore.shape ⟨6⟩ = .ok (.tuple [.nil, ⟨5⟩]) ∧
      nilStore.shape ⟨14⟩ = .ok (.tuple [.nil, ⟨13⟩]) ∧ ¬ nilStore.KeepsNil [.nil, ⟨5⟩] ∧
      nilStore.member ⟨14⟩ (.array [.nil, .str "x"]) = .ok true ∧
      last.member ⟨14⟩ (.array [.nil, .str "x"]) = .ok true ∧
      ∀ v, nilStore.member ⟨6⟩ v = .ok true → first.member ⟨6⟩ v = .ok false := by
  intro first last
  have hs : Reachable nilStore := .after (by decide)
  have hfirst : nilStore.shape ⟨6⟩ = .ok (.tuple [.nil, ⟨5⟩]) := by decide +kernel
  have hlast : nilStore.shape ⟨14⟩ = .ok (.tuple [.nil, ⟨13⟩]) := by decide +kernel
  have hlost : ¬ nilStore.KeepsNil [.nil, ⟨5⟩] := by decide +kernel
  have hkept : nilStore.KeepsNil [.nil, ⟨13⟩] := by decide +kernel
  have hmember : nilStore.member ⟨14⟩ (.array [.nil, .str "x"]) = .ok true := by decide +kernel
  have honly : ∀ i : Fin 15, (first.isPromoted ⟨i⟩ = .ok true → i.val = 6) ∧
      (last.isPromoted ⟨i⟩ = .ok true → i.val = 14) := by
    decide +kernel
  have hsize : nilStore.size = 15 := by decide +kernel
  have hindex : ∀ {x others}, nilStore.shape x = .ok (.tuple others) → x.index < 15 := by
    intro x others hshape
    rw [← hsize]
    exact Store.contains_iff.mp (Store.Linked.contains_of_shape hshape)
  obtain ⟨_, t, hrun, hvalues⟩ := Reachable.member_promote hs hfirst
  obtain ⟨_, t', hrun', hvalues'⟩ := Reachable.member_promote hs hlast
  obtain rfl : first = t := Store.apply_promote hrun
  obtain rfl : last = t' := Store.apply_promote hrun'
  refine ⟨hs, hfirst, hlast, hlost, hmember, ?_, fun v hv => ?_⟩
  · refine (hvalues' _ hmember).1 (.inr fun x others _ hshape hpromoted => ?_)
    obtain rfl : x = ⟨14⟩ :=
      Handle.eq_of_index ((honly ⟨x.index, hindex hshape⟩).2 hpromoted)
    rw [hlast] at hshape
    cases hshape
    exact hkept
  · refine (hvalues v hv).2 hlost fun x others _ hshape hpromoted => ?_
    exact Handle.eq_of_index ((honly ⟨x.index, hindex hshape⟩).1 hpromoted)

/-- A value of the first tuple of `nilStore` holds nil, which does not belong to the symbol that is
left of its elements, so the promotion of the tuple takes the value from it. The third tuple has no
nil among its elements, but its promotion leads to that of the second one, and so it loses a value
as well. -/
theorem nilStore_member_lost :
    let a : Value := .symbol ⟨1, 1⟩
    let first := (Operation.promote ⟨6⟩).apply nilStore
    let third := (Operation.promote ⟨11⟩).apply nilStore
    Reachable nilStore ∧ nilStore.shape ⟨6⟩ = .ok (.tuple [.nil, ⟨5⟩]) ∧
      nilStore.member ⟨6⟩ (.array [.nil, a]) = .ok true ∧
      first.member ⟨6⟩ (.array [.nil, a]) = .ok false ∧
      nilStore.shape ⟨11⟩ = .ok (.tuple [⟨9⟩, ⟨10⟩]) ∧
      nilStore.member ⟨11⟩ (.array [.array [.array [.nil, a]], .array []]) = .ok true ∧
      third.member ⟨11⟩ (.array [.array [.array [.nil, a]], .array []]) = .ok false := by
  refine ⟨.after (by decide), ?_, ?_, ?_, ?_, ?_, ?_⟩ <;> decide +kernel

end GradualTypes
