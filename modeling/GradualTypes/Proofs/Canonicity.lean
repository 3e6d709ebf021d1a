import GradualTypes.Proofs.Reachability

/-!
One handle per type. Two types in which no tuple occurs are equal exactly when they are the same
handle: their components are equal only if they are the same, so equal types have the same
description, and a catalog gives one handle to a description.
-/

namespace GradualTypes

namespace Store

variable {s : Store} {a b : Handle} {left right : Shape}

private theorem WellFormed.eq_of_sameMembers (hs : s.WellFormed) (kind : SetKind)
    {members members' : List Handle} {traits traits' : Traits}
    (hslot : s.slot? a = some ⟨kind.node members, traits⟩)
    (hslot' : s.slot? b = some ⟨kind.node members', traits'⟩)
    (hsame : (∀ x ∈ members, ∃ y ∈ members', x = y) ∧ ∀ y ∈ members', ∃ x ∈ members, y = x) :
    a = b := by
  refine hs.gathered.unique hslot hslot' fun x => ⟨fun hx => ?_, fun hx => ?_⟩
  · obtain ⟨y, hy, rfl⟩ := hsame.1 x hx
    exact hy
  · obtain ⟨y, hy, rfl⟩ := hsame.2 x hx
    exact hy

/-- Types other than tuples that agree up to identity of their components are identical. -/
theorem WellFormed.eq_of_sameShapes (hs : s.WellFormed) (hleft : s.shape a = .ok left)
    (hright : s.shape b = .ok right) (hleft' : left.node?.isSome) (hright' : right.node?.isSome)
    (hsame : SameShapes Eq a left b right) : a = b := by
  unfold SameShapes at hsame
  split at hsame
  · cases hleft'
  · cases hright'
  · cases hleft'
  · obtain ⟨rfl, hparams⟩ := hsame
    rw [List.forall₂_eq_eq_eq] at hparams
    obtain ⟨_, hslot⟩ := slot_of_shape hleft rfl
    obtain ⟨_, hslot'⟩ := slot_of_shape hright rfl
    rw [hparams] at hslot
    exact hs.catalogued.unique rfl hslot hslot'
  · obtain ⟨_, hslot⟩ := slot_of_shape hleft rfl
    obtain ⟨_, hslot'⟩ := slot_of_shape hright rfl
    exact hs.eq_of_sameMembers .union hslot hslot' hsame
  · obtain ⟨_, hslot⟩ := slot_of_shape hleft rfl
    obtain ⟨_, hslot'⟩ := slot_of_shape hright rfl
    exact hs.eq_of_sameMembers .intersection hslot hslot' hsame
  · obtain ⟨rfl, rfl⟩ := hsame
    obtain ⟨_, hslot⟩ := slot_of_shape hleft rfl
    obtain ⟨_, hslot'⟩ := slot_of_shape hright rfl
    exact hs.catalogued.unique rfl hslot hslot'
  · exact hsame.elim

/-- Components are older than the types they belong to and hold no tuple either, so the comparison
goes down the handles and decides identity at each step. -/
theorem WellFormed.equalWithin_decides_eq (hs : s.WellFormed) (depth : Nat) (ha : s.IsTupleFree a)
    (hb : s.IsTupleFree b) (hdepth : a.index + b.index < depth) :
    Decides (s.equalWithin depth a b) (a = b) := by
  induction depth generalizing a b with
  | zero => omega
  | succ depth ih =>
    obtain ⟨left, hleft, hleft'⟩ := hs.shape_of_tupleFree ha
    obtain ⟨right, hright, hright'⟩ := hs.shape_of_tupleFree hb
    have hasks : ∀ x y, s.Asks a b x y → Decides (s.equalWithin depth x y) (x = y) := by
      intro x y hxy
      obtain ⟨hx, hy, hlt⟩ := hs.tupleFree_of_asks ha hb hxy
      exact ih hx hy (by omega)
    refine (equalWithin_decides_step hleft hright hasks).congr ⟨?_, .inl⟩
    rintro (hab | hsame)
    · exact hab
    · exact hs.eq_of_sameShapes hleft hright hleft' hright' hsame

theorem WellFormed.equal_decides_eq (hs : s.WellFormed) (ha : s.IsTupleFree a)
    (hb : s.IsTupleFree b) : Decides (s.equal a b) (a = b) := by
  have hlta := contains_iff.mp (hs.contains_of_tupleFree ha)
  have hltb := contains_iff.mp (hs.contains_of_tupleFree hb)
  exact hs.equalWithin_decides_eq (2 * s.size + 1) ha hb (by omega)

end Store

/-- In a reachable store two types in which no tuple occurs are equal if and only if they are the
same handle. -/
theorem Reachable.equal_eq_decide {s : Store} {a b : Handle} (hs : Reachable s)
    (ha : s.IsTupleFree a) (hb : s.IsTupleFree b) : s.equal a b = .ok (decide (a = b)) := by
  have hwf := hs.wellFormed
  have hlta := Store.contains_iff.mp (hwf.contains_of_tupleFree ha)
  have hltb := Store.contains_iff.mp (hwf.contains_of_tupleFree hb)
  exact (hwf.equalWithin_decides_eq (2 * s.size + 1) ha hb (by omega)).eq_decide

/-- A union and the array type of it, in a store with two tuples that bound each other. -/
theorem pairStore_union_ne_array :
    Reachable pairStore ∧ pairStore.IsTupleFree ⟨9⟩ ∧ pairStore.IsTupleFree ⟨10⟩ ∧
      pairStore.equal ⟨9⟩ ⟨10⟩ = .ok false ∧ pairStore.equal ⟨9⟩ ⟨9⟩ = .ok true := by
  have hunion : pairStore.IsTupleFree ⟨9⟩ := by decide +kernel
  have harray : pairStore.IsTupleFree ⟨10⟩ := by decide +kernel
  exact ⟨reachable_pairStore, hunion, harray,
    Reachable.equal_eq_decide reachable_pairStore hunion harray,
    Reachable.equal_eq_decide reachable_pairStore hunion hunion⟩

end GradualTypes
