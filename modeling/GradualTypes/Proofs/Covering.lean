import GradualTypes.Proofs.Equivalence

/-!
Lists of types that hold the same types up to equality. This is how unions and intersections are
compared, and it stays so as the store grows. Lists no two of whose types are equal can then be
matched: in some order of the second, equal types stand at the same positions. If both were arranged
from the same types, matched types are also at one place, since each was the first of its equals.
-/

namespace GradualTypes.Store

variable {s t : Store} {a b : Handle} {xs ys zs : List Handle}

/-- Types that were compared before compare alike in a store that has grown. -/
theorem Grows.equal_eq (hst : s.Grows t) (hs : s.WellFormed) (ha : s.contains a)
    (hb : s.contains b) : t.equal a b = s.equal a b := by
  induction hn : s.rank a + s.rank b using Nat.strong_induction_on generalizing a b with
  | _ n ih =>
    obtain ⟨left, hleft⟩ := hs.linked.exists_shape ha
    obtain ⟨right, hright⟩ := hs.linked.exists_shape hb
    have hsame : ∀ {x y}, s.contains x → s.contains y → s.rank x + s.rank y < n →
        (s.Same x y ↔ t.Same x y) := by
      intro x y hx hy hlt
      rw [Same, Same, ih _ hlt hx hy rfl]
    have hstep : SameShapes s.Same a left b right ↔ SameShapes t.Same a left b right := by
      apply SameShapes.congr
      · intro x hx
        obtain ⟨hcx, hlt⟩ := hs.descends hleft hx
        exact hsame hcx hb (by omega)
      · intro y hy
        obtain ⟨hcy, hlt⟩ := hs.descends hright hy
        exact hsame ha hcy (by omega)
      · intro x hx y hy
        obtain ⟨hcx, hltx⟩ := hs.descends hleft hx
        obtain ⟨hcy, hlty⟩ := hs.descends hright hy
        exact ⟨hsame hcx hcy (by omega), hsame hcy hcx (by omega)⟩
    have hbefore := hs.equal_decides ha hb hleft hright
    have hafter := (hst.wellFormed hs).equal_decides (hst.contains ha) (hst.contains hb)
      (hst.shape_eq hleft) (hst.shape_eq hright)
    exact hafter.unique (hbefore.congr (or_congr_right hstep))

def SameTypes (s : Store) (xs ys : List Handle) : Prop :=
  (∀ x ∈ xs, ∃ y ∈ ys, s.Same x y) ∧ ∀ y ∈ ys, ∃ x ∈ xs, s.Same y x

instance (s : Store) (xs ys : List Handle) : Decidable (s.SameTypes xs ys) :=
  inferInstanceAs (Decidable (_ ∧ _))

section SameTypes

theorem SameTypes.symm (h : s.SameTypes xs ys) : s.SameTypes ys xs :=
  And.symm h

theorem SameTypes.of_mem_iff (h : ∀ x, x ∈ xs ↔ x ∈ ys) : s.SameTypes xs ys := by
  constructor
  · intro x hx
    exact ⟨x, (h x).mp hx, s.same_refl x⟩
  · intro y hy
    exact ⟨y, (h y).mpr hy, s.same_refl y⟩

theorem WellFormed.sameTypes_trans (hs : s.WellFormed) (hxs : ∀ x ∈ xs, s.contains x)
    (hys : ∀ y ∈ ys, s.contains y) (hzs : ∀ z ∈ zs, s.contains z) (hxy : s.SameTypes xs ys)
    (hyz : s.SameTypes ys zs) : s.SameTypes xs zs := by
  constructor
  · intro x hx
    obtain ⟨y, hy, hsame⟩ := hxy.1 x hx
    obtain ⟨z, hz, hsame'⟩ := hyz.1 y hy
    exact ⟨z, hz, hs.same_trans (hxs x hx) (hys y hy) (hzs z hz) hsame hsame'⟩
  · intro z hz
    obtain ⟨y, hy, hsame⟩ := hyz.2 z hz
    obtain ⟨x, hx, hsame'⟩ := hxy.2 y hy
    exact ⟨x, hx, hs.same_trans (hzs z hz) (hys y hy) (hxs x hx) hsame hsame'⟩

theorem Grows.sameTypes_iff (hst : s.Grows t) (hs : s.WellFormed)
    (hxs : ∀ x ∈ xs, s.contains x) (hys : ∀ y ∈ ys, s.contains y) :
    t.SameTypes xs ys ↔ s.SameTypes xs ys := by
  have hsame : ∀ {x y}, s.contains x → s.contains y → (t.Same x y ↔ s.Same x y) := by
    intro x y hx hy
    rw [Same, Same, hst.equal_eq hs hx hy]
  have hcover : ∀ {as bs : List Handle}, (∀ x ∈ as, s.contains x) → (∀ y ∈ bs, s.contains y) →
      ((∀ x ∈ as, ∃ y ∈ bs, t.Same x y) ↔ ∀ x ∈ as, ∃ y ∈ bs, s.Same x y) := by
    intro as bs has hbs
    refine forall₂_congr fun x hx => exists_congr fun y => and_congr_right fun hy => ?_
    exact hsame (has x hx) (hbs y hy)
  exact and_congr (hcover hxs hys) (hcover hys hxs)

end SameTypes

section Matching

variable (hs : s.WellFormed)
include hs

theorem WellFormed.eq_of_same (hxs : ∀ x ∈ xs, s.contains x)
    (hunequal : xs.Pairwise fun x y => s.equal x y = .ok false) (ha : a ∈ xs) (hb : b ∈ xs)
    (hab : s.Same a b) : a = b := by
  have hneither : xs.Pairwise fun x y => ¬ s.Same x y ∧ ¬ s.Same y x := by
    refine hunequal.imp_of_mem fun {x y} hx hy hxy => ?_
    have hnot : ¬ s.Same x y := by
      rw [Same, hxy]
      simp
    exact ⟨hnot, fun hyx => hnot (hs.same_symm (hxs y hy) (hxs x hx) hyx)⟩
  have hsymm : Std.Symm fun x y => ¬ s.Same x y ∧ ¬ s.Same y x := ⟨fun _ _ => And.symm⟩
  by_contra hne
  exact (hneither.forall ha hb hne).1 hab

/-- Lists of the same types, in each of which no two are equal, can be matched. -/
theorem WellFormed.exists_matching (hxs : ∀ x ∈ xs, s.contains x) (hys : ∀ y ∈ ys, s.contains y)
    (hunequal : xs.Pairwise fun x y => s.equal x y = .ok false)
    (hunequal' : ys.Pairwise fun x y => s.equal x y = .ok false) (hsame : s.SameTypes xs ys) :
    ∃ zs, zs.Perm ys ∧ List.Forall₂ s.Same xs zs := by
  induction xs generalizing ys with
  | nil =>
    have hnil : ys = [] := by
      apply List.eq_nil_iff_forall_not_mem.mpr
      intro y hy
      obtain ⟨x, hx, -⟩ := hsame.2 y hy
      simp at hx
    exact ⟨[], by rw [hnil], .nil⟩
  | cons x xs ih =>
    obtain ⟨y, hy, hxy⟩ := hsame.1 x List.mem_cons_self
    have hcx := hxs x List.mem_cons_self
    have hcy := hys y hy
    -- what is left of each list is covered by what is left of the other
    have hrest : s.SameTypes xs (ys.erase y) := by
      constructor
      · intro x' hx'
        obtain ⟨y', hy', hxy'⟩ := hsame.1 x' (List.mem_cons_of_mem x hx')
        have hcx' := hxs x' (List.mem_cons_of_mem x hx')
        refine ⟨y', (List.mem_erase_of_ne ?_).mpr hy', hxy'⟩
        rintro rfl
        have hxx' : s.Same x x' :=
          hs.same_trans hcx hcy hcx' hxy (hs.same_symm hcx' hcy hxy')
        rw [Same, List.rel_of_pairwise_cons hunequal hx'] at hxx'
        cases hxx'
      · intro y' hy'
        have hmem := List.mem_of_mem_erase hy'
        obtain ⟨x', hx', hyx'⟩ := hsame.2 y' hmem
        rcases List.mem_cons.mp hx' with rfl | hx'
        · have hyy' : s.Same y' y := hs.same_trans (hys y' hmem) hcx hcy hyx' hxy
          have hne : y' ≠ y := by
            rintro rfl
            exact (nodup_of_unequal hunequal').not_mem_erase hy'
          exact absurd (hs.eq_of_same hys hunequal' hmem hy hyy') hne
        · exact ⟨x', hx', hyx'⟩
    obtain ⟨zs, hperm, hzs⟩ := ih (fun z hz => hxs z (List.mem_cons_of_mem x hz))
      (fun z hz => hys z (List.mem_of_mem_erase hz)) hunequal.of_cons
      (hunequal'.sublist List.erase_sublist) hrest
    exact ⟨y :: zs, (hperm.cons y).trans (List.perm_cons_erase hy).symm, .cons hxy hzs⟩

end Matching

section Arranged

variable {types types' : List Handle} (hs : s.WellFormed) (htypes : ∀ x ∈ types, s.contains x)
include hs htypes

theorem Arranged.sameTypes (harranged : s.Arranged types xs) : s.SameTypes xs types := by
  constructor
  · intro x hx
    exact ⟨x, harranged.subset hx, s.same_refl x⟩
  · intro x hx
    obtain ⟨y, hy, hyx, -⟩ := harranged.first x hx
    exact ⟨y, hy, hs.same_symm (htypes y (harranged.subset hy)) (htypes x hx) hyx⟩

/-- An arranged type is placed no later than the types it is equal to. -/
theorem Arranged.isLE_of_same (harranged : s.Arranged types xs) (ha : a ∈ xs) (hb : b ∈ types)
    (hab : s.Same a b) : (s.place a b).isLE := by
  have hxs : ∀ x ∈ xs, s.contains x := fun x hx => htypes x (harranged.subset hx)
  obtain ⟨y, hy, hyb, hle⟩ := harranged.first b hb
  have hba : s.Same b a := hs.same_symm (hxs a ha) (htypes b hb) hab
  have hya : s.Same y a := hs.same_trans (hxs y hy) (htypes b hb) (hxs a ha) hyb hba
  rw [← hs.eq_of_same hxs harranged.unequal hy ha hya]
  exact hle

/-- Equal types that were arranged from the same types are at one place. -/
theorem Arranged.place_eq_of_same (harranged : s.Arranged types xs)
    (harranged' : s.Arranged types' ys) (hmem : ∀ x, x ∈ types ↔ x ∈ types') (ha : a ∈ xs)
    (hb : b ∈ ys) (hab : s.Same a b) : s.place a b = .eq := by
  have htypes' : ∀ x ∈ types', s.contains x := fun x hx => htypes x ((hmem x).mpr hx)
  have hamem := harranged.subset ha
  have hbmem := harranged'.subset hb
  have hba : s.Same b a := hs.same_symm (htypes a hamem) (htypes' b hbmem) hab
  apply Std.OrientedCmp.isLE_antisymm
  · exact harranged.isLE_of_same hs htypes ha ((hmem b).mpr hbmem) hab
  · exact harranged'.isLE_of_same hs htypes' hb ((hmem a).mp hamem) hba

end Arranged

/-- Types that were arranged before are still arranged in a store that has grown. -/
theorem Grows.arranged {types : List Handle} (hst : s.Grows t) (hs : s.WellFormed)
    (htypes : ∀ x ∈ types, s.contains x) (harranged : s.Arranged types xs) :
    t.Arranged types xs := by
  have hxs : ∀ x ∈ xs, s.contains x := fun x hx => htypes x (harranged.subset hx)
  have hnames : s.names.Keeps t.names := by
    rw [hst.names_eq]
    exact .refl s.names
  have hplace : ∀ {x y}, s.contains x → s.contains y → t.place x y = s.place x y :=
    place_eq hst.toRetains hnames hs.linked hs.named
  refine ⟨harranged.subset, ?_, ?_, ?_⟩
  · refine harranged.sorted.imp_of_mem fun {x y} hx hy hle => ?_
    rw [hplace (hxs x hx) (hxs y hy)]
    exact hle
  · refine harranged.unequal.imp_of_mem fun {x y} hx hy hxy => ?_
    rw [hst.equal_eq hs (hxs x hx) (hxs y hy)]
    exact hxy
  · intro x hx
    obtain ⟨y, hy, hyx, hle⟩ := harranged.first x hx
    refine ⟨y, hy, ?_, ?_⟩
    · rw [hst.equal_eq hs (hxs y hy) (htypes x hx)]
      exact hyx
    · rw [hplace (hxs y hy) (htypes x hx)]
      exact hle

end GradualTypes.Store
