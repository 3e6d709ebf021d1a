import GradualTypes.Proofs.Equality
import GradualTypes.Proofs.Ordering

/-!
How the members of unions and intersections are arranged. Types of the store are sorted by their
places, and of equal types the first is kept. So arranging types has a result, which is sorted,
holds no two equal types, and has for every type an equal one that is placed no later.
-/

namespace GradualTypes

theorem bind_eq_ok_iff {α β : Type} {x : Except Error α} {f : α → Except Error β} {b : β} :
    (x >>= f) = .ok b ↔ ∃ a, x = .ok a ∧ f a = .ok b := by
  cases x with
  | error e =>
    constructor
    · intro h
      cases h
    · rintro ⟨a, ha, -⟩
      cases ha
  | ok a =>
    constructor
    · intro h
      exact ⟨a, rfl, h⟩
    · rintro ⟨a', ha, h⟩
      cases ha
      exact h

/-- Sorting by a lawful comparison leaves no element before a smaller one. -/
theorem pairwise_insertionSort_isLE {α : Type} (cmp : α → α → Ordering) [Std.TransCmp cmp]
    (xs : List α) :
    (xs.insertionSort fun a b => (cmp a b).isLE).Pairwise fun a b => (cmp a b).isLE := by
  have htotal : Std.Total fun a b => (cmp a b).isLE = true := ⟨fun a b => by
    have hswap : cmp a b = (cmp b a).swap := Std.OrientedCmp.eq_swap
    rw [hswap]
    cases cmp b a <;> simp⟩
  have htrans : IsTrans α fun a b => (cmp a b).isLE = true :=
    ⟨fun _ _ _ => Std.TransCmp.isLE_trans⟩
  exact List.pairwise_insertionSort _ xs

namespace Lifting

section Sorting

variable {α : Type} {cmp : α → α → Except Error Ordering} {place : α → α → Ordering}

private theorem insertSorted_eq {a : α} {bs : List α} (h : ∀ b ∈ bs, cmp a b = .ok (place a b)) :
    insertSorted cmp a bs = .ok (bs.orderedInsert (fun x y => (place x y).isLE) a) := by
  induction bs with
  | nil => rfl
  | cons b bs ih =>
    have htail := ih fun x hx => h x (List.mem_cons_of_mem b hx)
    rw [insertSorted, h b List.mem_cons_self, List.orderedInsert]
    cases hplace : place a b with
    | gt =>
      change (do return b :: (← insertSorted cmp a bs)) = _
      rw [htail]
      rfl
    | lt => rfl
    | eq => rfl

/-- A list whose elements can be compared is sorted by insertion. -/
theorem sort_eq {xs : List α} (h : ∀ a ∈ xs, ∀ b ∈ xs, cmp a b = .ok (place a b)) :
    sort cmp xs = .ok (xs.insertionSort fun x y => (place x y).isLE) := by
  induction xs with
  | nil => rfl
  | cons x xs ih =>
    have htail := ih fun a ha b hb =>
      h a (List.mem_cons_of_mem x ha) b (List.mem_cons_of_mem x hb)
    have hperm := List.perm_insertionSort (fun x y => (place x y).isLE) xs
    rw [sort, htail, List.insertionSort_cons]
    apply insertSorted_eq
    intro b hb
    exact h x List.mem_cons_self b (List.mem_cons_of_mem x (hperm.mem_iff.mp hb))

end Sorting

section Selection

variable {α : Type} {rel : α → α → Except Error Bool} {R : α → α → Prop} {kept xs : List α}

/-- What is kept of a list: some of its elements, no two of them related, and for every element that
is not kept one that is related to it and stood before it. -/
structure Selects (rel : α → α → Except Error Bool) (R : α → α → Prop) (xs kept : List α) :
    Prop where
  sublist : kept.Sublist xs
  unrelated : kept.Pairwise fun a b => rel a b = .ok false
  first : ∀ x ∈ xs, x ∈ kept ∨ ∃ y ∈ kept, rel y x = .ok true ∧ R y x

/-- An element is dropped if it is related to one kept before, and kept otherwise. -/
theorem distinctAfter_cons {x : α} (xs : List α)
    (hrel : ∀ seen ∈ kept, ∃ answer, rel seen x = .ok answer) :
    (∃ seen ∈ kept, rel seen x = .ok true) ∧
        distinctAfter rel kept (x :: xs) = distinctAfter rel kept xs ∨
      (∀ seen ∈ kept, rel seen x = .ok false) ∧
        distinctAfter rel kept (x :: xs) = distinctAfter rel (kept ++ [x]) xs := by
  have hany : Decides (kept.anyM fun seen => rel seen x) (∃ seen ∈ kept, rel seen x = .ok true) :=
    .anyM fun seen hseen => .self (hrel seen hseen)
  obtain ⟨answer, hanswer, hiff⟩ := hany
  rw [distinctAfter, hanswer]
  cases answer with
  | true => exact .inl ⟨hiff.mp rfl, rfl⟩
  | false =>
    refine .inr ⟨fun seen hseen => ?_, rfl⟩
    obtain ⟨found, hfound⟩ := hrel seen hseen
    cases found with
    | true => exact absurd (hiff.mpr ⟨seen, hseen, hfound⟩) (by simp)
    | false => exact hfound

/-- Selection goes through the list and keeps what it kept before. The elements are taken to stand
in a relation to those behind them, so that it is known of what stood before. -/
private theorem distinctAfter_selects
    (hrel : ∀ a ∈ kept ++ xs, ∀ b ∈ xs, ∃ answer, rel a b = .ok answer)
    (hR : (kept ++ xs).Pairwise R) (hkept : kept.Pairwise fun a b => rel a b = .ok false) :
    ∃ result, distinctAfter rel kept xs = .ok result ∧ kept ⊆ result ∧
      Selects rel R (kept ++ xs) result := by
  induction xs generalizing kept with
  | nil =>
    simp only [List.append_nil]
    exact ⟨kept, rfl, List.Subset.refl kept, List.Sublist.refl kept, hkept, fun x hx => .inl hx⟩
  | cons x xs ih =>
    have hdrop : (kept ++ xs).Sublist (kept ++ x :: xs) :=
      (List.sublist_cons_self x xs).append_left kept
    have hcases := distinctAfter_cons xs fun seen hseen =>
      hrel seen (List.mem_append_left _ hseen) x List.mem_cons_self
    rcases hcases with ⟨⟨seen, hseen, htrue⟩, hrun⟩ | ⟨hfalse, hrun⟩
    · obtain ⟨result, hresult, hsub, hselects⟩ := ih
        (fun a ha b hb => hrel a (hdrop.subset ha) b (List.mem_cons_of_mem x hb))
        (hR.sublist hdrop) hkept
      have hseenx : R seen x := (List.pairwise_append.mp hR).2.2 seen hseen x List.mem_cons_self
      refine ⟨result, hrun.trans hresult, hsub, hselects.sublist.trans hdrop, hselects.unrelated,
        fun z hz => ?_⟩
      rcases List.mem_append.mp hz with hz | hz
      · exact hselects.first z (List.mem_append_left _ hz)
      rcases List.mem_cons.mp hz with rfl | hz
      · exact .inr ⟨seen, hsub hseen, htrue, hseenx⟩
      · exact hselects.first z (List.mem_append_right _ hz)
    · have hnext : (kept ++ [x]).Pairwise fun a b => rel a b = .ok false := by
        simpa [List.pairwise_append, hkept] using hfalse
      obtain ⟨result, hresult, hsub, hselects⟩ := @ih (kept ++ [x])
        (fun a ha b hb => hrel a (by simpa using ha) b (List.mem_cons_of_mem x hb))
        (by simpa using hR) hnext
      rw [List.append_assoc, List.singleton_append] at hselects
      exact ⟨result, hrun.trans hresult, fun z hz => hsub (List.mem_append_left _ hz), hselects⟩

/-- Of a list without related elements everything is kept. -/
private theorem distinctAfter_eq (h : (kept ++ xs).Pairwise fun a b => rel a b = .ok false) :
    distinctAfter rel kept xs = .ok (kept ++ xs) := by
  induction xs generalizing kept with
  | nil => simp [distinctAfter, pure, Except.pure]
  | cons x xs ih =>
    have hbefore := (List.pairwise_append.mp h).2.2
    have hfalse : ∀ seen ∈ kept, rel seen x = .ok false := fun seen hseen =>
      hbefore seen hseen x List.mem_cons_self
    rcases distinctAfter_cons xs fun seen hseen => ⟨false, hfalse seen hseen⟩ with
      ⟨⟨seen, hseen, htrue⟩, -⟩ | ⟨-, hrun⟩
    · rw [hfalse seen hseen] at htrue
      cases htrue
    · rw [hrun, ih (by simpa using h)]
      simp

end Selection

end Lifting

namespace Store

variable {s : Store} {types members : List Handle}

/-- Types sorted by their places; types at one place stay in the order they had. -/
def sortedTypes (s : Store) (types : List Handle) : List Handle :=
  types.insertionSort fun a b => (s.place a b).isLE

theorem sortedTypes_perm (s : Store) (types : List Handle) : (s.sortedTypes types).Perm types :=
  List.perm_insertionSort _ types

private theorem sortedTypes_pairwise (s : Store) (types : List Handle) :
    (s.sortedTypes types).Pairwise fun a b => (s.place a b).isLE :=
  pairwise_insertionSort_isLE s.place types

structure Arranged (s : Store) (types members : List Handle) : Prop where
  subset : members ⊆ types
  sorted : members.Pairwise fun a b => (s.place a b).isLE
  unequal : members.Pairwise fun a b => s.equal a b = .ok false
  first : ∀ x ∈ types, ∃ y ∈ members, s.equal y x = .ok true ∧ (s.place y x).isLE

/-- Types no two of which are equal are different handles. -/
theorem nodup_of_unequal (h : types.Pairwise fun a b => s.equal a b = .ok false) :
    types.Nodup := by
  apply h.imp
  intro a b hab heq
  rw [heq, equal_self] at hab
  cases hab

section Sound

variable (hs : s.Linked) (hnamed : s.Named)
include hs hnamed

theorem sort_order_eq (htypes : ∀ x ∈ types, s.contains x) :
    Lifting.sort s.order types = .ok (s.sortedTypes types) :=
  Lifting.sort_eq fun a ha b hb => order_eq hs hnamed (htypes a ha) (htypes b hb)

/-- Any list of types of the store can be arranged. -/
theorem exists_arranged (hacyclic : s.Acyclic) (htypes : ∀ x ∈ types, s.contains x) :
    ∃ members, s.arrange types = .ok members ∧ s.Arranged types members := by
  have hvalid : ∀ x ∈ s.sortedTypes types, s.contains x := fun x hx =>
    htypes x ((s.sortedTypes_perm types).mem_iff.mp hx)
  have hequal : ∀ a ∈ [] ++ s.sortedTypes types, ∀ b ∈ s.sortedTypes types,
      ∃ answer, s.equal a b = .ok answer :=
    fun a ha b hb => equal_answered hs hacyclic (hvalid a ha) (hvalid b hb)
  obtain ⟨members, hmembers, -, hselects⟩ :=
    Lifting.distinctAfter_selects hequal (s.sortedTypes_pairwise types) .nil
  refine ⟨members, ?_, ?_, ?_, hselects.unrelated, fun x hx => ?_⟩
  · rw [arrange, sort_order_eq hs hnamed htypes]
    exact hmembers
  · intro x hx
    exact (s.sortedTypes_perm types).mem_iff.mp (hselects.sublist.subset hx)
  · exact (s.sortedTypes_pairwise types).sublist hselects.sublist
  · rcases hselects.first x ((s.sortedTypes_perm types).mem_iff.mpr hx) with hkept | hearlier
    · have hself : s.place x x = .eq := Std.ReflCmp.compare_self
      exact ⟨x, hkept, s.equal_self x, by simp [hself]⟩
    · exact hearlier

theorem Arranged.of_arrange (hacyclic : s.Acyclic) (htypes : ∀ x ∈ types, s.contains x)
    (h : s.arrange types = .ok members) : s.Arranged types members := by
  obtain ⟨found, hfound, harranged⟩ := exists_arranged hs hnamed hacyclic htypes
  rw [h] at hfound
  cases hfound
  exact harranged

/-- Sorted types no two of which are equal are arranged already. -/
theorem arrange_of_sorted (htypes : ∀ x ∈ types, s.contains x)
    (hsorted : types.Pairwise fun a b => (s.place a b).isLE)
    (hunequal : types.Pairwise fun a b => s.equal a b = .ok false) :
    s.arrange types = .ok types := by
  have hsame : s.sortedTypes types = types := hsorted.insertionSort_eq
  rw [arrange, sort_order_eq hs hnamed htypes, hsame]
  exact Lifting.distinctAfter_eq hunequal

end Sound

end Store

end GradualTypes
