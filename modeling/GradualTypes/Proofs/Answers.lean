import Mathlib
import GradualTypes.Lifting
import GradualTypes.Error

/-!
Questions that have an answer. A question about a store may fail, and most of them are put to whole
lists of types. This module says what the answer for a list is when every single question has one,
so that later proofs never look into the loops.
-/

namespace GradualTypes

/-- A question with a definite answer, which is yes exactly when a proposition holds. -/
def Decides (question : Except Error Bool) (p : Prop) : Prop :=
  ∃ answer, question = .ok answer ∧ (answer = true ↔ p)

namespace Decides

variable {question : Except Error Bool} {p q : Prop}

/-- A question that has an answer decides its own truth. -/
theorem self (h : ∃ answer, question = .ok answer) : Decides question (question = .ok true) := by
  obtain ⟨answer, rfl⟩ := h
  exact ⟨answer, rfl, by simp⟩

theorem congr (h : Decides question p) (hpq : p ↔ q) : Decides question q := by
  obtain ⟨answer, hok, hiff⟩ := h
  exact ⟨answer, hok, hiff.trans hpq⟩

theorem unique {question' : Except Error Bool} (h : Decides question p)
    (h' : Decides question' p) : question = question' := by
  obtain ⟨answer, rfl, hiff⟩ := h
  obtain ⟨answer', rfl, hiff'⟩ := h'
  rw [Bool.eq_iff_iff.mpr (hiff.trans hiff'.symm)]

theorem answered (h : Decides question p) : ∃ answer, question = .ok answer := by
  obtain ⟨answer, hok, -⟩ := h
  exact ⟨answer, hok⟩

theorem eq_true_iff (h : Decides question p) : question = .ok true ↔ p := by
  obtain ⟨answer, rfl, hiff⟩ := h
  simpa using hiff

theorem eq_decide [Decidable p] (h : Decides question p) : question = .ok (decide p) := by
  obtain ⟨answer, rfl, hiff⟩ := h
  by_cases hp : p <;> simp [hp] at hiff ⊢ <;> exact hiff

/-- A question that begins with one that has an answer. -/
theorem after {α : Type} {first : Except Error α} {f : α → Except Error Bool} {a : α}
    (h : first = .ok a) (hf : Decides (f a) p) : Decides (first >>= f) p := by
  rw [h]
  exact hf

/-- Asking a second question only if the first is answered by yes. -/
theorem and_then {second : Except Error Bool} (h : Decides question p) (h' : Decides second q) :
    Decides (do if ← question then second else pure false) (p ∧ q) := by
  obtain ⟨answer, rfl, hiff⟩ := h
  cases answer with
  | true =>
    obtain ⟨answer', rfl, hiff'⟩ := h'
    exact ⟨answer', rfl, by simp [← hiff, hiff']⟩
  | false => exact ⟨false, rfl, by simp [← hiff]⟩

/-- Asking a second question only if the first is answered by no. -/
theorem or_else {second : Except Error Bool} (h : Decides question p) (h' : Decides second q) :
    Decides (do if ← question then pure true else second) (p ∨ q) := by
  obtain ⟨answer, rfl, hiff⟩ := h
  cases answer with
  | true => exact ⟨true, rfl, by simp [← hiff]⟩
  | false =>
    obtain ⟨answer', rfl, hiff'⟩ := h'
    exact ⟨answer', rfl, by simp [← hiff, hiff']⟩

variable {α β : Type}

theorem allM {ask : α → Except Error Bool} {p : α → Prop} {xs : List α}
    (h : ∀ x ∈ xs, Decides (ask x) (p x)) : Decides (xs.allM ask) (∀ x ∈ xs, p x) := by
  induction xs with
  | nil => exact ⟨true, rfl, by simp⟩
  | cons x xs ih =>
    have hhead := h x List.mem_cons_self
    have htail := ih fun y hy => h y (List.mem_cons_of_mem x hy)
    rw [List.allM_cons]
    exact (hhead.and_then htail).congr List.forall_mem_cons.symm

theorem anyM {ask : α → Except Error Bool} {p : α → Prop} {xs : List α}
    (h : ∀ x ∈ xs, Decides (ask x) (p x)) : Decides (xs.anyM ask) (∃ x ∈ xs, p x) := by
  induction xs with
  | nil => exact ⟨false, rfl, by simp⟩
  | cons x xs ih =>
    have hhead := h x List.mem_cons_self
    have htail := ih fun y hy => h y (List.mem_cons_of_mem x hy)
    rw [List.anyM_cons]
    exact (hhead.or_else htail).congr (by simp)

theorem pointwise {rel : α → β → Except Error Bool} {p : α → β → Prop} {as : List α} {bs : List β}
    (h : ∀ a ∈ as, ∀ b ∈ bs, Decides (rel a b) (p a b)) :
    Decides (Lifting.pointwise rel as bs) (List.Forall₂ p as bs) := by
  rw [Lifting.pointwise, List.forall₂_iff_zip]
  split
  next hlen =>
    have hall : Decides ((as.zip bs).allM fun pair => rel pair.1 pair.2)
        (∀ pair ∈ as.zip bs, p pair.1 pair.2) :=
      allM fun pair hpair => h _ (List.of_mem_zip hpair).1 _ (List.of_mem_zip hpair).2
    exact hall.congr ⟨fun hp => ⟨hlen, fun hab => hp _ hab⟩, fun hp pair hpair => hp.2 hpair⟩
  next hlen => exact ⟨false, rfl, by simp [hlen]⟩

theorem covered {rel : α → β → Except Error Bool} {p : α → β → Prop} {as : List α} {bs : List β}
    (h : ∀ a ∈ as, ∀ b ∈ bs, Decides (rel a b) (p a b)) :
    Decides (Lifting.covered rel as bs) (∀ a ∈ as, ∃ b ∈ bs, p a b) :=
  allM fun a ha => anyM fun b hb => h a ha b hb

theorem sameSet {rel : α → α → Except Error Bool} {p : α → α → Prop} {as bs : List α}
    (h : ∀ a ∈ as, ∀ b ∈ bs, Decides (rel a b) (p a b))
    (h' : ∀ b ∈ bs, ∀ a ∈ as, Decides (rel b a) (p b a)) :
    Decides (Lifting.sameSet rel as bs)
      ((∀ a ∈ as, ∃ b ∈ bs, p a b) ∧ ∀ b ∈ bs, ∃ a ∈ as, p b a) :=
  (covered h).and_then (covered h')

end Decides

/-- In lists related position by position every element of the first is related to one of the
second. -/
theorem exists_mem_of_forall₂ {α β : Type} {R : α → β → Prop} {as : List α} {bs : List β}
    (hab : List.Forall₂ R as bs) {x : α} (hx : x ∈ as) : ∃ y ∈ bs, R x y := by
  induction hab with
  | nil => simp at hx
  | cons hhead _ ih =>
    rcases List.mem_cons.mp hx with rfl | hx
    · exact ⟨_, List.mem_cons_self, hhead⟩
    · obtain ⟨y, hy, hxy⟩ := ih hx
      exact ⟨y, List.mem_cons_of_mem _ hy, hxy⟩

/-- Lists related position by position are so by any relation that follows for their elements. -/
theorem forall₂_imp_of_mem {α β : Type} {R S : α → β → Prop} {as : List α} {bs : List β}
    (hab : List.Forall₂ R as bs) (himp : ∀ x ∈ as, ∀ y ∈ bs, R x y → S x y) :
    List.Forall₂ S as bs := by
  rw [List.forall₂_iff_zip] at hab ⊢
  refine ⟨hab.1, fun {x y} hxy => ?_⟩
  have hmem := List.of_mem_zip hxy
  exact himp x hmem.1 y hmem.2 (hab.2 hxy)

/-- Lists related position by position are so the other way round if their elements are. -/
theorem forall₂_symm_of_mem {α : Type} {R : α → α → Prop} {as bs : List α}
    (hab : List.Forall₂ R as bs) (hsymm : ∀ x ∈ as, ∀ y ∈ bs, R x y → R y x) :
    List.Forall₂ R bs as := by
  induction hab with
  | nil => exact .nil
  | cons hxy _ ih =>
    refine .cons ?_ (ih fun x hx y hy => ?_)
    · exact hsymm _ List.mem_cons_self _ List.mem_cons_self hxy
    · exact hsymm x (List.mem_cons_of_mem _ hx) y (List.mem_cons_of_mem _ hy)

theorem forall₂_trans_of_mem {α β γ : Type} {R : α → β → Prop} {S : β → γ → Prop}
    {T : α → γ → Prop} {as : List α} {bs : List β} {cs : List γ} (hab : List.Forall₂ R as bs)
    (hbc : List.Forall₂ S bs cs)
    (htrans : ∀ x ∈ as, ∀ y ∈ bs, ∀ z ∈ cs, R x y → S y z → T x z) : List.Forall₂ T as cs := by
  induction hab generalizing cs with
  | nil =>
    cases hbc
    exact .nil
  | cons hxy _ ih =>
    cases hbc with
    | cons hyz hrest =>
      refine .cons ?_ (ih hrest fun x hx y hy z hz => ?_)
      · exact htrans _ List.mem_cons_self _ List.mem_cons_self _ List.mem_cons_self hxy hyz
      · exact htrans x (List.mem_cons_of_mem _ hx) y (List.mem_cons_of_mem _ hy) z
          (List.mem_cons_of_mem _ hz)

/-- A question that begins with one that has an answer. -/
theorem answered_bind {α β : Type} {question : Except Error α} {f : α → Except Error β} {a : α}
    (h : question = .ok a) (hf : ∃ b, f a = .ok b) : ∃ b, (question >>= f) = .ok b := by
  rw [h]
  exact hf

namespace Lifting

section Questions

variable {α β : Type}

/-- Mapping a question over a list collects the answers, one by one. -/
theorem mapM_eq_ok_iff {ask : α → Except Error β} {xs : List α} {ys : List β} :
    xs.mapM ask = .ok ys ↔ List.Forall₂ (fun x y => ask x = .ok y) xs ys := by
  induction xs generalizing ys with
  | nil => simp [pure, Except.pure, eq_comm]
  | cons x xs ih =>
    rw [List.mapM_cons]
    cases hx : ask x with
    | error e =>
      have hbind : (Except.error e >>= fun y => do return y :: (← xs.mapM ask)) =
          (Except.error e : Except Error (List β)) := rfl
      rw [hbind]
      constructor
      · intro h
        cases h
      · rintro (_ | ⟨hhead, -⟩)
        rw [hx] at hhead
        cases hhead
    | ok y =>
      cases hxs : xs.mapM ask with
      | error e =>
        constructor
        · intro h
          cases h
        · rintro (_ | ⟨-, htail⟩)
          rw [ih.mpr htail] at hxs
          cases hxs
      | ok rest =>
        constructor
        · intro h
          cases h
          exact .cons hx (ih.mp hxs)
        · rintro (_ | ⟨hhead, htail⟩)
          rw [hx] at hhead
          rw [ih.mpr htail] at hxs
          cases hhead
          cases hxs
          rfl

theorem mapM_answered {ask : α → Except Error β} {xs : List α}
    (h : ∀ x ∈ xs, ∃ y, ask x = .ok y) : ∃ ys, xs.mapM ask = .ok ys := by
  induction xs with
  | nil => exact ⟨[], rfl⟩
  | cons x xs ih =>
    obtain ⟨y, hy⟩ := h x List.mem_cons_self
    obtain ⟨ys, hys⟩ := ih fun z hz => h z (List.mem_cons_of_mem x hz)
    exact ⟨y :: ys, mapM_eq_ok_iff.mpr (.cons hy (mapM_eq_ok_iff.mp hys))⟩

/-- Every collected answer is the answer for some element. -/
theorem exists_of_mem_mapM {ask : α → Except Error β} {xs : List α} {ys : List β}
    (h : xs.mapM ask = .ok ys) {y : β} (hy : y ∈ ys) : ∃ x ∈ xs, ask x = .ok y :=
  exists_mem_of_forall₂ (mapM_eq_ok_iff.mp h).flip hy

/-- Every element of the list has its answer among the collected ones. -/
theorem answer_mem_mapM {ask : α → Except Error β} {xs : List α} {ys : List β}
    (h : xs.mapM ask = .ok ys) {x : α} (hx : x ∈ xs) : ∃ y ∈ ys, ask x = .ok y :=
  exists_mem_of_forall₂ (mapM_eq_ok_iff.mp h) hx

theorem findM?_answered {ask : α → Except Error Bool} {xs : List α}
    (h : ∀ x ∈ xs, ∃ answer, ask x = .ok answer) : ∃ found, xs.findM? ask = .ok found := by
  induction xs with
  | nil => exact ⟨none, rfl⟩
  | cons x xs ih =>
    obtain ⟨answer, hx⟩ := h x List.mem_cons_self
    cases answer with
    | true => exact ⟨some x, by rw [List.findM?, hx]; rfl⟩
    | false =>
      obtain ⟨found, hfound⟩ := ih fun y hy => h y (List.mem_cons_of_mem x hy)
      exact ⟨found, by rw [List.findM?, hx]; exact hfound⟩

/-- What a search finds is in the list and passes the test. -/
theorem findM?_some {ask : α → Except Error Bool} {xs : List α} {x : α}
    (h : xs.findM? ask = .ok (some x)) : x ∈ xs ∧ ask x = .ok true := by
  induction xs with
  | nil => cases h
  | cons y ys ih =>
    rw [List.findM?] at h
    cases hy : ask y with
    | error e => rw [hy] at h; cases h
    | ok answer =>
      rw [hy] at h
      cases answer with
      | true =>
        cases h
        exact ⟨List.mem_cons_self, hy⟩
      | false =>
        obtain ⟨hmem, hask⟩ := ih h
        exact ⟨List.mem_cons_of_mem y hmem, hask⟩

/-- What a search finds comes before everything else that passes the test. -/
theorem findM?_first {ask : α → Except Error Bool} {R : α → α → Prop} {xs : List α} {x : α}
    (h : xs.findM? ask = .ok (some x)) (hR : xs.Pairwise R) :
    ∀ y ∈ xs, ask y = .ok true → y = x ∨ R x y := by
  induction xs with
  | nil => cases h
  | cons z zs ih =>
    obtain ⟨hz, hzs⟩ := List.pairwise_cons.mp hR
    rw [List.findM?] at h
    intro y hy hask
    cases htest : ask z with
    | error e => rw [htest] at h; cases h
    | ok answer =>
      rw [htest] at h
      cases answer with
      | true =>
        cases h
        exact (List.mem_cons.mp hy).imp id (hz y)
      | false =>
        rcases List.mem_cons.mp hy with rfl | hy
        · rw [htest] at hask
          cases hask
        · exact ih h hzs y hy hask

/-- A search that ends without a find has seen every element fail the test. -/
theorem findM?_none {ask : α → Except Error Bool} {xs : List α}
    (h : xs.findM? ask = .ok none) : ∀ x ∈ xs, ask x = .ok false := by
  induction xs with
  | nil => simp
  | cons y ys ih =>
    rw [List.findM?] at h
    cases hy : ask y with
    | error e => rw [hy] at h; cases h
    | ok answer =>
      rw [hy] at h
      cases answer with
      | true => cases h
      | false =>
        intro x hx
        rcases List.mem_cons.mp hx with rfl | hx
        · exact hy
        · exact ih h x hx

end Questions

theorem mapM_congr {m : Type → Type} [Monad m] [LawfulMonad m] {α β : Type} {f g : α → m β}
    {xs : List α} (h : ∀ x ∈ xs, f x = g x) : xs.mapM f = xs.mapM g := by
  induction xs with
  | nil => rfl
  | cons x xs ih =>
    have htail := ih fun y hy => h y (List.mem_cons_of_mem x hy)
    simp only [List.mapM_cons, h x List.mem_cons_self, htail]

theorem mapM_eq_of_forall₂ {m : Type → Type} [Monad m] [LawfulMonad m] {α β : Type} {f : α → m β}
    {xs ys : List α} (h : List.Forall₂ (fun x y => f x = f y) xs ys) : xs.mapM f = ys.mapM f := by
  induction h with
  | nil => rfl
  | cons hhead _ ih => simp only [List.mapM_cons, hhead, ih]

end Lifting

end GradualTypes
