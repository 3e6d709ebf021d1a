import GradualTypes.Proofs.Equivalence

/-!
Which of equal types are kept when types are arranged. Types are sorted by their places and selected
by equality, and once tuples are promoted neither follows from the other: a promoted tuple is placed
apart from the array type it is equal to, and together with fixed tuples it is not equal to. So
equal types need not be neighbours. Still the first of each class of equal types in the sorted list
is kept: a type that is dropped is equal to one kept before it, and so is whatever equals the
dropped one. The sorted list is the only one that leaves types at one place in the order they had.
-/

namespace GradualTypes

namespace Lifting

section Sorting

variable {α : Type} {cmp : α → α → Except Error Ordering} {place : α → α → Ordering}
  {xs sorted : List α}

/-- A list sorted by a comparison: it has the same elements, none stands before a smaller one, and
those that compare equal to one of them stand in the order they had. -/
structure SortsStably (cmp : α → α → Except Error Ordering) (xs sorted : List α) : Prop where
  perm : sorted.Perm xs
  ascending : sorted.Pairwise fun a b => cmp a b = .ok .lt ∨ cmp a b = .ok .eq
  stable : ∀ c ∈ xs, sorted.filter (fun x => cmp c x = .ok .eq) =
    xs.filter fun x => cmp c x = .ok .eq

/-- A smallest element that stood in front already can be left out. -/
theorem SortsStably.tail {x : α} (h : SortsStably cmp (x :: xs) (x :: sorted)) :
    SortsStably cmp xs sorted := by
  refine ⟨h.perm.cons_inv, h.ascending.of_cons, fun c hc => ?_⟩
  have hstable := h.stable c (List.mem_cons_of_mem x hc)
  rw [List.filter_cons, List.filter_cons] at hstable
  split at hstable
  · exact (List.cons.inj hstable).2
  · exact hstable

private theorem isLE_iff_of_eq_ok {answer : Except Error Ordering} {found : Ordering}
    (h : answer = .ok found) : found.isLE ↔ answer = .ok .lt ∨ answer = .ok .eq := by
  rw [h, Except.ok.injEq, Except.ok.injEq, Ordering.isLE_iff_eq_lt_or_eq_eq]

variable [Std.TransCmp place] (hcmp : ∀ a ∈ xs, ∀ b ∈ xs, cmp a b = .ok (place a b))
include hcmp

/-- Elements that compare equal to one of them are sorted in any order, and sorting by insertion
leaves what is sorted in the order it had. -/
theorem sortsStably_insertionSort :
    SortsStably cmp xs (xs.insertionSort fun a b => (place a b).isLE) := by
  have hperm := List.perm_insertionSort (fun a b => (place a b).isLE) xs
  refine ⟨hperm, ?_, fun c hc => ?_⟩
  · apply (pairwise_insertionSort_isLE place xs).imp_of_mem
    intro a b ha hb hle
    exact (isLE_iff_of_eq_ok (hcmp a (hperm.mem_iff.mp ha) b (hperm.mem_iff.mp hb))).mp hle
  · have hclass : (xs.filter fun x => cmp c x = .ok .eq).Pairwise
        fun a b => (place a b).isLE := by
      apply List.pairwise_of_forall_mem_list
      intro a ha b hb
      simp only [List.mem_filter, decide_eq_true_eq] at ha hb
      rw [hcmp c hc a ha.1, Except.ok.injEq] at ha
      rw [hcmp c hc b hb.1, Except.ok.injEq] at hb
      have hab : place a b = .eq := Std.TransCmp.eq_trans (Std.OrientedCmp.eq_symm ha.2) hb.2
      simp [hab]
    have hsub := (List.sublist_insertionSort hclass List.filter_sublist).filter
      fun x => cmp c x = .ok .eq
    rw [List.filter_filter] at hsub
    simp only [Bool.and_self] at hsub
    exact (hsub.eq_of_length (hperm.filter _).length_eq.symm).symm

/-- The stable way to sort a list that is sorted already is to leave it as it is. -/
theorem SortsStably.eq_of_ascending (h : SortsStably cmp xs sorted)
    (hxs : xs.Pairwise fun a b => cmp a b = .ok .lt ∨ cmp a b = .ok .eq) : sorted = xs := by
  induction sorted generalizing xs with
  | nil => exact h.perm.nil_eq
  | cons x sorted ih =>
    cases xs with
    | nil => exact absurd h.perm List.not_perm_cons_nil
    | cons y ys =>
      have hx : x ∈ y :: ys := h.perm.mem_iff.mp List.mem_cons_self
      have hy : y ∈ x :: sorted := h.perm.mem_iff.mpr List.mem_cons_self
      have hself : ∀ z ∈ y :: ys, cmp z z = .ok .eq := fun z hz =>
        (hcmp z hz z hz).trans (congrArg _ Std.ReflCmp.compare_self)
      -- each of the two heads stands in both lists, so neither is smaller than the other
      have hxy : cmp x y = .ok .eq := by
        rcases List.mem_cons.mp hx with rfl | hx'
        · exact hself x List.mem_cons_self
        rcases List.mem_cons.mp hy with rfl | hy'
        · exact hself y List.mem_cons_self
        have hle := (isLE_iff_of_eq_ok (hcmp x hx y List.mem_cons_self)).mpr
          (List.rel_of_pairwise_cons h.ascending hy')
        have hge := (isLE_iff_of_eq_ok (hcmp y List.mem_cons_self x hx)).mpr
          (List.rel_of_pairwise_cons hxs hx')
        rw [hcmp x hx y List.mem_cons_self, Std.OrientedCmp.isLE_antisymm hle hge]
      obtain rfl : x = y := by
        have hstable := h.stable x hx
        rw [List.filter_cons_of_pos (by simpa using hself x hx),
          List.filter_cons_of_pos (by simpa using hxy)] at hstable
        exact (List.cons.inj hstable).1
      rw [ih (fun a ha b hb => hcmp a (List.mem_cons_of_mem x ha) b (List.mem_cons_of_mem x hb))
        h.tail hxs.of_cons]

/-- There is only one stable way to sort a list. -/
theorem SortsStably.unique {sorted' : List α} (h : SortsStably cmp xs sorted)
    (h' : SortsStably cmp xs sorted') : sorted = sorted' := by
  have hmem : ∀ {a}, a ∈ sorted' → a ∈ xs := fun ha => h'.perm.mem_iff.mp ha
  have hback : SortsStably cmp sorted' sorted :=
    ⟨h.perm.trans h'.perm.symm, h.ascending, fun c hc =>
      (h.stable c (hmem hc)).trans (h'.stable c (hmem hc)).symm⟩
  exact hback.eq_of_ascending (fun a ha b hb => hcmp a (hmem ha) b (hmem hb)) h'.ascending

end Sorting

section Selection

variable {α : Type} {rel : α → α → Except Error Bool} {xs ys : List α} {x y : α}

def firsts (rel : α → α → Except Error Bool) (xs : List α) : List α :=
  (xs.zipIdx.filter fun entry =>
    (xs.take entry.2).all fun y => rel y entry.1 = .ok false).map Prod.fst

private theorem firsts_sublist (rel : α → α → Except Error Bool) (xs : List α) :
    (firsts rel xs).Sublist xs := by
  have hsub : (firsts rel xs).Sublist (xs.zipIdx.map Prod.fst) := List.filter_sublist.map Prod.fst
  rwa [List.zipIdx_map_fst] at hsub

/-- What is put behind a list is a first element if nothing in the list is related to it. -/
private theorem firsts_concat (rel : α → α → Except Error Bool) (xs : List α) (x : α) :
    firsts rel (xs ++ [x]) =
      if ∀ y ∈ xs, rel y x = .ok false then firsts rel xs ++ [x] else firsts rel xs := by
  have hold : (xs.zipIdx.filter fun entry =>
        ((xs ++ [x]).take entry.2).all fun y => rel y entry.1 = .ok false) =
      xs.zipIdx.filter fun entry =>
        (xs.take entry.2).all fun y => rel y entry.1 = .ok false := by
    apply List.filter_congr
    intro entry hentry
    have hlt := List.snd_lt_of_mem_zipIdx hentry
    rw [List.take_append_of_le_length (by omega)]
  have hnew : (([x].zipIdx xs.length).filter fun entry =>
        ((xs ++ [x]).take entry.2).all fun y => rel y entry.1 = .ok false) =
      if ∀ y ∈ xs, rel y x = .ok false then [(x, xs.length)] else [] := by
    simp [List.filter_cons]
  rw [firsts, List.zipIdx_append, Nat.zero_add, List.filter_append, hold, hnew, List.map_append]
  split
  · rfl
  · exact List.append_nil _

/-- An element is a first one if it stands where nothing before it is related to it. -/
private theorem mem_firsts_of_split {before after : List α}
    (h : ∀ z ∈ before, rel z y = .ok false) : y ∈ firsts rel (before ++ y :: after) := by
  refine List.mem_map.mpr ⟨(y, before.length), List.mem_filter.mpr ⟨?_, ?_⟩, rfl⟩
  · rw [List.mk_mem_zipIdx_iff_getElem?]
    simp
  · simpa using h

/-- A relation that is answered for any two elements of a list and transitive among them. -/
structure Classifies (rel : α → α → Except Error Bool) (xs : List α) : Prop where
  answered : ∀ a ∈ xs, ∀ b ∈ xs, ∃ answer, rel a b = .ok answer
  trans : ∀ a ∈ xs, ∀ b ∈ xs, ∀ c ∈ xs, rel a b = .ok true → rel b c = .ok true →
    rel a c = .ok true

theorem Classifies.subset (h : Classifies rel xs) (hsub : ys ⊆ xs) : Classifies rel ys :=
  ⟨fun a ha b hb => h.answered a (hsub ha) b (hsub hb),
    fun a ha b hb c hc => h.trans a (hsub ha) b (hsub hb) c (hsub hc)⟩

/-- The first element related to a given one is a first element: what is related to it is related
to the given one too, so nothing before it is. -/
theorem Classifies.find?_mem_firsts (h : Classifies rel (x :: xs))
    (hfind : xs.find? (fun z => rel z x = .ok true) = some y) : y ∈ firsts rel xs := by
  obtain ⟨hyx, before, after, rfl, hbefore⟩ := List.find?_eq_some_iff_append.mp hfind
  apply mem_firsts_of_split
  intro z hz
  have hzmem : z ∈ x :: (before ++ y :: after) := by simp [hz]
  have hymem : y ∈ x :: (before ++ y :: after) := by simp
  obtain ⟨answer, hanswer⟩ := h.answered z hzmem y hymem
  cases answer with
  | false => exact hanswer
  | true =>
    have hzx := h.trans z hzmem y hymem x List.mem_cons_self hanswer (by simpa using hyx)
    exact absurd hzx (by simpa using hbefore z hz)

/-- If an element of a list is related to a given one, the first such element is found and is a
first element. -/
theorem Classifies.exists_find? (h : Classifies rel (x :: xs))
    (hrel : ∃ z ∈ xs, rel z x = .ok true) :
    ∃ y ∈ firsts rel xs, rel y x = .ok true ∧
      xs.find? (fun z => rel z x = .ok true) = some y := by
  have hsome : (xs.find? fun z => rel z x = .ok true).isSome := by
    simpa [List.find?_isSome] using hrel
  obtain ⟨y, hy⟩ := Option.isSome_iff_exists.mp hsome
  exact ⟨y, h.find?_mem_firsts hy, by simpa using List.find?_some hy, hy⟩

/-- Comparing with the elements kept so far keeps the same elements as comparing with all that stood
before. -/
theorem Classifies.distinctAfter_eq_firsts (h : Classifies rel (xs ++ ys)) :
    distinctAfter rel (firsts rel xs) ys = .ok (firsts rel (xs ++ ys)) := by
  induction ys generalizing xs with
  | nil => simp [distinctAfter, pure, Except.pure]
  | cons y ys ih =>
    have hkept := (firsts_sublist rel xs).subset
    have hhead : Classifies rel (y :: xs) := h.subset (by simp)
    have hnext := @ih (xs ++ [y]) (by simpa using h)
    rw [List.append_assoc, List.singleton_append, firsts_concat] at hnext
    rcases distinctAfter_cons ys fun seen hseen =>
      hhead.answered seen (List.mem_cons_of_mem y (hkept hseen)) y List.mem_cons_self with
      ⟨⟨seen, hseen, htrue⟩, hrun⟩ | ⟨hfalse, hrun⟩
    · have hnot : ¬ ∀ z ∈ xs, rel z y = .ok false := by
        intro hall
        rw [hall seen (hkept hseen)] at htrue
        cases htrue
      rw [if_neg hnot] at hnext
      exact hrun.trans hnext
    · have hall : ∀ z ∈ xs, rel z y = .ok false := by
        intro z hz
        obtain ⟨answer, hanswer⟩ :=
          hhead.answered z (List.mem_cons_of_mem y hz) y List.mem_cons_self
        cases answer with
        | false => exact hanswer
        | true =>
          -- the first element related to `y` would have been kept
          obtain ⟨seen, hseen, htrue, -⟩ := hhead.exists_find? ⟨z, hz, hanswer⟩
          rw [hfalse seen hseen] at htrue
          cases htrue
      rw [if_pos hall] at hnext
      exact hrun.trans hnext

end Selection

end Lifting

namespace Store

variable {s : Store} {types : List Handle} {a b : Handle}

section Sound

variable (hs : s.WellFormed)
include hs

/-- Equality is answered the same either way round. -/
theorem WellFormed.equal_comm (ha : s.contains a) (hb : s.contains b) :
    s.equal a b = s.equal b a := by
  have hforth : Decides (s.equal a b) (s.Same a b) :=
    .self (equal_answered hs.linked hs.acyclic ha hb)
  have hback : Decides (s.equal b a) (s.Same b a) :=
    .self (equal_answered hs.linked hs.acyclic hb ha)
  exact hforth.unique (hback.congr ⟨hs.same_symm hb ha, hs.same_symm ha hb⟩)

private theorem WellFormed.classifies_equal (htypes : ∀ x ∈ types, s.contains x) :
    Lifting.Classifies s.equal types :=
  ⟨fun a ha b hb => equal_answered hs.linked hs.acyclic (htypes a ha) (htypes b hb),
    fun a ha b hb c hc => hs.same_trans (htypes a ha) (htypes b hb) (htypes c hc)⟩

/-- The sorted list is the only one that leaves types at one place in the order they had. -/
theorem WellFormed.sortsStably_iff (htypes : ∀ x ∈ types, s.contains x) (list : List Handle) :
    Lifting.SortsStably s.order types list ↔ list = s.sortedTypes types := by
  have horder : ∀ a ∈ types, ∀ b ∈ types, s.order a b = .ok (s.place a b) := fun a ha b hb =>
    order_eq hs.linked hs.named (htypes a ha) (htypes b hb)
  have hsorted := Lifting.sortsStably_insertionSort horder
  constructor
  · intro h
    exact h.unique horder hsorted
  · rintro rfl
    exact hsorted

/-- Arranging types keeps those to which none before them in the sorted list is equal. -/
theorem WellFormed.arrange_eq_firsts (htypes : ∀ x ∈ types, s.contains x) :
    s.arrange types = .ok (Lifting.firsts s.equal (s.sortedTypes types)) := by
  have hvalid : ∀ x ∈ s.sortedTypes types, s.contains x := fun x hx =>
    htypes x ((s.sortedTypes_perm types).mem_iff.mp hx)
  rw [arrange, sort_order_eq hs.linked hs.named htypes]
  have hclass : Lifting.Classifies s.equal ([] ++ s.sortedTypes types) :=
    hs.classifies_equal hvalid
  exact hclass.distinctAfter_eq_firsts

end Sound

end Store

/-- What arranging any types of a reachable store gives. There is one list that sorts them stably,
and it is the one that is gone through. What is kept of it is in its order and so does not descend,
holds no two equal types, and has for every type the first one in the sorted list that is equal to
it. It consists of the types that stand in the sorted list where none before is equal to them. -/
theorem Reachable.arrange_keeps_first {s : Store} {types : List Handle} (hs : Reachable s)
    (htypes : ∀ x ∈ types, s.contains x) :
    ∃ sorted members,
      Lifting.sort s.order types = .ok sorted ∧
      (∀ list, Lifting.SortsStably s.order types list ↔ list = sorted) ∧
      s.arrange types = .ok members ∧
      members.Sublist sorted ∧
      members.Pairwise (fun a b => s.order a b = .ok .lt ∨ s.order a b = .ok .eq) ∧
      members.Pairwise (fun a b => s.equal a b = .ok false ∧ s.equal b a = .ok false) ∧
      (∀ x ∈ types, ∃ y ∈ members, s.equal y x = .ok true ∧
        sorted.find? (fun z => s.equal z x = .ok true) = some y) ∧
      members = Lifting.firsts s.equal sorted := by
  have hwf := hs.wellFormed
  have hperm := s.sortedTypes_perm types
  have harrange := hwf.arrange_eq_firsts htypes
  have hsub := Lifting.firsts_sublist s.equal (s.sortedTypes types)
  have hvalid : ∀ {x}, x ∈ Lifting.firsts s.equal (s.sortedTypes types) → s.contains x :=
    fun hx => htypes _ (hperm.mem_iff.mp (hsub.subset hx))
  have hstable := hwf.sortsStably_iff htypes
  have harranged := Store.Arranged.of_arrange hwf.linked hwf.named hwf.acyclic htypes harrange
  refine ⟨s.sortedTypes types, Lifting.firsts s.equal (s.sortedTypes types),
    Store.sort_order_eq hwf.linked hwf.named htypes, hstable, harrange, hsub, ?_, ?_,
    fun x hx => ?_, rfl⟩
  · exact ((hstable _).mpr rfl).ascending.sublist hsub
  · apply harranged.unequal.imp_of_mem
    intro a b ha hb hab
    exact ⟨hab, hwf.equal_comm (hvalid ha) (hvalid hb) ▸ hab⟩
  · have hclass : Lifting.Classifies s.equal (x :: s.sortedTypes types) :=
      (hwf.classifies_equal htypes).subset (by simp [hx, hperm.subset])
    exact hclass.exists_find? ⟨x, hperm.mem_iff.mpr hx, s.equal_self x⟩

/-- Two tuples of an integer, the first of which is promoted, and an array of strings. -/
def apartStore : Store :=
  .after [.nominal "Integer", .nominal "String", .tuple [⟨5⟩], .tuple [⟨5⟩], .array ⟨6⟩,
    .promote ⟨7⟩]

/-- In `apartStore` the two tuples are at one place and differ. The promoted one is dropped, because
it is equal to an array type that is not its neighbour in the sorted list. -/
theorem apartStore_arrange :
    Reachable apartStore ∧
      (∀ x ∈ [⟨8⟩, ⟨7⟩, ⟨9⟩, ⟨10⟩, ⟨8⟩, (⟨6⟩ : Handle)], apartStore.contains x) ∧
      apartStore.order ⟨7⟩ ⟨8⟩ = .ok .eq ∧ apartStore.equal ⟨7⟩ ⟨8⟩ = .ok false ∧
      apartStore.order ⟨10⟩ ⟨7⟩ = .ok .lt ∧ apartStore.equal ⟨10⟩ ⟨7⟩ = .ok true ∧
      Lifting.SortsStably apartStore.order [⟨8⟩, ⟨7⟩, ⟨9⟩, ⟨10⟩, ⟨8⟩, ⟨6⟩]
        [⟨6⟩, ⟨10⟩, ⟨9⟩, ⟨8⟩, ⟨7⟩, ⟨8⟩] ∧
      apartStore.arrange [⟨8⟩, ⟨7⟩, ⟨9⟩, ⟨10⟩, ⟨8⟩, ⟨6⟩] = .ok [⟨6⟩, ⟨10⟩, ⟨9⟩, ⟨8⟩] := by
  have hs : Reachable apartStore := .after (by decide)
  have htypes : ∀ x ∈ [⟨8⟩, ⟨7⟩, ⟨9⟩, ⟨10⟩, ⟨8⟩, (⟨6⟩ : Handle)], apartStore.contains x := by
    decide +kernel
  have hsort : Lifting.sort apartStore.order [⟨8⟩, ⟨7⟩, ⟨9⟩, ⟨10⟩, ⟨8⟩, ⟨6⟩] =
      .ok [⟨6⟩, ⟨10⟩, ⟨9⟩, ⟨8⟩, ⟨7⟩, ⟨8⟩] := by
    decide +kernel
  have hfirsts : Lifting.firsts apartStore.equal [⟨6⟩, ⟨10⟩, ⟨9⟩, ⟨8⟩, ⟨7⟩, ⟨8⟩] =
      [⟨6⟩, ⟨10⟩, ⟨9⟩, ⟨8⟩] := by
    decide +kernel
  obtain ⟨sorted, members, hsorted, hstable, harrange, -, -, -, -, hmembers⟩ :=
    Reachable.arrange_keeps_first hs htypes
  rw [hsort, Except.ok.injEq] at hsorted
  subst hsorted
  rw [hmembers, hfirsts] at harrange
  refine ⟨hs, htypes, ?_, ?_, ?_, ?_, (hstable _).mpr rfl, harrange⟩
  · decide +kernel
  · decide +kernel
  · decide +kernel
  · decide +kernel

end GradualTypes
