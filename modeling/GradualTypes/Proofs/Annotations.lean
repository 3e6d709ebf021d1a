import GradualTypes.Proofs.Queries

/-!
Annotations in a match. A type is a number of annotations around one that is not annotated. Taking
one annotation off the type takes one off the query as well, if there is one, and at the end one
more is taken off the query. So a type fits a query that has at most one annotation more if what is
left of both does, and it fits no query that has more than that. Annotations do not show in a match
as long as they do not cross this line.
-/

namespace GradualTypes

namespace Store

/-- A type is a number of annotations around another, which is not annotated. -/
inductive Wraps (s : Store) : Handle → Nat → Handle → Prop where
  | bare {a shape} (hshape : s.shape a = .ok shape)
      (hbare : ∀ label inner, shape ≠ .annotated label inner) : Wraps s a 0 a
  | annotated {a label inner n core} (hshape : s.shape a = .ok (.annotated label inner))
      (hinner : Wraps s inner n core) : Wraps s a (n + 1) core

variable {s : Store} {a b c d inner core : Handle} {j k n : Nat} {label : Name}
  {left right : Shape}

theorem Wraps.exists_shape (hwraps : s.Wraps a n core) :
    ∃ shape, s.shape core = .ok shape ∧ ∀ label inner, shape ≠ .annotated label inner := by
  induction hwraps with
  | bare hshape hbare => exact ⟨_, hshape, hbare⟩
  | annotated _ _ ih => exact ih

theorem Wraps.contains (hwraps : s.Wraps a n core) : s.contains a := by
  cases hwraps with
  | bare hshape _ => exact Linked.contains_of_shape hshape
  | annotated hshape _ => exact Linked.contains_of_shape hshape

theorem Wraps.contains_core (hwraps : s.Wraps a n core) : s.contains core := by
  obtain ⟨shape, hshape, -⟩ := hwraps.exists_shape
  exact Linked.contains_of_shape hshape

theorem Wraps.unique (hwraps : s.Wraps a n core) (hwraps' : s.Wraps a k d) : n = k ∧ core = d := by
  induction hwraps generalizing k with
  | bare hshape hbare =>
    cases hwraps' with
    | bare _ _ => exact ⟨rfl, rfl⟩
    | annotated hshape' _ =>
      rw [hshape] at hshape'
      cases hshape'
      exact absurd rfl (hbare _ _)
  | annotated hshape _ ih =>
    cases hwraps' with
    | bare hshape' hbare =>
      rw [hshape] at hshape'
      cases hshape'
      exact absurd rfl (hbare _ _)
    | annotated hshape' hinner' =>
      rw [hshape] at hshape'
      cases hshape'
      obtain ⟨rfl, rfl⟩ := ih hinner'
      exact ⟨rfl, rfl⟩

theorem WellFormed.exists_wraps (hs : s.WellFormed) (ha : s.contains a) :
    ∃ n core, s.Wraps a n core := by
  induction hrank : s.rank a using Nat.strong_induction_on generalizing a with
  | _ n ih =>
    obtain ⟨shape, hshape⟩ := hs.linked.exists_shape ha
    cases shape with
    | annotated label inner =>
      obtain ⟨hinner, hlt⟩ := hs.descends hshape List.mem_cons_self
      obtain ⟨n, core, hwraps⟩ := ih _ (by omega) hinner rfl
      exact ⟨n + 1, core, .annotated hshape hwraps⟩
    | _ => exact ⟨0, a, .bare hshape nofun⟩

section Formation

/-- A type of the store can be annotated with every text for which there is a name. -/
theorem WellFormed.annotated_returns {text : String} {name : Name} {names : NameTable}
    (hs : s.WellFormed) (hinner : s.contains inner)
    (hname : s.names.intern text = .ok (name, names)) :
    Returns (Store.annotated text inner) s fun h t =>
      t.WellFormed ∧ s.Retains t ∧ t.shape h = .ok (.annotated name inner) := by
  have hs' : { s with names }.WellFormed := hs.intern hname
  have hformed : Returns (formAnnotated name inner) { s with names }
      (Formed { s with names } (.annotated name inner)) :=
    formAnnotated_returns hs' ⟨text, hs.orderly.text?_of_intern hname⟩ hinner
  refine .ask_bind (checkParam_eq_ok_iff.mpr hinner) (.step (intern_run hname) (hformed.mono ?_))
  intro h t hformed
  obtain ⟨traits, hslot⟩ := hformed.slot
  exact ⟨hformed.grows.wellFormed hs', ⟨hformed.grows.slots, hformed.grows.hash⟩,
    shape_eq_ok_iff.mpr ⟨_, hslot, rfl⟩⟩

end Formation

section Matching

private theorem unannotated_of_annotated (hb : s.shape b = .ok (.annotated label inner)) :
    s.unannotated b = .ok inner := by
  obtain ⟨traits, hslot⟩ := slot_of_shape hb rfl
  rw [unannotated, node_of_slot hslot]
  rfl

/-- A fixed tuple looks at a query as what that stands for, other types look at it as it is. -/
theorem target_of_bare (left : Shape) (hs : s.WellFormed) (hb : s.shape b = .ok right)
    (hbare : ∀ label inner, right ≠ .annotated label inner) :
    s.target left b = match left with
      | .tuple _ => s.canonical b
      | _ => .ok b := by
  have hquery := unannotated_of_shape hb hbare
  cases left with
  | tuple params =>
    by_cases hpromoted : ∃ array, right = .promoted array
    · obtain ⟨array, rfl⟩ := hpromoted
      obtain ⟨element, harray⟩ := hs.shape_of_array hb
      rw [canonical_of_promoted hb]
      refine bind_eq_ok_iff.mpr ⟨array, canonical_of_promoted hb, ?_⟩
      exact bind_eq_ok_iff.mpr ⟨array, unannotated_of_shape harray nofun,
        canonical_of_shape harray nofun⟩
    · have hself := canonical_of_shape hb (not_exists.mp hpromoted)
      rw [hself]
      exact bind_eq_ok_iff.mpr ⟨b, hself, bind_eq_ok_iff.mpr ⟨b, hquery, hself⟩⟩
  | _ => exact hquery

/-- It looks at an annotated query in the same way, under the annotation. -/
theorem target_of_annotated (left : Shape) (hb : s.shape b = .ok (.annotated label inner)) :
    s.target left b = match left with
      | .tuple _ => s.canonical inner
      | _ => .ok inner := by
  have hquery := unannotated_of_annotated hb
  cases left with
  | tuple params =>
    have hself := canonical_of_shape hb nofun
    rw [target, hself]
    change (s.unannotated b >>= s.canonical) = _
    rw [hquery]
    rfl
  | _ => exact hquery

variable (hs : s.WellFormed)
include hs

/-- Every type fits the wildcard. -/
theorem WellFormed.suits_wildcard (ha : s.contains a) : s.Suits a .wildcard := by
  have hwildcard : s.shape .wildcard = .ok .wildcard :=
    shape_eq_ok_iff.mpr ⟨_, hs.linked.builtin .wildcard (by decide), rfl⟩
  have hplain : ∀ {x left}, s.shape x = .ok left → (∀ array, left ≠ .promoted array) →
      s.Suits x .wildcard := by
    intro x left hleft hplain
    have htarget : s.target left .wildcard = .ok .wildcard := by
      rw [target_of_bare left hs hwildcard (by simp)]
      cases left with
      | tuple params => exact canonical_of_shape hwildcard (by simp)
      | _ => rfl
    exact (hs.suits_iff hleft hplain htarget hwildcard).mpr (.inl rfl)
  obtain ⟨left, hleft⟩ := hs.linked.exists_shape ha
  by_cases hpromoted : ∃ array, left = .promoted array
  · obtain ⟨array, rfl⟩ := hpromoted
    obtain ⟨element, harray⟩ := hs.shape_of_array hleft
    obtain ⟨answer, hfirst, hsecond⟩ :=
      hs.fits_promoted hleft (Linked.contains_of_shape hwildcard)
    rw [Suits, hfirst, ← hsecond]
    exact hplain harray (by simp)
  · exact hplain hleft (not_exists.mp hpromoted)

/-- A type that is neither annotated nor promoted fits a query with one annotation like the query
without it, and no query with more. -/
theorem WellFormed.suits_of_plain (hleft : s.shape a = .ok left)
    (hplain : ∀ array, left ≠ .promoted array)
    (hbare : ∀ label inner, left ≠ .annotated label inner) (hwraps : s.Wraps b k d) :
    s.Suits a b ↔ k ≤ 1 ∧ s.Suits a d := by
  cases hwraps with
  | bare hshape hbare' => simp
  | @annotated _ label inner n _ hb hinner =>
    cases hinner with
    | bare hshape hbare' =>
      have htarget : s.target left b = s.target left d := by
        rw [target_of_annotated left hb, target_of_bare left hs hshape hbare']
      obtain ⟨query, hquery, hcontains, -⟩ :=
        target_spec hs left (Linked.contains_of_shape hshape)
      obtain ⟨right, hright⟩ := hs.linked.exists_shape hcontains
      rw [hs.suits_iff hleft hplain (htarget.trans hquery) hright,
        hs.suits_iff hleft hplain hquery hright]
      simp
    | @annotated _ label' inner' n _ hshape hinner' =>
      have htarget : s.target left b = .ok inner := by
        rw [target_of_annotated left hb]
        cases left with
        | tuple params => exact canonical_of_shape hshape nofun
        | _ => rfl
      have hne : ¬ s.Same a inner := by
        rw [hs.same_iff hleft hshape]
        rintro (rfl | hsame)
        · rw [hleft] at hshape
          cases hshape
          exact hbare _ _ rfl
        · cases left with
          | annotated label inner => exact hbare label inner rfl
          | promoted array => exact hplain array rfl
          | _ => exact hsame
      have hnot : ¬ s.Suits a b := by
        rw [hs.suits_iff hleft hplain htarget hshape, or_iff_right (hs.ne_wildcard hshape nofun)]
        cases left with
        | annotated label inner => exact absurd rfl (hbare label inner)
        | tuple params => exact not_false
        | _ => exact hne
      exact iff_of_false hnot fun hle => absurd hle.1 (by omega)

/-- A type fits a query with at most one annotation more than it has exactly if what is left of both
does, and no query with more. -/
theorem WellFormed.suits_wraps (hwraps : s.Wraps a j c) (hwraps' : s.Wraps b k d) :
    s.Suits a b ↔ k ≤ j + 1 ∧ s.Suits c d := by
  induction hwraps generalizing b k with
  | @bare a shape hshape hbare =>
    by_cases hpromoted : ∃ array, shape = .promoted array
    · obtain ⟨array, rfl⟩ := hpromoted
      obtain ⟨element, harray⟩ := hs.shape_of_array hshape
      have hdelegates : ∀ {x}, s.contains x → (s.Suits a x ↔ s.Suits array x) := by
        intro x hx
        obtain ⟨answer, hfirst, hsecond⟩ := hs.fits_promoted hshape hx
        rw [Suits, Suits, hfirst, hsecond]
      rw [hdelegates hwraps'.contains, hdelegates hwraps'.contains_core]
      exact hs.suits_of_plain harray (by simp) (by simp) hwraps'
    · exact hs.suits_of_plain hshape (not_exists.mp hpromoted) hbare hwraps'
  | @annotated a label inner n core hshape hinner ih =>
    -- the annotation of the type goes together with one of the query, if that has any
    obtain ⟨query, m, htarget, hquery, hle⟩ : ∃ query m,
        s.target (.annotated label inner) b = .ok query ∧ s.Wraps query m d ∧
          (m ≤ n + 1 ↔ k ≤ n + 1 + 1) := by
      cases hwraps' with
      | bare hright hbare =>
        exact ⟨d, 0, target_of_bare _ hs hright hbare, .bare hright hbare, by omega⟩
      | @annotated _ label' inner' m _ hb hinner' =>
        exact ⟨inner', m, target_of_annotated _ hb, hinner', by omega⟩
    obtain ⟨right, hright⟩ := hs.linked.exists_shape hquery.contains
    rw [hs.suits_iff hshape (by simp) htarget hright]
    change query = .wildcard ∨ s.Suits inner query ↔ _
    rw [ih hquery, hle]
    refine or_iff_right_of_imp fun hwild => ?_
    subst hwild
    -- the wildcard ends the match at once, and what is left of the type fits it as well
    cases hquery with
    | bare _ _ => exact ⟨hle.mp (Nat.zero_le _), hs.suits_wildcard hinner.contains_core⟩
    | annotated hshape' _ => exact absurd rfl (hs.ne_wildcard hshape' (by simp))

private theorem WellFormed.fits_decides (hwraps : s.Wraps a j c) (hwraps' : s.Wraps b k d) :
    Decides (s.fits a b) (k ≤ j + 1 ∧ s.Suits c d) :=
  (Decides.self (fits_answered hs hwraps.contains hwraps'.contains)).congr
    (hs.suits_wraps hwraps hwraps')

end Matching

end Store

/-- In a reachable store an annotation does not show in a match, whether it stands on the type or on
the query, unless it decides whether the query has more than one annotation more than the type. If
the query has two more, annotating the type makes it fit like what is left of both; if it has one
more, annotating it again leaves nothing that fits. -/
theorem Reachable.fits_annotated {s : Store} {text : String} {name : Name} {names : NameTable}
    {inner : Handle} (hs : Reachable s) (hinner : s.contains inner)
    (hname : s.names.intern text = .ok (name, names)) :
    ∃ h t, Store.annotated text inner s = .ok h t ∧ ∀ x, t.contains x →
      ∃ j c k d, t.Wraps x j c ∧ t.Wraps inner k d ∧
        (j ≠ k + 2 → SameAnswer (t.fits h x) (t.fits inner x)) ∧
        (j = k + 2 → SameAnswer (t.fits h x) (t.fits d c) ∧ t.fits inner x = .ok false) ∧
        (k ≠ j + 1 → SameAnswer (t.fits x h) (t.fits x inner)) ∧
        (k = j + 1 → t.fits x h = .ok false ∧ SameAnswer (t.fits x inner) (t.fits c d)) := by
  obtain ⟨h, t, hrun, ht, hretains, hshape⟩ := hs.wellFormed.annotated_returns hinner hname
  refine ⟨h, t, hrun, fun x hx => ?_⟩
  have hinner' := hretains.contains hinner
  obtain ⟨j, c, hx'⟩ := ht.exists_wraps hx
  obtain ⟨k, d, hk⟩ := ht.exists_wraps hinner'
  have hh : t.Wraps h (k + 1) d := .annotated hshape hk
  have hcore := Decides.self (Store.fits_answered ht hx'.contains_core hk.contains_core)
  have hcore' := Decides.self (Store.fits_answered ht hk.contains_core hx'.contains_core)
  -- whether the query has too many annotations, on either side of the new one
  have hno : ∀ {question : Except Error Bool} {p : Prop}, Decides question p → ¬ p →
      question = .ok false := fun hdecides hnot => (hdecides.congr (iff_false_intro hnot)).eq_decide
  refine ⟨j, c, k, d, hx', hk, fun hne => ?_, ?_, fun hne => ?_, ?_⟩
  · exact .of_decides (ht.fits_decides hh hx') (ht.fits_decides hk hx')
      (and_congr_left fun _ => by omega)
  · rintro rfl
    exact ⟨.of_decides (ht.fits_decides hh hx') hcore' (and_iff_right (by omega)),
      hno (ht.fits_decides hk hx') fun hle => absurd hle.1 (by omega)⟩
  · exact .of_decides (ht.fits_decides hx' hh) (ht.fits_decides hx' hk)
      (and_congr_left fun _ => by omega)
  · rintro rfl
    exact ⟨hno (ht.fits_decides hx' hh) fun hle => absurd hle.1 (by omega),
      .of_decides (ht.fits_decides hx' hk) hcore (and_iff_right (by omega))⟩

def labelledStore : Store :=
  .after [.nominal "Integer", .annotated "count" ⟨5⟩, .annotated "total" ⟨6⟩]

/-- Annotating the type under one annotation once more makes no difference to its match with the
type under two, on either side. -/
theorem labelledStore_fits_annotated :
    Reachable labelledStore ∧ labelledStore.contains ⟨6⟩ ∧
      labelledStore.names.intern "count" = .ok (⟨15, 1⟩, labelledStore.names) ∧
      ∃ h t, Store.annotated "count" ⟨6⟩ labelledStore = .ok h t ∧ t.contains ⟨7⟩ ∧
        t.Wraps ⟨7⟩ 2 ⟨5⟩ ∧ t.Wraps ⟨6⟩ 1 ⟨5⟩ ∧ t.fits ⟨6⟩ ⟨7⟩ = .ok true ∧
        SameAnswer (t.fits h ⟨7⟩) (t.fits ⟨6⟩ ⟨7⟩) ∧
        SameAnswer (t.fits ⟨7⟩ h) (t.fits ⟨7⟩ ⟨6⟩) := by
  have hs : Reachable labelledStore := .after (by decide)
  have hinner : labelledStore.contains ⟨6⟩ := by decide +kernel
  have hname : labelledStore.names.intern "count" = .ok (⟨15, 1⟩, labelledStore.names) :=
    NameTable.intern_eq_ok_iff.mpr (.inl ⟨by decide +kernel, rfl⟩)
  obtain ⟨h, t, hrun, hfits⟩ := Reachable.fits_annotated hs hinner hname
  obtain rfl : (Operation.annotated "count" ⟨6⟩).apply labelledStore = t :=
    Operation.apply_of_run (.annotated "count" ⟨6⟩) rfl hrun
  set t := (Operation.annotated "count" ⟨6⟩).apply labelledStore
  have hnominal : t.shape ⟨5⟩ = .ok (.nominal ⟨14, 0⟩) := by decide +kernel
  have hcount : t.shape ⟨6⟩ = .ok (.annotated ⟨15, 1⟩ ⟨5⟩) := by decide +kernel
  have htotal : t.shape ⟨7⟩ = .ok (.annotated ⟨4, 0⟩ ⟨6⟩) := by decide +kernel
  have hone : t.Wraps ⟨6⟩ 1 ⟨5⟩ := .annotated hcount (.bare hnominal nofun)
  have htwo : t.Wraps ⟨7⟩ 2 ⟨5⟩ := .annotated htotal hone
  obtain ⟨j, c, k, d, hj, hk, hleft, -, hright, -⟩ := hfits ⟨7⟩ htwo.contains
  obtain ⟨rfl, rfl⟩ := hj.unique htwo
  obtain ⟨rfl, rfl⟩ := hk.unique hone
  exact ⟨hs, hinner, hname, h, t, hrun, htwo.contains, htwo, hone,
    by decide +kernel, hleft (by decide), hright (by decide)⟩

/-- The integers fit the query under one annotation and not the one under two, which the integers
under an annotation fit. -/
theorem labelledStore_fits_lost :
    Reachable labelledStore ∧ (Store.annotated "count" ⟨5⟩).run' labelledStore = some ⟨6⟩ ∧
      (Store.annotated "total" ⟨6⟩).run' labelledStore = some ⟨7⟩ ∧
      labelledStore.fits ⟨5⟩ ⟨6⟩ = .ok true ∧ labelledStore.fits ⟨5⟩ ⟨7⟩ = .ok false ∧
      labelledStore.fits ⟨6⟩ ⟨7⟩ = .ok true :=
  ⟨.after (by decide), by decide +kernel, by decide +kernel, by decide +kernel,
    by decide +kernel, by decide +kernel⟩

end GradualTypes
