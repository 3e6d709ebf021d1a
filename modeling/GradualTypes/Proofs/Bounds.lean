import GradualTypes.Proofs.Simulation

/-!
The bounds that tuples have recorded, and the order in which they stand. A bound is entered at the
end of a list unless it is there already. Entering the same bounds in another order gives a list
with the same beginning, in which the new bounds stand in another order.
-/

namespace GradualTypes

section Lists

variable {α : Type} {xs ys : List α}

/-- The lists differ only in that a stretch of movable elements stands in another order. -/
def Rearranged (movable : α → Prop) (xs ys : List α) : Prop :=
  ∃ before moved moved' after, xs = before ++ (moved ++ after) ∧
    ys = before ++ (moved' ++ after) ∧ moved.Perm moved' ∧ ∀ x ∈ moved, movable x

namespace Rearranged

variable {movable movable' : α → Prop}

theorem refl (xs : List α) : Rearranged movable xs xs :=
  ⟨xs, [], [], [], by simp, by simp, .refl _, by simp⟩

theorem mono (h : Rearranged movable xs ys) (himp : ∀ x, movable x → movable' x) :
    Rearranged movable' xs ys := by
  obtain ⟨before, moved, moved', after, hxs, hys, hperm, hmoved⟩ := h
  exact ⟨before, moved, moved', after, hxs, hys, hperm, fun x hx => himp x (hmoved x hx)⟩

theorem perm (h : Rearranged movable xs ys) : xs.Perm ys := by
  obtain ⟨before, moved, moved', after, rfl, rfl, hperm, -⟩ := h
  exact (hperm.append_right after).append_left before

end Rearranged

variable [DecidableEq α]

def enter (xs : List α) (x : α) : List α :=
  if x ∈ xs then xs else xs ++ [x]

theorem mem_enter {x y : α} : y ∈ enter xs x ↔ y ∈ xs ∨ y = x := by
  unfold enter
  split
  next hx => exact ⟨.inl, fun hy => hy.elim id fun heq => heq ▸ hx⟩
  next => simp

theorem nodup_enter (hxs : xs.Nodup) (x : α) : (enter xs x).Nodup := by
  unfold enter
  split
  next => exact hxs
  next hx => exact hxs.append (List.nodup_singleton x) (List.disjoint_singleton.mpr hx)

/-- What is entered stands behind what was there, each new element once. -/
private theorem foldl_enter_eq (xs ys : List α) :
    ∃ added, ys.foldl enter xs = xs ++ added ∧ added.Nodup ∧ ∀ y, y ∈ added ↔ y ∈ ys ∧ y ∉ xs := by
  induction ys generalizing xs with
  | nil => exact ⟨[], by simp, .nil, by simp⟩
  | cons y ys ih =>
    obtain ⟨added, heq, hnodup, hmem⟩ := ih (enter xs y)
    rw [List.foldl_cons, heq]
    by_cases hy : y ∈ xs
    · rw [enter, if_pos hy] at hmem ⊢
      refine ⟨added, rfl, hnodup, fun z => ?_⟩
      rw [hmem, List.mem_cons]
      refine and_congr_left fun hz => ⟨.inr, fun hor => hor.resolve_left ?_⟩
      rintro rfl
      exact hz hy
    · rw [enter, if_neg hy] at hmem ⊢
      refine ⟨y :: added, by simp, List.nodup_cons.mpr ⟨?_, hnodup⟩, fun z => ?_⟩
      · rw [hmem]
        simp
      · rw [List.mem_cons, hmem, List.mem_cons]
        grind

/-- Enters, for all pairs with a given key, what they have beside it. -/
def enterFrom {β : Type} (key value : β → α) (x : α) (pairs : List β) (xs : List α) : List α :=
  ((pairs.filter (key · = x)).map value).foldl enter xs

private theorem enterFrom_cons {β : Type} {key value : β → α} {x : α} (pair : β) (pairs : List β)
    (xs : List α) :
    enterFrom key value x (pair :: pairs) xs =
      enterFrom key value x pairs (if x = key pair then enter xs (value pair) else xs) := by
  by_cases hx : key pair = x
  · rw [enterFrom, List.filter_cons_of_pos (by simpa using hx), if_pos hx.symm]
    rfl
  · rw [enterFrom, List.filter_cons_of_neg (by simpa using hx), if_neg (Ne.symm hx)]
    rfl

/-- The order of the pairs decides only about the order of what is new. -/
theorem enterFrom_perm {β : Type} {key value : β → α} {pairs pairs' : List β} (x : α)
    (xs : List α) (hperm : pairs.Perm pairs') :
    ∃ added added', enterFrom key value x pairs xs = xs ++ added ∧
      enterFrom key value x pairs' xs = xs ++ added' ∧ added.Perm added' ∧
        ∀ y ∈ added, ∃ pair ∈ pairs, key pair = x ∧ value pair = y := by
  obtain ⟨added, heq, hnodup, hmem⟩ := foldl_enter_eq xs ((pairs.filter (key · = x)).map value)
  obtain ⟨added', heq', hnodup', hmem'⟩ :=
    foldl_enter_eq xs ((pairs'.filter (key · = x)).map value)
  refine ⟨added, added', heq, heq', ?_, fun y hy => ?_⟩
  · refine (List.perm_ext_iff_of_nodup hnodup hnodup').mpr fun y => ?_
    rw [hmem, hmem', ((hperm.filter _).map _).mem_iff]
  · obtain ⟨pair, hpair, hvalue⟩ := List.mem_map.mp ((hmem y).mp hy).1
    obtain ⟨hpair, hkey⟩ := List.mem_filter.mp hpair
    exact ⟨pair, hpair, of_decide_eq_true hkey, hvalue⟩

theorem perm_enterFrom {β : Type} {key value : β → α} {pairs pairs' : List β} (x : α)
    (xs : List α) (hperm : pairs.Perm pairs') :
    (enterFrom key value x pairs xs).Perm (enterFrom key value x pairs' xs) := by
  obtain ⟨added, added', heq, heq', hadded, -⟩ := enterFrom_perm x xs hperm
  rw [heq, heq']
  exact hadded.append_left xs

/-- A further element goes to the end of both lists. -/
theorem Rearranged.enter {movable : α → Prop} (h : Rearranged movable xs ys) (x : α) :
    Rearranged movable (enter xs x) (enter ys x) := by
  rw [GradualTypes.enter, GradualTypes.enter]
  by_cases hx : x ∈ xs
  · rw [if_pos hx, if_pos (h.perm.mem_iff.mp hx)]
    exact h
  · rw [if_neg hx, if_neg (mt h.perm.mem_iff.mpr hx)]
    obtain ⟨before, moved, moved', after, rfl, rfl, hperm, hmoved⟩ := h
    exact ⟨before, moved, moved', after ++ [x], by simp, by simp, hperm, hmoved⟩

end Lists

namespace Store

variable {s s' t u : Store} {h x lower upper : Handle}

def IsFixed (s : Store) (h : Handle) : Prop :=
  (s.tupleState? h).map TupleState.array? = some none

instance : Decidable (s.IsFixed h) :=
  inferInstanceAs (Decidable (_ = _))

theorem isFixed_of_shape {params : List Handle} (hshape : s.shape h = .ok (.tuple params)) :
    s.IsFixed h := by
  obtain ⟨digest, entry, traits, upper, lower, hslot, hstate⟩ := slot_of_shape_tuple hshape
  simp [IsFixed, tupleState?, hslot, Node.entry?, hstate, TupleState.array?]

/-- What a view shows of the states, it shows of the state of each tuple. -/
private theorem map_tupleState?_congr {β : Type} {view : TupleState → β}
    (hslots : t.slots = s.slots) (hstates : t.states.map view = s.states.map view) (h : Handle) :
    (t.tupleState? h).map view = (s.tupleState? h).map view := by
  have hread : ∀ entry : Nat, t.states[entry]?.map view = s.states[entry]?.map view := by
    intro entry
    rw [← Array.getElem?_map, hstates, Array.getElem?_map]
  have hslot : t.slot? h = s.slot? h := by rw [slot?, slot?, hslots]
  rw [tupleState?, tupleState?, hslot]
  cases s.slot? h with
  | none => rfl
  | some slot =>
    cases hentry : slot.node.entry? with
    | none => simp [hentry]
    | some entry => simpa [hentry] using hread entry

private theorem map_tupleState?_withState {β : Type} {view : TupleState → β}
    {change : TupleState → TupleState} (hkeep : ∀ state, view (change state) = view state) :
    ((s.withState h change).tupleState? x).map view = (s.tupleState? x).map view := by
  refine map_tupleState?_congr slots_withState ?_ x
  rcases withState_cases s h change with heq | ⟨slot, entry, -, -, heq⟩
  · rw [heq]
  · rw [heq]
    exact map_modify_of_eq hkeep s.states entry

theorem Alike.isFixed_iff (halike : s.Alike s') : s'.IsFixed h ↔ s.IsFixed h := by
  obtain ⟨states, journal, rfl, hstates⟩ := halike
  have hsame := map_tupleState?_congr (s := s) (t := { s with states, journal }) rfl hstates h
  rw [IsFixed, IsFixed, hsame]

theorem tupleState?_withState_self (change : TupleState → TupleState) :
    (s.withState h change).tupleState? h = (s.tupleState? h).map change := by
  cases hslot : s.slot? h with
  | none => simp [tupleState?, hslot]
  | some slot =>
    cases hentry : slot.node.entry? with
    | none => simp [tupleState?, hslot, hentry]
    | some entry =>
      have heq : s.withState h change = { s with states := s.states.modify entry change } := by
        simp [withState, hslot, hentry]
      rw [tupleState?, slot?_withState, hslot, heq, tupleState?, hslot]
      simp [hentry, Array.getElem?_modify]

/-- A change to the state of one tuple leaves the states of the others alone. Whose state it is
depends on the slots only. -/
theorem Linked.tupleState?_withState_of_ne (hs : s.Linked) (hslots : t.slots = s.slots)
    (change : TupleState → TupleState) (hne : x ≠ h) :
    (t.withState h change).tupleState? x = t.tupleState? x := by
  have hslot? : ∀ y, t.slot? y = s.slot? y := fun y => by rw [slot?, slot?, hslots]
  rcases withState_cases t h change with heq | ⟨slot, entry, hslot, hentry, heq⟩
  · rw [heq]
  · rw [tupleState?, tupleState?, slot?_withState]
    apply Option.bind_congr
    intro slot' hslot'
    apply Option.bind_congr
    intro entry' hentry'
    have hentries : entry ≠ entry' := by
      rintro rfl
      rw [hslot?] at hslot hslot'
      exact hne (hs.entry_unique hslot' hslot hentry' hentry)
    rw [heq, Array.getElem?_modify, if_neg hentries]

section Recorded

/-- The upper bounds of a tuple after it, or another, was recorded. -/
theorem Linked.upperBounds_recorded (hs : s.Linked) :
    (s.recorded lower upper).upperBounds x =
      if x = lower ∧ s.IsFixed x then enter (s.upperBounds x) upper else s.upperBounds x := by
  have hkeep : ∀ state : TupleState, (state.addLower lower).upper = state.upper := by
    intro state
    cases state <;> rfl
  rw [upperBounds, recorded, map_tupleState?_withState hkeep]
  by_cases hx : x = lower
  · subst hx
    rw [tupleState?_withState_self, Option.map_map, upperBounds]
    cases hstate : s.tupleState? x with
    | none => simp [IsFixed, hstate]
    | some state => cases state <;> simp [IsFixed, hstate] <;> rfl
  · rw [hs.tupleState?_withState_of_ne rfl _ hx, if_neg fun h => hx h.1]
    rfl

/-- The lower bounds of a tuple after it, or another, was recorded. -/
theorem Linked.lowerBounds_recorded (hs : s.Linked) :
    (s.recorded lower upper).lowerBounds x =
      if x = upper ∧ s.IsFixed x then enter (s.lowerBounds x) lower else s.lowerBounds x := by
  rw [lowerBounds, recorded]
  by_cases hx : x = upper
  · subst hx
    have hkeep : ∀ state : TupleState,
        (TupleState.lower ∘ TupleState.addLower lower) (state.addUpper x) =
          (TupleState.lower ∘ TupleState.addLower lower) state := by
      intro state
      cases state <;> rfl
    rw [tupleState?_withState_self, Option.map_map, map_tupleState?_withState hkeep, lowerBounds]
    cases hstate : s.tupleState? x with
    | none => simp [IsFixed, hstate]
    | some state => cases state <;> simp [IsFixed, hstate] <;> rfl
  · have hkeep : ∀ state : TupleState, (state.addUpper upper).lower = state.lower := by
      intro state
      cases state <;> rfl
    rw [hs.tupleState?_withState_of_ne slots_withState _ hx, map_tupleState?_withState hkeep,
      if_neg fun h => hx h.1]
    rfl

theorem IsFixed.isTuple (hh : s.IsFixed h) : s.IsTuple h := by
  cases hslot : s.slot? h with
  | none => simp [IsFixed, tupleState?, hslot] at hh
  | some slot =>
    obtain ⟨node, traits⟩ := slot
    cases node with
    | tuple params digest entry => exact ⟨params, digest, entry, traits, hslot⟩
    | _ => simp [IsFixed, tupleState?, hslot, Node.entry?] at hh

def recordedAll (s : Store) (pairs : List (Handle × Handle)) : Store :=
  pairs.foldl (fun s pair => s.recorded pair.1 pair.2) s

theorem alike_recordedAll (s : Store) (pairs : List (Handle × Handle)) :
    s.Alike (s.recordedAll pairs) := by
  induction pairs generalizing s with
  | nil => exact .refl s
  | cons pair pairs ih => exact (alike_recorded s pair.1 pair.2).trans (ih _)

variable {pairs : List (Handle × Handle)} (hs : s.WellFormed)
  (hfixed : ∀ pair ∈ pairs, s.IsFixed pair.1 ∧ s.IsFixed pair.2)
include hs hfixed

theorem shifts_recordedAll : Shifts s (s.recordedAll pairs) := by
  induction pairs generalizing s with
  | nil => exact .refl
  | cons pair pairs ih =>
    obtain ⟨hlower, hupper⟩ := hfixed pair List.mem_cons_self
    have hshift : Shift s (s.recorded pair.1 pair.2) := .bound hlower.isTuple hupper.isTuple
    refine .head hshift (ih (hshift.settles hs).wellFormed fun pair' hpair => ?_)
    rw [(alike_recorded s _ _).isFixed_iff, (alike_recorded s _ _).isFixed_iff]
    exact hfixed pair' (List.mem_cons_of_mem pair hpair)

/-- The bounds of a tuple are entered one after the other, in the order of the pairs. -/
theorem WellFormed.bounds_recordedAll (x : Handle) :
    (s.recordedAll pairs).upperBounds x = enterFrom (·.1) (·.2) x pairs (s.upperBounds x) ∧
      (s.recordedAll pairs).lowerBounds x = enterFrom (·.2) (·.1) x pairs (s.lowerBounds x) := by
  induction pairs generalizing s with
  | nil => exact ⟨rfl, rfl⟩
  | cons pair pairs ih =>
    obtain ⟨hlower, hupper⟩ := hfixed pair List.mem_cons_self
    have halike := alike_recorded s pair.1 pair.2
    obtain ⟨hrest, hrest'⟩ := ih (settles_recorded hs hlower.isTuple hupper.isTuple).wellFormed
      fun pair' hpair => by
        rw [halike.isFixed_iff, halike.isFixed_iff]
        exact hfixed pair' (List.mem_cons_of_mem pair hpair)
    rw [hs.linked.upperBounds_recorded] at hrest
    rw [hs.linked.lowerBounds_recorded] at hrest'
    rw [enterFrom_cons, enterFrom_cons]
    refine ⟨hrest.trans (congrArg _ ?_), hrest'.trans (congrArg _ ?_)⟩
    · grind
    · grind

end Recorded

section Promotion

theorem Formed.tupleState?_eq {node : Node} (hformed : Formed s node h t)
    (hnode : node.entry? = none) (x : Handle) : t.tupleState? x = s.tupleState? x := by
  have hstates := hformed.states_eq hnode
  rcases hformed.grown with rfl | ⟨traits, digest, -, rfl⟩
  · rfl
  · rw [tupleState?, slot?_allocate, hstates]
    split
    next hx =>
      have hslot : s.slot? x = none := by
        rw [hx, slot?]
        exact Array.getElem?_eq_none le_rfl
      simp [tupleState?, hslot, hnode]
    next => rfl

private theorem FormedSet.tupleState?_eq {kind : SetKind} {parts : List Handle}
    (hset : FormedSet s kind parts h t) (x : Handle) : t.tupleState? x = s.tupleState? x := by
  cases hset with
  | set hformed _ => exact hformed.tupleState?_eq (by cases kind <;> rfl) x
  | _ => rfl

variable {tuple element array : Handle} {params : List Handle} (hs : s.WellFormed)
  (hshape : s.shape tuple = .ok (.tuple params)) (hunion : formUnion params s = .ok element t)
  (harray : formArray element t = .ok array u)
include hs hshape hunion harray

/-- A promotion changes the state of the tuple and no other. -/
theorem tupleState?_promotedTo (x : Handle) :
    (u.promotedTo tuple array).tupleState? x =
      if x = tuple then some (.promoted array) else s.tupleState? x := by
  obtain ⟨parts, -, hset, hformed⟩ := promotion_formed hs hshape hunion harray
  have hold : u.tupleState? x = s.tupleState? x :=
    (hformed.tupleState?_eq rfl x).trans (hset.tupleState?_eq x)
  change (u.withState tuple fun _ => .promoted array).tupleState? x = _
  split
  next hx =>
    subst hx
    have hfixed := isFixed_of_shape hshape
    rw [tupleState?_withState_self, hold]
    cases hstate : s.tupleState? x with
    | none => simp [IsFixed, hstate] at hfixed
    | some state => rfl
  next hx =>
    have hu := (hset.grows.trans hformed.grows).wellFormed hs
    rw [hu.linked.tupleState?_withState_of_ne rfl _ hx, hold]

/-- The tuple gives up its bounds. -/
theorem bounds_promotedTo (x : Handle) :
    (u.promotedTo tuple array).upperBounds x = (if x = tuple then [] else s.upperBounds x) ∧
      (u.promotedTo tuple array).lowerBounds x = if x = tuple then [] else s.lowerBounds x := by
  rw [upperBounds, lowerBounds, tupleState?_promotedTo hs hshape hunion harray]
  split
  · exact ⟨rfl, rfl⟩
  · exact ⟨rfl, rfl⟩

end Promotion

end Store

end GradualTypes
