import GradualTypes.Proofs.Permanence

/-!
The footprint of a search. Whatever a search does to a store, it makes no tuple, and the types that
it adds are made by promotions: for each of them at most one union and, behind it, at most one array
type. A promotion is reported when it happens, and a promoted tuple is not promoted again, so the
promotions that a search reports are the tuples that it found fixed and left promoted, each once.
This is shown of every move of a search, and then of all moves one after the other.
-/

namespace GradualTypes

def Event.promotion? : Event → Option (Handle × Handle)
  | promoted tuple array => some (tuple, array)
  | boundBroken _ => none

namespace Store

variable {s t u : Store} {h : Handle}

/-- What a promotion may add to a store on its way to an array type: a union and that array type. -/
def Supplies (t : Store) (array : Handle) (added : List Slot) : Prop :=
  ∃ members element, t.node array = .ok (.generic .arrayClass [element]) ∧
    (added.map Slot.node).Sublist [.union members, .generic .arrayClass [element]]

/-- What a search does to a store, by the events that it reports and by the types that it adds,
those of one promotion after those of another. The promotions among the events are the tuples that
were fixed before and are promoted after, each once. No tuple is made, and the states of tuples only
go on. -/
structure Footprint (s t : Store) (events : List Event) (added : List (List Slot)) : Prop where
  journal : t.journal.toList = s.journal.toList ++ events
  slots : t.slots.toList = s.slots.toList ++ added.flatten
  supplied : List.Forall₂ (fun promotion types => t.Supplies promotion.2 types)
    (events.filterMap Event.promotion?) added
  nodup : ((events.filterMap Event.promotion?).map Prod.fst).Nodup
  mem_iff : ∀ h array, (h, array) ∈ events.filterMap Event.promotion? ↔
    s.IsFixed h ∧ t.tupleState? h = some (.promoted array)
  tuples : ∀ h, t.IsTuple h ↔ s.IsTuple h
  count : t.tupleCount = s.tupleCount
  advances : s.Advances t

section Formation

variable {node : Node}

private theorem journal_allocate (s : Store) (node : Node) (traits : Traits) (digest : UInt64) :
    (s.allocate node traits digest).journal = s.journal := by
  cases node <;> rfl

/-- The types that are added when a type is formed: itself, if it is new. -/
theorem Formed.slots (hformed : Formed s node h t) :
    ∃ added, t.slots.toList = s.slots.toList ++ added ∧
      (added.map Slot.node).Sublist [node] := by
  rcases hformed.grown with rfl | ⟨traits, digest, -, rfl⟩
  · exact ⟨[], by simp, by simp⟩
  · exact ⟨[⟨node, traits⟩], by simp, by simp⟩

private theorem Formed.journal_eq (hformed : Formed s node h t) : t.journal = s.journal := by
  rcases hformed.grown with rfl | ⟨traits, digest, -, rfl⟩
  · rfl
  · exact journal_allocate ..

private theorem Formed.isTuple_iff (hformed : Formed s node h t) (hnode : node.entry? = none)
    (x : Handle) : t.IsTuple x ↔ s.IsTuple x := by
  refine ⟨?_, hformed.grows.isTuple⟩
  rintro ⟨params, digest, entry, traits, hslot⟩
  rcases hformed.grown with rfl | ⟨traits', digest', -, rfl⟩
  · exact ⟨params, digest, entry, traits, hslot⟩
  · rcases slot_of_slot_allocate hslot with hold | ⟨-, hnew⟩
    · exact ⟨params, digest, entry, traits, hold⟩
    · cases hnew
      cases hnode

variable {kind : SetKind} {parts : List Handle}

private theorem FormedSet.slots (hset : FormedSet s kind parts h t) :
    ∃ added members, t.slots.toList = s.slots.toList ++ added ∧
      (added.map Slot.node).Sublist [kind.node members] := by
  cases hset with
  | @set _ _ members hformed _ =>
    obtain ⟨added, hslots, hadded⟩ := hformed.slots
    exact ⟨added, members, hslots, hadded⟩
  | _ => exact ⟨[], [], by simp, by simp⟩

private theorem FormedSet.journal_eq (hset : FormedSet s kind parts h t) :
    t.journal = s.journal := by
  cases hset with
  | set hformed _ => exact hformed.journal_eq
  | _ => rfl

private theorem FormedSet.isTuple_iff (hset : FormedSet s kind parts h t) (x : Handle) :
    t.IsTuple x ↔ s.IsTuple x := by
  cases hset with
  | set hformed _ => exact hformed.isTuple_iff (by cases kind <;> rfl) x
  | _ => exact Iff.rfl

end Formation

section Moves

private theorem journal_withState (s : Store) (h : Handle) (change : TupleState → TupleState) :
    (s.withState h change).journal = s.journal := by
  rcases withState_cases s h change with heq | ⟨_, _, -, -, heq⟩ <;> rw [heq]

private theorem tupleCount_withState (s : Store) (h : Handle) (change : TupleState → TupleState) :
    (s.withState h change).tupleCount = s.tupleCount := by
  rcases withState_cases s h change with heq | ⟨_, entry, -, -, heq⟩
  · rw [heq]
  · rw [heq, tupleCount, Array.size_modify, tupleCount]

theorem IsFixed.not_promoted {array : Handle} (hfixed : s.IsFixed h) :
    s.tupleState? h ≠ some (.promoted array) := by
  intro hstate
  rw [IsFixed, hstate] at hfixed
  cases hfixed

/-- Recording bounds and reporting broken ones promotes nothing and adds nothing. -/
theorem Alike.footprint {events : List Event} (halike : s.Alike t)
    (hjournal : t.journal.toList = s.journal.toList ++ events)
    (hnone : events.filterMap Event.promotion? = []) (hadvances : s.Advances t) :
    Footprint s t events [] := by
  have hpromoted : ∀ h array, ¬ (s.IsFixed h ∧ t.tupleState? h = some (.promoted array)) := by
    rintro h array ⟨hfixed, hstate⟩
    exact (halike.isFixed_iff.mpr hfixed).not_promoted hstate
  obtain ⟨states, journal, rfl, hstates⟩ := halike
  have hcount := congrArg Array.size hstates
  rw [Array.size_map, Array.size_map] at hcount
  refine ⟨hjournal, by simp, ?_, ?_, ?_, fun _ => Iff.rfl, hcount, hadvances⟩
  · rw [hnone]
    exact .nil
  · rw [hnone]
    exact .nil
  · intro h array
    rw [hnone]
    simpa using hpromoted h array

variable {tuple element array : Handle} {params : List Handle}

/-- A promotion adds at most the union of the elements and the array type of it. -/
theorem footprint_promotedTo (hs : s.WellFormed) (hshape : s.shape tuple = .ok (.tuple params))
    (hunion : formUnion params s = .ok element t) (harray : formArray element t = .ok array u) :
    ∃ types, Footprint s (u.promotedTo tuple array) [.promoted tuple array] [types] := by
  obtain ⟨parts, -, hset, hformed⟩ := promotion_formed hs hshape hunion harray
  obtain ⟨first, members, hslots, hfirst⟩ := hset.slots
  obtain ⟨second, hslots', hsecond⟩ := hformed.slots
  obtain ⟨traits, hslot⟩ := hformed.slot
  have hmove : Move s (u.promotedTo tuple array) := .promotion hshape hunion harray
  have hslot? : ∀ x, (u.promotedTo tuple array).slot? x = u.slot? x := fun _ => slot?_withState
  refine ⟨first ++ second, ?_, ?_, ?_, ?_, ?_, ?_, ?_, hmove.advances hs⟩
  · have hjournal : (u.withState tuple fun _ => .promoted array).journal = s.journal := by
      rw [journal_withState, hformed.journal_eq, hset.journal_eq]
    rw [promotedTo, reported, hjournal, Array.toList_push]
  · have hsame : (u.promotedTo tuple array).slots = u.slots := slots_withState
    rw [hsame, hslots', hslots, List.append_assoc, List.flatten_singleton]
  · refine .cons ⟨members, element, ?_, ?_⟩ .nil
    · exact node_of_slot ((hslot? array).trans hslot)
    · rw [List.map_append]
      exact hfirst.append hsecond
  · simp [Event.promotion?]
  · intro h array'
    have hfixed := isFixed_of_shape hshape
    rw [tupleState?_promotedTo hs hshape hunion harray]
    split
    next hh =>
      subst hh
      simp [Event.promotion?, hfixed, eq_comm]
    next hh =>
      have hstate : ¬ (s.IsFixed h ∧ s.tupleState? h = some (.promoted array')) := by
        rintro ⟨hfixed', hstate⟩
        exact hfixed'.not_promoted hstate
      simp [Event.promotion?, hh, hstate]
  · intro x
    rw [← hset.isTuple_iff, ← hformed.isTuple_iff rfl]
    simp only [IsTuple, hslot?]
  · change (u.withState tuple fun _ => .promoted array).tupleCount = s.tupleCount
    rw [tupleCount_withState, tupleCount, hformed.states_eq rfl, hset.states_eq, tupleCount]

theorem Move.footprint (hst : Move s t) (hs : s.WellFormed) :
    ∃ events added, Footprint s t events added := by
  have hadvances := hst.advances hs
  cases hst with
  | @bound lower upper _ _ _ =>
    refine ⟨[], [], (alike_recorded s lower upper).footprint ?_ rfl hadvances⟩
    rw [recorded, journal_withState, journal_withState, List.append_nil]
  | promotion hshape hunion harray =>
    obtain ⟨types, hprint⟩ := footprint_promotedTo hs hshape hunion harray
    exact ⟨_, _, hprint⟩
  | broken tuple =>
    have halike : s.Alike (s.reported (.boundBroken tuple)) := ⟨s.states, _, rfl, rfl⟩
    exact ⟨[.boundBroken tuple], [], halike.footprint (by simp [reported]) rfl hadvances⟩

end Moves

section Runs

variable {events events' : List Event} {added added' : List (List Slot)}

theorem Footprint.refl (s : Store) : Footprint s s [] [] :=
  (Alike.refl s).footprint (by simp) rfl (.of_eq fun _ _ => rfl)

private theorem Footprint.node_eq {node : Node} (hst : Footprint s t events added)
    (hnode : s.node h = .ok node) : t.node h = .ok node := by
  obtain ⟨traits, hslot⟩ := exists_slot_of_node hnode
  have hkept : t.slot? h = some ⟨node, traits⟩ := by
    rw [slot?, ← Array.getElem?_toList] at hslot ⊢
    rw [hst.slots, List.getElem?_append_left (List.getElem?_eq_some_iff.mp hslot).1, hslot]
  exact node_of_slot hkept

/-- A tuple that is fixed after a search was so before. -/
theorem Footprint.isFixed_before (hst : Footprint s t events added) (hs : s.Linked)
    (hfixed : t.IsFixed h) : s.IsFixed h := by
  obtain ⟨state, hstate⟩ := ((hst.tuples h).mp hfixed.isTuple).exists_state hs
  obtain ⟨next, hnext, hprecedes⟩ := hst.advances hstate
  rw [IsFixed, hnext] at hfixed
  rw [IsFixed, hstate]
  cases hprecedes with
  | bounded => rfl
  | promotion => rfl
  | promoted => cases hfixed

/-- A tuple that is fixed before a search is fixed after it or promoted. -/
theorem Footprint.fixed_or_promoted (hst : Footprint s t events added) (hfixed : s.IsFixed h) :
    t.IsFixed h ∨ ∃ array, t.tupleState? h = some (.promoted array) := by
  obtain ⟨state, hstate, -⟩ := Option.map_eq_some_iff.mp hfixed
  obtain ⟨next, hnext, -⟩ := hst.advances hstate
  cases next with
  | fixed upper lower => exact .inl (by rw [IsFixed, hnext]; rfl)
  | promoted array => exact .inr ⟨array, hnext⟩

private theorem Footprint.promoted_after {array : Handle} (hst : Footprint s t events added)
    (hstate : s.tupleState? h = some (.promoted array)) :
    t.tupleState? h = some (.promoted array) := by
  obtain ⟨next, hnext, hprecedes⟩ := hst.advances hstate
  cases hprecedes
  exact hnext

/-- The footprint of a search that goes on. -/
theorem Footprint.trans (hst : Footprint s t events added) (htu : Footprint t u events' added')
    (hs : s.Linked) : Footprint s u (events ++ events') (added ++ added') where
  journal := by rw [htu.journal, hst.journal, List.append_assoc]
  slots := by rw [htu.slots, hst.slots, List.flatten_append, List.append_assoc]
  supplied := by
    rw [List.filterMap_append]
    refine List.rel_append (hst.supplied.imp ?_) htu.supplied
    rintro promotion types ⟨members, element, harray, hsublist⟩
    exact ⟨members, element, htu.node_eq harray, hsublist⟩
  nodup := by
    rw [List.filterMap_append, List.map_append]
    refine hst.nodup.append htu.nodup fun h hearly hlate => ?_
    obtain ⟨⟨x, array⟩, hfirst, hx⟩ := List.mem_map.mp hearly
    obtain ⟨⟨y, array'⟩, hsecond, hy⟩ := List.mem_map.mp hlate
    obtain rfl : x = y := hx.trans hy.symm
    -- a tuple that was promoted by then is not fixed any more
    have hstate := ((hst.mem_iff x array).mp hfirst).2
    have hfixed := ((htu.mem_iff x array').mp hsecond).1
    exact hfixed.not_promoted hstate
  mem_iff h array := by
    rw [List.filterMap_append, List.mem_append, hst.mem_iff, htu.mem_iff]
    constructor
    · rintro (⟨hfixed, hstate⟩ | ⟨hfixed, hstate⟩)
      · exact ⟨hfixed, htu.promoted_after hstate⟩
      · exact ⟨hst.isFixed_before hs hfixed, hstate⟩
    · rintro ⟨hfixed, hstate⟩
      rcases hst.fixed_or_promoted hfixed with hfixed' | ⟨array', hstate'⟩
      · exact .inr ⟨hfixed', hstate⟩
      · have hlater := htu.promoted_after hstate'
        rw [hstate] at hlater
        cases hlater
        exact .inl ⟨hfixed, hstate'⟩
  tuples h := (htu.tuples h).trans (hst.tuples h)
  count := htu.count.trans hst.count
  advances := hst.advances.trans htu.advances

/-- The moves of a search leave a footprint. -/
theorem Moves.footprint (hst : Moves s t) (hs : s.WellFormed) :
    ∃ events added, Footprint s t events added := by
  induction hst with
  | refl => exact ⟨[], [], .refl s⟩
  | tail hsm hmt ih =>
    obtain ⟨events, added, hprint⟩ := ih
    obtain ⟨events', added', hprint'⟩ := hmt.footprint (Moves.settles hsm hs).wellFormed
    exact ⟨_, _, hprint.trans hprint' hs.linked⟩

/-- A search that promotes no tuple adds no type. -/
theorem Footprint.slots_eq (hst : Footprint s t events added)
    (hfixed : ∀ h, s.IsFixed h → t.IsFixed h) : t.slots = s.slots := by
  have hnone : events.filterMap Event.promotion? = [] := by
    refine List.eq_nil_iff_forall_not_mem.mpr fun ⟨h, array⟩ hmem => ?_
    obtain ⟨hbefore, hstate⟩ := (hst.mem_iff h array).mp hmem
    exact (hfixed h hbefore).not_promoted hstate
  have hadded := hst.supplied
  rw [hnone, List.forall₂_nil_left_iff] at hadded
  have hslots := hst.slots
  rw [hadded, List.flatten_nil, List.append_nil] at hslots
  exact Array.toList_inj.mp hslots

end Runs

end Store

open Store in
/-- In a reachable store, subtyping and promotion come to an end for any types of it. They make no
tuple. The promotions that they report are those of the tuples that were fixed before and are
promoted after, each once and with the array type that the tuple stands for. For each of these they
add at most one union and one array type, and they add nothing else; so they add nothing if no tuple
is promoted. -/
theorem Reachable.search_footprint {s : Store} (hs : Reachable s) :
    (∀ a b, s.contains a → s.contains b → ∃ answer t events added,
      Store.subtype a b s = .ok answer t ∧ Footprint s t events added ∧
        ((∀ h, s.IsFixed h → t.IsFixed h) → t.slots = s.slots)) ∧
    ∀ a, s.contains a → ∃ answer t events added,
      Store.promote a s = .ok answer t ∧ Footprint s t events added ∧
        ((∀ h, s.IsFixed h → t.IsFixed h) → t.slots = s.slots) := by
  have hwf := hs.wellFormed
  refine ⟨fun a b ha hb => ?_, fun a ha => ?_⟩
  · obtain ⟨answer, t, hrun, hmoves⟩ := subtype_moves hwf ha hb
    obtain ⟨events, added, hprint⟩ := hmoves.footprint hwf
    exact ⟨answer, t, events, added, hrun, hprint, hprint.slots_eq⟩
  · obtain ⟨answer, t, hrun, hmoves⟩ := promote_moves hwf ha
    obtain ⟨events, added, hprint⟩ := hmoves.footprint hwf
    exact ⟨answer, t, events, added, hrun, hprint, hprint.slots_eq⟩

/-- A tuple of an integer and a string that was found below one of an object and a string, which was
found below itself. -/
def steppedStore : Store :=
  .after [.nominal "Integer", .nominal "String", .nominal "Object", .tuple [⟨5⟩, ⟨6⟩],
    .tuple [⟨7⟩, ⟨6⟩], .subtype ⟨8⟩ ⟨9⟩, .subtype ⟨9⟩ ⟨9⟩]

open Store in
/-- In `steppedStore` the promotion of the second tuple promotes the first one as well. For each of
them a union and an array type are made. The recorded bound is broken, as is found out for both. -/
theorem steppedStore_search_footprint :
    Reachable steppedStore ∧ steppedStore.contains ⟨9⟩ ∧
      ∃ t added, Store.promote ⟨9⟩ steppedStore = .ok false t ∧
        Footprint steppedStore t [.promoted ⟨9⟩ ⟨11⟩, .promoted ⟨8⟩ ⟨13⟩, .boundBroken ⟨8⟩,
          .boundBroken ⟨9⟩] added ∧
        added.flatten.map Slot.node = [.union [⟨7⟩, ⟨6⟩], .generic .arrayClass [⟨10⟩],
          .union [⟨5⟩, ⟨6⟩], .generic .arrayClass [⟨12⟩]] := by
  have hs : Reachable steppedStore := .after (by decide)
  have hcontains : steppedStore.contains ⟨9⟩ := by decide +kernel
  have hrun : Store.promote ⟨9⟩ steppedStore =
      .ok false ((Operation.promote ⟨9⟩).apply steppedStore) :=
    Operation.run_eq_apply rfl (by decide +kernel)
  obtain ⟨_, _, events, added, hrun', hprint, -⟩ :=
    (Reachable.search_footprint hs).2 ⟨9⟩ hcontains
  rw [hrun] at hrun'
  cases hrun'
  have hempty : steppedStore.journal.toList = [] := by decide +kernel
  have hjournal := hprint.journal
  rw [hempty, List.nil_append] at hjournal
  have hsize : steppedStore.slots.toList.length = 10 := by decide +kernel
  have hslots := congrArg (List.drop 10) hprint.slots
  rw [List.drop_left' hsize] at hslots
  refine ⟨hs, hcontains, _, added, hrun, ?_, ?_⟩
  · convert hprint
    rw [← hjournal]
    decide +kernel
  · rw [← hslots]
    decide +kernel

end GradualTypes
