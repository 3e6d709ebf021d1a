import GradualTypes.Proofs.Bounds
import GradualTypes.Proofs.Unpromoted

/-!
The states that tuples go through. A tuple is made without bounds. As long as two tuples are fixed,
what one of them has recorded about the other, the other has recorded as well, and only tuples of as
many elements are recorded, each once. A promoted tuple has given up its own bounds, but others may
still list it. It stands for an array type from then on, and for the same one in all later stores.
-/

namespace GradualTypes

namespace Store

variable {s t u : Store} {h x : Handle}

/-- The recorded bounds agree with one another. -/
structure Paired (s : Store) : Prop where
  upper_nodup : ∀ h, (s.upperBounds h).Nodup
  lower_nodup : ∀ h, (s.lowerBounds h).Nodup
  arity_eq : ∀ h, ∀ b ∈ s.upperBounds h ++ s.lowerBounds h, s.arity? b = s.arity? h
  mem_iff : ∀ a b, s.IsFixed a → s.IsFixed b → (b ∈ s.upperBounds a ↔ a ∈ s.lowerBounds b)

section Change

/-- The bounds of a tuple depend on the slots and on the states only. -/
private theorem tupleState?_congr (hslots : t.slots = s.slots) (hstates : t.states = s.states)
    (h : Handle) : t.tupleState? h = s.tupleState? h := by
  simp only [tupleState?, slot?, hslots, hstates]

private theorem Paired.recast (hs : s.Paired) (hslots : t.slots = s.slots)
    (hstates : t.states = s.states) : t.Paired := by
  have hstate := tupleState?_congr hslots hstates
  have hupper : t.upperBounds = s.upperBounds := by
    funext h
    simp only [upperBounds, hstate]
  have hlower : t.lowerBounds = s.lowerBounds := by
    funext h
    simp only [lowerBounds, hstate]
  have hfixed : t.IsFixed = s.IsFixed := by
    funext h
    simp only [IsFixed, hstate]
  have harity : t.arity? = s.arity? := by
    funext h
    simp only [arity?, slot?, hslots]
  constructor
  · simpa only [hupper] using hs.upper_nodup
  · simpa only [hlower] using hs.lower_nodup
  · simpa only [hupper, hlower, harity] using hs.arity_eq
  · simpa only [hupper, hlower, hfixed] using hs.mem_iff

private theorem Linked.contains_of_bound (hs : s.Linked) {b : Handle}
    (hb : b ∈ s.upperBounds h ++ s.lowerBounds h) : s.contains b ∧ s.contains h := by
  refine ⟨(hs.isTuple_bound (List.mem_append.mpr (List.mem_append.mp hb).symm)).contains, ?_⟩
  by_contra hh
  have hslot : s.slot? h = none := by
    cases hslot : s.slot? h with
    | none => rfl
    | some slot => exact absurd (contains_of_slot hslot) hh
  simp [upperBounds, lowerBounds, tupleState?, hslot] at hb

theorem tupleState?_of_slot {slot : Slot} (hslot : s.slot? h = some slot) :
    s.tupleState? h = slot.node.entry?.bind fun entry => s.states[entry]? := by
  rw [tupleState?, hslot]
  rfl

theorem Linked.entry_lt_of_slot (hs : s.Linked) {slot : Slot} {entry : Nat}
    (hslot : s.slot? h = some slot) (hentry : slot.node.entry? = some entry) :
    entry < s.states.size := by
  obtain ⟨node, traits⟩ := slot
  cases node with
  | tuple params own entry' =>
    cases hentry
    exact hs.entry_lt hslot
  | _ => cases hentry

section Allocate

variable {node : Node} {traits : Traits} {digest : UInt64}

/-- A new tuple has no bounds, and the states of the others stay as they are. -/
theorem Linked.tupleState?_allocate (hs : s.Linked) (ha : s.Admits node traits digest)
    (x : Handle) : (s.allocate node traits digest).tupleState? x =
      if x = ⟨s.size⟩ then node.entry?.map fun _ => .unbounded else s.tupleState? x := by
  rw [tupleState?, slot?_allocate, states_allocate]
  split
  next =>
    cases node with
    | tuple params own entry =>
      obtain ⟨rfl, -⟩ := ha.entry params own entry rfl
      simp [Node.entry?]
    | _ => rfl
  next =>
    apply Option.bind_congr
    intro slot hslot
    apply Option.bind_congr
    intro entry hentry
    have hlt := hs.entry_lt_of_slot hslot hentry
    split
    · exact Array.getElem?_push_lt hlt ▸ (Array.getElem?_eq_getElem hlt).symm
    · rfl

private theorem Linked.bounds_allocate (hs : s.Linked) (ha : s.Admits node traits digest)
    (x : Handle) : (s.allocate node traits digest).upperBounds x = s.upperBounds x ∧
      (s.allocate node traits digest).lowerBounds x = s.lowerBounds x := by
  rw [upperBounds, lowerBounds, hs.tupleState?_allocate ha]
  split
  next hx =>
    have hslot : s.slot? x = none := by
      rw [hx, slot?]
      exact Array.getElem?_eq_none le_rfl
    cases hentry : node.entry? <;>
      simp [upperBounds, lowerBounds, tupleState?, hslot, TupleState.unbounded, TupleState.upper,
        TupleState.lower]
  next => exact ⟨rfl, rfl⟩

/-- Two tuples of which one is new have recorded nothing about each other. -/
theorem Paired.allocate (hp : s.Paired) (hs : s.Linked) (ha : s.Admits node traits digest) :
    (s.allocate node traits digest).Paired := by
  have hupper := fun x => (hs.bounds_allocate ha x).1
  have hlower := fun x => (hs.bounds_allocate ha x).2
  have hretains : s.Retains (s.allocate node traits digest) :=
    (Extends.allocate s node traits digest).toRetains
  refine ⟨fun h => ?_, fun h => ?_, fun h b hb => ?_, fun a b hfixed hfixed' => ?_⟩
  · rw [hupper]
    exact hp.upper_nodup h
  · rw [hlower]
    exact hp.lower_nodup h
  · rw [hupper, hlower] at hb
    obtain ⟨hb', hh⟩ := hs.contains_of_bound hb
    rw [hretains.arity?_eq hb', hretains.arity?_eq hh]
    exact hp.arity_eq h b hb
  · rw [hupper, hlower]
    have hold : ∀ {x}, (s.allocate node traits digest).IsFixed x → s.contains x → s.IsFixed x := by
      intro x hx hcontains
      have hne : x ≠ ⟨s.size⟩ := by
        rintro rfl
        exact lt_irrefl _ (contains_iff.mp hcontains)
      rwa [IsFixed, hs.tupleState?_allocate ha, if_neg hne] at hx
    constructor
    · intro hb
      obtain ⟨hb', ha'⟩ := hs.contains_of_bound (List.mem_append_left _ hb)
      exact (hp.mem_iff a b (hold hfixed ha') (hold hfixed' hb')).mp hb
    · intro ha
      obtain ⟨ha', hb'⟩ := hs.contains_of_bound (List.mem_append_right _ ha)
      exact (hp.mem_iff a b (hold hfixed ha') (hold hfixed' hb')).mpr ha

end Allocate

section Recorded

variable {b lower upper : Handle}

private theorem Linked.mem_upperBounds_recorded (hs : s.Linked) :
    b ∈ (s.recorded lower upper).upperBounds x ↔
      b ∈ s.upperBounds x ∨ (x = lower ∧ s.IsFixed x) ∧ b = upper := by
  rw [hs.upperBounds_recorded]
  split
  next hx => rw [mem_enter, and_iff_right hx]
  next hx => simp [hx]

private theorem Linked.mem_lowerBounds_recorded (hs : s.Linked) :
    b ∈ (s.recorded lower upper).lowerBounds x ↔
      b ∈ s.lowerBounds x ∨ (x = upper ∧ s.IsFixed x) ∧ b = lower := by
  rw [hs.lowerBounds_recorded]
  split
  next hx => rw [mem_enter, and_iff_right hx]
  next hx => simp [hx]

/-- A bound is recorded on both sides, each of which takes it as long as it is fixed. -/
theorem Paired.recorded {n : Nat} (hp : s.Paired) (hs : s.Linked)
    (hlower : s.arity? lower = some n) (hupper : s.arity? upper = some n) :
    (s.recorded lower upper).Paired := by
  have harity : (s.recorded lower upper).arity? = s.arity? := by
    funext x
    simp only [arity?, Store.recorded, slot?_withState]
  refine ⟨fun h => ?_, fun h => ?_, fun h b hb => ?_, fun a b ha hb => ?_⟩
  · rw [hs.upperBounds_recorded]
    split
    · exact nodup_enter (hp.upper_nodup h) upper
    · exact hp.upper_nodup h
  · rw [hs.lowerBounds_recorded]
    split
    · exact nodup_enter (hp.lower_nodup h) lower
    · exact hp.lower_nodup h
  · rw [harity]
    rcases List.mem_append.mp hb with hb | hb
    · rcases hs.mem_upperBounds_recorded.mp hb with hb | ⟨⟨rfl, -⟩, rfl⟩
      · exact hp.arity_eq h b (List.mem_append_left _ hb)
      · rw [hlower, hupper]
    · rcases hs.mem_lowerBounds_recorded.mp hb with hb | ⟨⟨rfl, -⟩, rfl⟩
      · exact hp.arity_eq h b (List.mem_append_right _ hb)
      · rw [hlower, hupper]
  · rw [(alike_recorded s lower upper).isFixed_iff] at ha hb
    rw [hs.mem_upperBounds_recorded, hs.mem_lowerBounds_recorded, hp.mem_iff a b ha hb]
    simp only [ha, hb, and_true]
    exact or_congr_right and_comm

end Recorded

section Promotion

variable {tuple element array : Handle} {params : List Handle} (hp : s.Paired)
  (hs : s.WellFormed) (hshape : s.shape tuple = .ok (.tuple params))
  (hunion : formUnion params s = .ok element t) (harray : formArray element t = .ok array u)
include hp hs hshape hunion harray

/-- A promoted tuple is not fixed any more, so it does not matter that others still list it. -/
theorem Paired.promotedTo : (u.promotedTo tuple array).Paired := by
  have hbounds := bounds_promotedTo hs hshape hunion harray
  have hretains := ((shifts_promotedTo hshape hunion harray).settles hs).toRetains
  have hfixed : ∀ {x}, (u.promotedTo tuple array).IsFixed x → x ≠ tuple ∧ s.IsFixed x := by
    intro x hx
    rw [IsFixed, tupleState?_promotedTo hs hshape hunion harray] at hx
    split at hx
    next => cases hx
    next hne => exact ⟨hne, hx⟩
  have hsub : ∀ {h b},
      b ∈ (u.promotedTo tuple array).upperBounds h ++ (u.promotedTo tuple array).lowerBounds h →
        b ∈ s.upperBounds h ++ s.lowerBounds h := by
    intro h b hb
    rw [(hbounds h).1, (hbounds h).2] at hb
    split at hb
    · cases hb
    · exact hb
  refine ⟨fun h => ?_, fun h => ?_, fun h b hb => ?_, fun a b ha hb => ?_⟩
  · rw [(hbounds h).1]
    split
    · exact .nil
    · exact hp.upper_nodup h
  · rw [(hbounds h).2]
    split
    · exact .nil
    · exact hp.lower_nodup h
  · obtain ⟨hb', hh⟩ := hs.linked.contains_of_bound (hsub hb)
    rw [hretains.arity?_eq hb', hretains.arity?_eq hh]
    exact hp.arity_eq h b (hsub hb)
  · obtain ⟨hne, ha⟩ := hfixed ha
    obtain ⟨hne', hb⟩ := hfixed hb
    rw [(hbounds a).1, (hbounds b).2, if_neg hne, if_neg hne']
    exact hp.mem_iff a b ha hb

end Promotion

theorem Step.paired (hst : Step s t) (hs : s.WellFormed) (hp : s.Paired) : t.Paired := by
  cases hst with
  | add hadds =>
    obtain ⟨node, traits, digest, ha, rfl⟩ := hadds
    exact hp.allocate hs.linked ha
  | move hmove =>
    cases hmove with
    | bound hlower hupper => exact hp.recorded hs.linked hlower hupper
    | promotion hshape hunion harray => exact hp.promotedTo hs hshape hunion harray
    | broken tuple => exact hp.recast rfl rfl
  | intern hintern => exact hp.recast rfl rfl

end Change

private theorem paired_initial (hash : WordHash) : (initial hash).Paired := by
  have hstate : ∀ h, (initial hash).tupleState? h = none := by
    intro h
    simp [tupleState?, initial, ofNames]
  constructor <;> simp [upperBounds, lowerBounds, IsFixed, hstate]

/-- What a type stands for is not promoted, so it stands for itself. -/
theorem WellFormed.canonical_canonical (hs : s.WellFormed) (hx : s.canonical h = .ok x) :
    s.canonical x = .ok x := by
  obtain ⟨shape, hshape, -⟩ := bind_eq_ok_iff.mp hx
  obtain ⟨x', hx', hcontains, -, hproper⟩ := canonical_spec hs (Linked.contains_of_shape hshape)
  rw [hx] at hx'
  cases hx'
  obtain ⟨shape', hshape'⟩ := hs.linked.exists_shape hcontains
  refine canonical_of_shape hshape' fun array heq => hproper array ?_
  rw [hshape', heq]

end Store

theorem Reachable.paired {s : Store} (hs : Reachable s) : s.Paired :=
  hs.invariant Store.paired_initial (fun hs hst hp => hst.paired hs hp)
    fun _ hp => hp.recast rfl rfl

open Store in
/-- In a reachable store a promoted tuple stands for an array type, and for the same one in every
later store; so what a type stands for stands for itself. The bounds of a fixed tuple are tuples of
as many elements, each listed once, and two fixed tuples list each other or neither does. -/
theorem Reachable.tuple_states {s : Store} (hs : Reachable s) :
    (∀ h array, s.isPromoted h = .ok true → s.canonical h = .ok array →
      ∃ element, ∀ t, Leads (fun _ => True) s t → t.isPromoted h = .ok true ∧
        t.canonical h = .ok array ∧ t.node array = .ok (.generic .arrayClass [element])) ∧
    (∀ h x, s.canonical h = .ok x → s.canonical x = .ok x) ∧
    (∀ h, s.IsFixed h → (s.upperBounds h).Nodup ∧ (s.lowerBounds h).Nodup ∧
      ∀ b ∈ s.upperBounds h ++ s.lowerBounds h, ∃ n, s.arity? h = some n ∧ s.arity? b = some n) ∧
    ∀ a b, s.IsFixed a → s.IsFixed b → (b ∈ s.upperBounds a ↔ a ∈ s.lowerBounds b) := by
  have hwf := hs.wellFormed
  have hpaired := hs.paired
  refine ⟨fun h array hpromoted harray => ?_, fun h x => hwf.canonical_canonical,
    fun h hfixed => ?_, hpaired.mem_iff⟩
  · obtain ⟨array', hshape⟩ := hwf.isPromoted_iff.mp hpromoted
    rw [canonical_of_promoted hshape] at harray
    cases harray
    obtain ⟨element, traits, hslot⟩ := hwf.linked.slot_of_promoted hshape
    refine ⟨element, fun t hst => ?_⟩
    have hpersists := (hst.evolves hs).persists hwf
    have hlater := hpersists.promoted hshape
    exact ⟨(hst.reachable hs).wellFormed.isPromoted_iff.mpr ⟨array, hlater⟩,
      canonical_of_promoted hlater, node_of_slot (hpersists.slots hslot)⟩
  · refine ⟨hpaired.upper_nodup h, hpaired.lower_nodup h, fun b hb => ?_⟩
    obtain ⟨params, digest, entry, traits, hslot⟩ := hfixed.isTuple
    have harity := arity?_of_slot hslot
    exact ⟨params.length, harity, (hpaired.arity_eq h b hb).trans harity⟩

/-- Four tuples of an integer. The third is found below the first two, the second below the first
and the last. Then the first is promoted, and with it the third, but not the second. -/
def ladderStore : Store :=
  .after [.nominal "Integer", .tuple [⟨5⟩], .tuple [⟨5⟩], .tuple [⟨5⟩], .tuple [⟨5⟩],
    .subtype ⟨8⟩ ⟨6⟩, .subtype ⟨7⟩ ⟨6⟩, .subtype ⟨8⟩ ⟨7⟩, .subtype ⟨7⟩ ⟨9⟩, .promote ⟨6⟩]

/-- In `ladderStore` the second tuple is fixed and still lists the promoted ones, which have given
up their bounds. It and the last one list each other. A further promotion changes nothing about
what the first one stands for. -/
theorem ladderStore_tuple_states :
    Reachable ladderStore ∧ ladderStore.isPromoted ⟨6⟩ = .ok true ∧
      ladderStore.canonical ⟨6⟩ = .ok ⟨10⟩ ∧
      ((Operation.promote ⟨7⟩).apply ladderStore).canonical ⟨6⟩ = .ok ⟨10⟩ ∧
      ladderStore.IsFixed ⟨7⟩ ∧ ladderStore.IsFixed ⟨9⟩ ∧
      ladderStore.upperBounds ⟨7⟩ = [⟨6⟩, ⟨9⟩] ∧ ladderStore.lowerBounds ⟨7⟩ = [⟨8⟩] ∧
      ladderStore.upperBounds ⟨8⟩ = [] ∧ (ladderStore.upperBounds ⟨7⟩).Nodup ∧
      ⟨7⟩ ∈ ladderStore.lowerBounds ⟨9⟩ := by
  have hs : Reachable ladderStore := .after (by decide)
  have hpromoted : ladderStore.isPromoted ⟨6⟩ = .ok true := by decide +kernel
  have hcanonical : ladderStore.canonical ⟨6⟩ = .ok ⟨10⟩ := by decide +kernel
  have hfixed : ladderStore.IsFixed ⟨7⟩ := by decide +kernel
  have hfixed' : ladderStore.IsFixed ⟨9⟩ := by decide +kernel
  have hupper : ladderStore.upperBounds ⟨7⟩ = [⟨6⟩, ⟨9⟩] := by decide +kernel
  obtain ⟨hlater, -, hbounds, hpaired⟩ := Reachable.tuple_states hs
  obtain ⟨element, harray⟩ := hlater ⟨6⟩ ⟨10⟩ hpromoted hcanonical
  have hnext := (harray _ (.step (.promote ⟨7⟩) .refl trivial trivial)).2.1
  refine ⟨hs, hpromoted, hcanonical, hnext, hfixed, hfixed', hupper, ?_, ?_,
    (hbounds ⟨7⟩ hfixed).1, (hpaired ⟨7⟩ ⟨9⟩ hfixed hfixed').mp ?_⟩
  · decide +kernel
  · decide +kernel
  · simp [hupper]

end GradualTypes
