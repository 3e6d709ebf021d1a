import GradualTypes.Proofs.Comparison
import GradualTypes.Proofs.Promotion

/-!
What a search for a subtype relation does to a store, and why it ends. A search records bounds,
promotes tuples and reports events, and nothing else; it does so in moves of three sorts. Every
promotion leaves one fixed tuple less, and between two promotions no shape changes, so that the
search goes down the ranks of the two types it compares. A promotion adds at most two types, which
bounds all ranks that the search can ever meet by a number fixed at the start.
-/

namespace GradualTypes

namespace Store

variable {s t u : Store} {h : Handle}

section Fixed

def fixedCount (s : Store) : Nat :=
  (s.states.map TupleState.array?).count none

private theorem Linked.fixedCount_le_size (hs : s.Linked) : s.fixedCount ≤ s.size := by
  have hle : s.fixedCount ≤ (s.states.map TupleState.array?).size := Array.count_le_size
  rw [Array.size_map] at hle
  exact hle.trans hs.states_le

private theorem fixedCount_withState {change : TupleState → TupleState}
    (hkeep : ∀ state, (change state).array? = state.array?) :
    (s.withState h change).fixedCount = s.fixedCount := by
  rcases withState_cases s h change with heq | ⟨_, entry, -, -, heq⟩
  · rw [heq]
  · rw [heq, fixedCount, map_modify_of_eq hkeep, fixedCount]

/-- Promotion leaves one fixed tuple less. -/
private theorem fixedCount_promoted (hs : s.Linked) {params : List Handle}
    (hshape : s.shape h = .ok (.tuple params)) (array : Handle) :
    (s.withState h fun _ => .promoted array).fixedCount + 1 = s.fixedCount := by
  obtain ⟨params', digest, entry, traits, hslot⟩ := isTuple_of_shape hshape
  have hlt := hs.entry_lt hslot
  have hfixed : s.states[entry].array? = none := by
    obtain ⟨slot, hslot', hof⟩ := shape_eq_ok_iff.mp hshape
    rw [hslot] at hslot'
    cases hslot'
    rw [Node.shape?, Array.getElem?_eq_getElem hlt] at hof
    cases hstate : s.states[entry] with
    | fixed upper lower => rfl
    | promoted array' =>
      rw [hstate] at hof
      cases hof
  have hlt' : entry < (s.states.map TupleState.array?).size := by simpa using hlt
  have hset : (s.states.modify entry fun _ => .promoted array).map TupleState.array? =
      (s.states.map TupleState.array?).set entry (some array) hlt' := by
    apply Array.ext_getElem?
    intro i
    rw [Array.getElem?_map, Array.getElem?_modify, Array.getElem?_set, Array.getElem?_map]
    split
    next heq => simp [← heq, Array.getElem?_eq_getElem hlt, TupleState.array?]
    next => rfl
  have hpos : 0 < (s.states.map TupleState.array?).count none := by
    rw [Array.count_pos_iff]
    exact Array.mem_map.mpr ⟨_, Array.getElem_mem hlt, hfixed⟩
  have hcount : ((s.states.map TupleState.array?).set entry (some array) hlt').count none =
      (s.states.map TupleState.array?).count none - 1 := by
    simp [Array.count_set, hfixed]
  rw [withState_eq hslot, fixedCount, hset, hcount, fixedCount]
  omega

end Fixed

section Shifts

def reported (s : Store) (event : Event) : Store :=
  { s with journal := s.journal.push event }

private theorem report_run (s : Store) (event : Event) : report event s = .ok ()
    (s.reported event) := rfl

/-- One change that a search makes: it records a bound between two tuples, promotes a fixed tuple to
the array type of the union of its elements, or reports an event. -/
inductive Shift (s : Store) : Store → Prop where
  | bound {lower upper : Handle} (hlower : s.IsTuple lower) (hupper : s.IsTuple upper) :
      Shift s ((s.withState lower (·.addUpper upper)).withState upper (·.addLower lower))
  | promotion {tuple element array : Handle} {params : List Handle} {t u : Store}
      (hshape : s.shape tuple = .ok (.tuple params))
      (hunion : formUnion params s = .ok element t) (harray : formArray element t = .ok array u) :
      Shift s (u.withState tuple fun _ => .promoted array)
  | report (event : Event) : Shift s (s.reported event)

def Shifts : Store → Store → Prop :=
  Relation.ReflTransGen Shift

theorem Shifts.trans (hst : Shifts s t) (htu : Shifts t u) : Shifts s u :=
  Relation.ReflTransGen.trans hst htu

instance : IsPreorder Store Shifts :=
  inferInstanceAs (IsPreorder Store (Relation.ReflTransGen Shift))

def arity? (s : Store) (h : Handle) : Option Nat :=
  (s.slot? h).bind fun slot => slot.node.elements?.map List.length

theorem arity?_of_slot {params : List Handle} {digest : UInt64} {entry : Nat} {traits : Traits}
    (hslot : s.slot? h = some ⟨.tuple params digest entry, traits⟩) :
    s.arity? h = some params.length := by
  rw [arity?, hslot]
  rfl

private theorem isTuple_of_arity {n : Nat} (harity : s.arity? h = some n) : s.IsTuple h := by
  obtain ⟨⟨node, traits⟩, hslot, helements⟩ := Option.bind_eq_some_iff.mp harity
  cases node with
  | tuple params digest entry => exact ⟨params, digest, entry, traits, hslot⟩
  | _ => cases helements

theorem Retains.arity?_eq (hst : s.Retains t) (hh : s.contains h) : t.arity? h = s.arity? h := by
  obtain ⟨slot, hslot⟩ := exists_slot hh
  rw [arity?, arity?, hslot, hst.slots hslot]

def promotedTo (u : Store) (tuple array : Handle) : Store :=
  (u.withState tuple fun _ => .promoted array).reported (.promoted tuple array)

theorem retains_promotedTo (s : Store) (tuple array : Handle) :
    s.Retains (s.promotedTo tuple array) :=
  (retains_withState s tuple fun _ => .promoted array).trans (.of_slots rfl rfl)

theorem shifts_promotedTo {tuple element array : Handle} {params : List Handle}
    (hshape : s.shape tuple = .ok (.tuple params))
    (hunion : formUnion params s = .ok element t) (harray : formArray element t = .ok array u) :
    Shifts s (u.promotedTo tuple array) :=
  .tail (.single (.promotion hshape hunion harray)) (.report _)

/-- A change as a search makes it, with what the search has seen to before: a bound is recorded
between two tuples of as many elements, a promotion is reported at once, and nothing else is
reported than that a bound is broken. -/
inductive Move (s : Store) : Store → Prop where
  | bound {lower upper : Handle} {n : Nat} (hlower : s.arity? lower = some n)
      (hupper : s.arity? upper = some n) :
      Move s ((s.withState lower (·.addUpper upper)).withState upper (·.addLower lower))
  | promotion {tuple element array : Handle} {params : List Handle} {t u : Store}
      (hshape : s.shape tuple = .ok (.tuple params))
      (hunion : formUnion params s = .ok element t) (harray : formArray element t = .ok array u) :
      Move s (u.promotedTo tuple array)
  | broken (tuple : Handle) : Move s (s.reported (.boundBroken tuple))

def Moves : Store → Store → Prop :=
  Relation.ReflTransGen Move

theorem Moves.trans (hst : Moves s t) (htu : Moves t u) : Moves s u :=
  Relation.ReflTransGen.trans hst htu

instance : IsPreorder Store Moves :=
  inferInstanceAs (IsPreorder Store (Relation.ReflTransGen Move))

theorem Move.shifts (hst : Move s t) : Shifts s t := by
  cases hst with
  | bound hlower hupper =>
    exact .single (.bound (isTuple_of_arity hlower) (isTuple_of_arity hupper))
  | promotion hshape hunion harray => exact shifts_promotedTo hshape hunion harray
  | broken tuple => exact .single (.report _)

theorem Moves.shifts (hst : Moves s t) : Shifts s t := by
  induction hst with
  | refl => exact .refl
  | tail _ hmove ih => exact ih.trans hmove.shifts

theorem array?_addUpper (bound : Handle) (state : TupleState) :
    (state.addUpper bound).array? = state.array? := by
  cases state <;> rfl

theorem array?_addLower (bound : Handle) (state : TupleState) :
    (state.addLower bound).array? = state.array? := by
  cases state <;> rfl

/-- What remains of a store after a search, as far as the end of the search depends on it: either
there are fewer fixed tuples, and at most two new types for each that was promoted, or no shape has
changed. -/
structure Settles (s t : Store) : Prop extends s.Retains t where
  wellFormed : t.WellFormed
  size_add_le : t.size + 2 * t.fixedCount ≤ s.size + 2 * s.fixedCount
  settled : t.fixedCount < s.fixedCount ∨
    t.fixedCount = s.fixedCount ∧ ∀ h, t.shape h = s.shape h

theorem Settles.refl (hs : s.WellFormed) : s.Settles s :=
  ⟨.refl s, hs, le_rfl, .inr ⟨rfl, fun _ => rfl⟩⟩

theorem Settles.trans (hst : s.Settles t) (htu : t.Settles u) : s.Settles u := by
  refine ⟨hst.toRetains.trans htu.toRetains, htu.wellFormed, htu.size_add_le.trans hst.size_add_le,
    ?_⟩
  rcases hst.settled with hless | ⟨hsame, hshape⟩ <;>
    rcases htu.settled with hless' | ⟨hsame', hshape'⟩
  · exact .inl (hless'.trans hless)
  · exact .inl (by omega)
  · exact .inl (by omega)
  · exact .inr ⟨hsame'.trans hsame, fun h => (hshape' h).trans (hshape h)⟩

/-- Recording a bound changes no shape. -/
theorem Settles.withBound (hs : s.WellFormed) {bound : Handle} (hbound : s.IsTuple bound)
    {change : TupleState → TupleState} (hkeep : ∀ state, (change state).array? = state.array?)
    (hbounds : ∀ state, ∀ b ∈ (change state).upper ++ (change state).lower,
      b ∈ state.upper ++ state.lower ∨ b = bound) : s.Settles (s.withState h change) := by
  have hfixed : (s.withState h change).fixedCount = s.fixedCount := fixedCount_withState hkeep
  refine ⟨retains_withState s h change, hs.withBound hbound hkeep hbounds, ?_, .inr ⟨hfixed, ?_⟩⟩
  · rw [hfixed, size_withState]
  · intro x
    exact shape_withState hs.linked (.inr hkeep)

section Promotion

variable {tuple element array : Handle} {params : List Handle} (hs : s.WellFormed)
  (hshape : s.shape tuple = .ok (.tuple params)) (hunion : formUnion params s = .ok element t)
  (harray : formArray element t = .ok array u)
include hs hshape hunion harray

/-- What a promotion makes of the elements of a tuple: their union, and the array type of it. -/
theorem promotion_formed :
    ∃ parts, params.mapM (s.setPart .union) = .ok parts ∧
      FormedSet s .union parts.flatten element t ∧
      Formed t (.generic .arrayClass [element]) array u := by
  have hparams : ∀ p ∈ params, s.contains p := fun p hp =>
    hs.linked.contains_of_refersTo ⟨_, hshape, hp⟩
  obtain ⟨parts, hparts, hset⟩ := (formUnion_returns hs hparams).of_run hunion
  have hflat := contains_of_setPart hs.linked hparams hparts
  have ht := hset.grows.wellFormed hs
  exact ⟨parts, hparts, hset,
    (formArray_returns ht (hset.contains hs.linked hflat)).of_run harray⟩

/-- A promotion leaves fewer fixed tuples. -/
theorem promotion_settles :
    s.Settles (u.withState tuple fun _ => .promoted array) ∧
      (u.withState tuple fun _ => .promoted array).fixedCount < s.fixedCount := by
  have hparams : ∀ p ∈ params, s.contains p := fun p hp =>
    hs.linked.contains_of_refersTo ⟨_, hshape, hp⟩
  obtain ⟨parts, hparts, hset, hformed⟩ := promotion_formed hs hshape hunion harray
  have hgrows := hset.grows.trans hformed.grows
  have hu := hgrows.wellFormed hs
  have hshape' := hgrows.shape_eq hshape
  -- neither the union nor the array type is a tuple, so the fixed tuples are still those of `s`
  have hfixed : u.fixedCount = s.fixedCount := by
    rw [fixedCount, hformed.states_eq rfl, hset.states_eq, fixedCount]
  have hsize : u.size ≤ s.size + 2 := hformed.size_le.trans (Nat.add_le_add_right hset.size_le 1)
  have hless := fixedCount_promoted hu.linked hshape' array
  obtain ⟨traits, hslot⟩ := hformed.slot
  have hpromoted := hu.withArray (isTuple_of_shape hshape') hslot
    (not_below_array hs hshape hparams hparts hset hformed)
  have hretains := hgrows.toRetains.trans (retains_withState u tuple fun _ => .promoted array)
  refine ⟨⟨hretains, hpromoted, ?_, .inl ?_⟩, ?_⟩
  · rw [size_withState]
    omega
  · omega
  · omega

/-- A promotion changes the shape of the tuple and no other. -/
theorem shape_of_promotion :
    (u.withState tuple fun _ => .promoted array).shape tuple = .ok (.promoted array) ∧
      ∀ x shape, x ≠ tuple → s.shape x = .ok shape →
        (u.withState tuple fun _ => .promoted array).shape x = .ok shape := by
  obtain ⟨parts, -, hset, hformed⟩ := promotion_formed hs hshape hunion harray
  have hgrows := hset.grows.trans hformed.grows
  have hu := hgrows.wellFormed hs
  refine ⟨?_, fun x shape hx hx' => ?_⟩
  · exact shape_withState_promoted (isTuple_of_shape (hgrows.shape_eq hshape)) hu.linked array
  · rw [shape_withState hu.linked (.inl hx)]
    exact hgrows.shape_eq hx'

end Promotion

theorem Shift.settles (hst : Shift s t) (hs : s.WellFormed) : s.Settles t := by
  cases hst with
  | @bound lower upper hlower hupper =>
    have hfirst : s.Settles (s.withState lower (·.addUpper upper)) := by
      refine .withBound hs hupper (array?_addUpper upper) ?_
      rintro (⟨_, _⟩ | _) b hb <;> grind [TupleState.addUpper, TupleState.upper, TupleState.lower]
    refine hfirst.trans (.withBound hfirst.wellFormed (hfirst.isTuple hlower)
      (array?_addLower lower) ?_)
    rintro (⟨_, _⟩ | _) b hb <;> grind [TupleState.addLower, TupleState.upper, TupleState.lower]
  | promotion hshape hunion harray => exact (promotion_settles hs hshape hunion harray).1
  | report event =>
    exact ⟨.of_slots rfl rfl, hs.recast (.refl s.names) hs.orderly, le_rfl,
      .inr ⟨rfl, fun _ => rfl⟩⟩

theorem Shifts.settles (hst : Shifts s t) (hs : s.WellFormed) : s.Settles t := by
  induction hst with
  | refl => exact .refl hs
  | tail _ hnext ih => exact ih.trans (hnext.settles ih.wellFormed)

theorem Moves.settles (hst : Moves s t) (hs : s.WellFormed) : s.Settles t :=
  hst.shifts.settles hs

end Shifts

section Effort

variable {limit : Nat} {a b x y : Handle}

/-- The work that is left to a search for two types, as long as no rank exceeds a limit. -/
noncomputable def effort (s : Store) (limit : Nat) (a b : Handle) : Nat :=
  s.fixedCount * (2 * limit + 1) + (s.rank a + s.rank b)

theorem rank_eq (hshape : ∀ h, t.shape h = s.shape h) (h : Handle) : t.rank h = s.rank h := by
  have hrefers : t.RefersTo = s.RefersTo := by
    funext a b
    simp only [RefersTo, hshape]
  rw [rank, hrefers, rank]

/-- After a promotion less work is left, whatever the types. -/
theorem Settles.effort_lt_of_promoted (hst : s.Settles t)
    (hlimit : s.size + 2 * s.fixedCount ≤ limit) (hless : t.fixedCount < s.fixedCount) :
    t.effort limit x y < s.fixedCount * (2 * limit + 1) := by
  have hsize := hst.size_add_le
  have hx := hst.wellFormed.linked.rank_le_size x
  have hy := hst.wellFormed.linked.rank_le_size y
  have hmul : (t.fixedCount + 1) * (2 * limit + 1) ≤ s.fixedCount * (2 * limit + 1) :=
    Nat.mul_le_mul_right _ hless
  rw [Nat.add_mul, Nat.one_mul] at hmul
  rw [effort]
  omega

/-- Types of smaller rank leave less work, now and after a search. -/
theorem Settles.effort_lt (hst : s.Settles t) (hlimit : s.size + 2 * s.fixedCount ≤ limit)
    (hrank : s.rank x + s.rank y < s.rank a + s.rank b) :
    t.effort limit x y < s.effort limit a b := by
  rcases hst.settled with hless | ⟨hsame, hshape⟩
  · exact (hst.effort_lt_of_promoted hlimit hless).trans_le (Nat.le_add_right _ _)
  · rw [effort, effort, hsame, rank_eq hshape, rank_eq hshape]
    exact Nat.add_lt_add_left hrank _

end Effort

section Ends

variable {limit work : Nat} {below : Handle → Handle → StoreM Bool} {tuple a b : Handle}
  {params : List Handle}

def Ends (below : Handle → Handle → StoreM Bool) (limit work : Nat) : Prop :=
  ∀ ⦃s x y⦄, WellFormed s → s.size + 2 * s.fixedCount ≤ limit → s.contains x → s.contains y →
    s.effort limit x y < work → Returns (below x y) s fun _ t => Moves s t

theorem Ends.mono {less : Nat} (hends : Ends below limit work) (hless : less ≤ work) :
    Ends below limit less :=
  fun _ _ _ hs hlimit hx hy hwork => hends hs hlimit hx hy (hwork.trans_le hless)

/-- What a relation does after the store has changed. -/
theorem Ends.after (hends : Ends below limit work) (hst : s.Settles t)
    (hlimit : s.size + 2 * s.fixedCount ≤ limit) {x y : Handle} (hx : t.contains x)
    (hy : t.contains y) (hwork : t.effort limit x y < work) :
    Returns (below x y) t fun _ u => Moves t u :=
  hends hst.wellFormed (hst.size_add_le.trans hlimit) hx hy hwork

/-- Types of smaller rank leave less work, so a relation that ends on less work ends on them. -/
theorem Ends.descend (hends : Ends below limit (s.effort limit a b)) (hs : s.WellFormed)
    (hlimit : s.size + 2 * s.fixedCount ≤ limit) (hst : Moves s t) {x y : Handle}
    (hx : s.contains x) (hy : s.contains y)
    (hrank : s.rank x + s.rank y < s.rank a + s.rank b) :
    Returns (below x y) t fun _ u => Moves t u := by
  have hsettles := hst.settles hs
  exact hends.after hsettles hlimit (hsettles.contains hx) (hsettles.contains hy)
    (hsettles.effort_lt hlimit hrank)

private theorem boundsHold_returns {lower upper : List Handle}
    (hbelow : ∀ t, Moves s t → ∀ x ∈ lower ++ upper,
      (Returns (below x tuple) t fun _ u => Moves t u) ∧
        Returns (below tuple x) t fun _ u => Moves t u) :
    Returns (boundsHold below tuple lower upper) s fun _ t => Moves s t := by
  have hlower : Returns (lower.allM fun x => below x tuple) s fun answer t => Moves s t ∧
      if answer then ∀ x ∈ lower, True else ∃ x ∈ lower, True :=
    .allM fun x hx t hst => (hbelow t hst x (List.mem_append_left _ hx)).1.verdict
  have hupper : ∀ t, Moves s t → Returns (upper.allM fun x => below tuple x) t fun answer u =>
      Moves t u ∧ if answer then ∀ x ∈ upper, True else ∃ x ∈ upper, True := fun t hst =>
    .allM fun x hx u htu =>
      (hbelow u (hst.trans htu) x (List.mem_append_right _ hx)).2.verdict
  exact (hlower.and_then fun t hst _ => hupper t hst).mono fun _ _ hpost => hpost.1

/-- Bounds are types of the store. -/
theorem Linked.isTuple_bound (hs : s.Linked) {x : Handle}
    (hx : x ∈ s.lowerBounds tuple ++ s.upperBounds tuple) : s.IsTuple x := by
  have hsome : ∀ {select : TupleState → List Handle},
      x ∈ ((s.tupleState? tuple).map select).getD [] →
        ∃ (entry : Nat) (state : TupleState), s.states[entry]? = some state ∧ x ∈ select state := by
    intro select hx
    cases hfound : s.tupleState? tuple with
    | none => simp [hfound] at hx
    | some state =>
      rw [hfound] at hx
      obtain ⟨slot, -, hfound⟩ := Option.bind_eq_some_iff.mp hfound
      obtain ⟨entry, -, hstate⟩ := Option.bind_eq_some_iff.mp hfound
      exact ⟨entry, state, hstate, hx⟩
  rcases List.mem_append.mp hx with hx | hx
  · obtain ⟨entry, state, hstate, hx⟩ := hsome hx
    exact hs.bound_tuple hstate x (List.mem_append_right _ hx)
  · obtain ⟨entry, state, hstate, hx⟩ := hsome hx
    exact hs.bound_tuple hstate x (List.mem_append_left _ hx)

theorem IsTuple.contains (hh : s.IsTuple h) : s.contains h := by
  obtain ⟨_, _, _, _, hslot⟩ := hh
  exact contains_of_slot hslot

/-- The last part of a promotion: the bounds are checked, and it is reported if one is broken. -/
def recheck (below : Handle → Handle → StoreM Bool) (tuple : Handle) (lower upper : List Handle) :
    StoreM Bool := do
  if ← boundsHold below tuple lower upper then return true
  else
    report (.boundBroken tuple)
    return false

/-- After a promotion the bounds are checked again. There are fewer fixed tuples then, so any two
types leave less work than before. -/
private theorem recheck_returns (hends : Ends below limit work) (hs : s.WellFormed)
    (hlimit : s.size + 2 * s.fixedCount ≤ limit) (htuple : s.contains tuple)
    (hwork : s.fixedCount * (2 * limit + 1) ≤ work) (hst : Moves s t)
    (hless : t.fixedCount < s.fixedCount) :
    Returns (recheck below tuple (s.lowerBounds tuple) (s.upperBounds tuple)) t
      fun _ u => Moves t u ∧ u.fixedCount < s.fixedCount := by
  have hfewer : ∀ {u}, Moves t u → u.fixedCount < s.fixedCount := by
    intro u htu
    rcases (htu.settles (hst.settles hs).wellFormed).settled with hu | ⟨hu, -⟩ <;> omega
  have hbounds : Returns (boundsHold below tuple (s.lowerBounds tuple) (s.upperBounds tuple)) t
      fun _ u => Moves t u := by
    refine boundsHold_returns fun u htu x hx => ?_
    have hsettles := (hst.trans htu).settles hs
    have hx := hsettles.contains (hs.linked.isTuple_bound hx).contains
    have htuple := hsettles.contains htuple
    have heffort : ∀ {y z}, u.effort limit y z < work := fun {y z} =>
      (hsettles.effort_lt_of_promoted hlimit (hfewer htu)).trans_le hwork
    exact ⟨hends.after hsettles hlimit hx htuple heffort,
      hends.after hsettles hlimit htuple hx heffort⟩
  refine hbounds.bind fun answer u htu => ?_
  cases answer with
  | true => exact .pure ⟨htu, hfewer htu⟩
  | false =>
    have hu := hfewer htu
    exact .step (report_run u _) (.pure ⟨htu.tail (.broken _), hu⟩)

/-- The promotion of a fixed tuple up to the check of its bounds. -/
theorem promoteBy_run {array : Handle} (below : Handle → Handle → StoreM Bool)
    (hshape : s.shape tuple = .ok (.tuple params))
    (hunion : formUnion params s = .ok element t) (harray : formArray element t = .ok array u) :
    promoteBy below tuple s =
      recheck below tuple (s.lowerBounds tuple) (s.upperBounds tuple)
        (u.promotedTo tuple array) := by
  rw [promoteBy, bind_run (ask_run hshape)]
  change (formUnion params >>= _ : StoreM Bool) s = _
  rw [bind_run hunion, bind_run harray, bind_run (updateTuple_run u tuple _),
    bind_run (report_run _ _)]
  rfl

theorem exists_promotion (hs : s.WellFormed) (hshape : s.shape tuple = .ok (.tuple params)) :
    ∃ element t array u, formUnion params s = .ok element t ∧
      formArray element t = .ok array u := by
  have hparams : ∀ p ∈ params, s.contains p := fun p hp =>
    hs.linked.contains_of_refersTo ⟨_, hshape, hp⟩
  obtain ⟨element, t, hunion, parts, hparts, hset⟩ := formUnion_returns hs hparams
  have hflat := contains_of_setPart hs.linked hparams hparts
  obtain ⟨array, u, harray, -⟩ :=
    formArray_returns (hset.grows.wellFormed hs) (hset.contains hs.linked hflat)
  exact ⟨element, t, array, u, hunion, harray⟩

/-- The promotion of a fixed tuple ends. It begins with the promotion proper, which leaves fewer
fixed tuples. -/
theorem promoteBy_moves {array : Handle} (hends : Ends below limit work) (hs : s.WellFormed)
    (hlimit : s.size + 2 * s.fixedCount ≤ limit) (hwork : s.fixedCount * (2 * limit + 1) ≤ work)
    (hshape : s.shape tuple = .ok (.tuple params)) (hunion : formUnion params s = .ok element t)
    (harray : formArray element t = .ok array u) :
    Returns (promoteBy below tuple) s fun _ v =>
      Moves (u.promotedTo tuple array) v ∧ v.fixedCount < s.fixedCount := by
  have hless := (promotion_settles hs hshape hunion harray).2
  rw [Returns, promoteBy_run below hshape hunion harray]
  exact recheck_returns hends hs hlimit (Linked.contains_of_shape hshape) hwork
    (.single (.promotion hshape hunion harray)) hless

theorem promoteBy_returns (hends : Ends below limit work) (hs : s.WellFormed)
    (hlimit : s.size + 2 * s.fixedCount ≤ limit) (hshape : s.shape tuple = .ok (.tuple params))
    (hwork : s.fixedCount * (2 * limit + 1) ≤ work) :
    Returns (promoteBy below tuple) s fun _ t => Moves s t ∧ t.fixedCount < s.fixedCount := by
  obtain ⟨element, t, array, u, hunion, harray⟩ := exists_promotion hs hshape
  refine (promoteBy_moves hends hs hlimit hwork hshape hunion harray).mono ?_
  rintro _ v ⟨hmoves, hless⟩
  exact ⟨.head (.promotion hshape hunion harray) hmoves, hless⟩

private theorem recordBound_run (s : Store) (lower upper : Handle) :
    recordBound lower upper s =
      .ok () ((s.withState lower (·.addUpper upper)).withState upper (·.addLower lower)) := rfl

/-- One step of the search for a fixed tuple ends. -/
theorem belowTuple_returns (hends : Ends below limit (s.effort limit a b)) (hs : s.WellFormed)
    (hlimit : s.size + 2 * s.fixedCount ≤ limit) (hshape : s.shape a = .ok (.tuple params))
    {sup : Handle} (hsup : s.contains sup) (hrank : s.rank sup ≤ s.rank b)
    (hcanonical : ∀ array, s.shape sup ≠ .ok (.promoted array)) :
    Returns (belowTuple below a params sup) s fun _ t => Moves s t := by
  have ha := Linked.contains_of_shape hshape
  rw [belowTuple]
  split
  · exact .pure .refl
  have harray : ∀ node : Node, Returns (do
      if node.isArray then
        let consistent ← promoteBy below a
        let holds ← below a sup
        return holds && consistent
      else return false) s fun _ t => Moves s t := by
    intro node
    split
    · refine (promoteBy_returns hends hs hlimit hshape (Nat.le_add_right _ _)).bind ?_
      rintro consistent t ⟨hst, hless⟩
      have hsettles := hst.settles hs
      have heffort : t.effort limit a sup < s.effort limit a b :=
        (hsettles.effort_lt_of_promoted hlimit hless).trans_le (Nat.le_add_right _ _)
      have hbelow :=
        hends.after hsettles hlimit (hsettles.contains ha) (hsettles.contains hsup) heffort
      exact hbelow.bind fun holds u htu => .pure (hst.trans htu)
    · exact .pure .refl
  obtain ⟨⟨node, traits⟩, hslot⟩ := exists_slot hsup
  refine .ask_bind (node_of_slot hslot) ?_
  cases node with
  | tuple others digest entry =>
    have hothers : s.shape sup = .ok (.tuple others) :=
      (hs.linked.shape_of_tuple hslot).resolve_right fun ⟨array, hpromoted⟩ =>
        hcanonical array hpromoted
    have hpointwise : Returns (Lifting.pointwise below params others) s fun answer t =>
        Moves s t ∧ (answer → params.length = others.length) := by
      refine (Returns.pointwise fun x hx y hy t hst => Returns.verdict ?_).mono
        fun answer t hpost => ⟨hpost.1, fun hanswer => ?_⟩
      · obtain ⟨hx, hltx⟩ := hs.descends hshape hx
        obtain ⟨hy, hlty⟩ := hs.descends hothers hy
        exact hends.descend hs hlimit hst hx hy (by omega)
      · have hfound := hpost.2
        rw [if_pos hanswer] at hfound
        exact hfound.length_eq
    refine hpointwise.bind fun answer t hpost => ?_
    obtain ⟨hst, hlength⟩ := hpost
    cases answer with
    | false => exact .pure hst
    | true =>
      obtain ⟨digest', entry', traits', -, -, hslot', -⟩ := slot_of_shape_tuple hshape
      have hsettles := hst.settles hs
      have hlower := arity?_of_slot (hsettles.slots hslot')
      have hupper := arity?_of_slot (hsettles.slots hslot)
      rw [← hlength rfl] at hupper
      exact .step (recordBound_run t a sup) (.pure (hst.tail (.bound hlower hupper)))
  | _ => exact harray _

/-- One step of the search ends if it asks only for types that leave less work. -/
theorem belowStep_returns (hends : Ends below limit (s.effort limit a b)) (hs : s.WellFormed)
    (hlimit : s.size + 2 * s.fixedCount ≤ limit) (ha : s.contains a) (hb : s.contains b) :
    Returns (belowStep below a b) s fun _ t => Moves s t := by
  obtain ⟨left, hleft⟩ := hs.linked.exists_shape ha
  obtain ⟨sup, hcanonical, hsup, hrank, hproper⟩ := canonical_spec hs hb
  refine .ask_bind hleft ?_
  have hplain : Returns (do
      let sup ← ask (·.canonical b)
      if a = sup ∨ sup = .top ∨ a = .nil then return true
      else belowShapes below a left sup (← ask (·.shape sup))) s fun _ t => Moves s t := by
    obtain ⟨right, hright⟩ := hs.linked.exists_shape hsup
    have hbelow : ∀ x y, s.Asks a sup x y → ∀ t, Moves s t →
        Returns (below x y) t fun answer u => Moves t u ∧ if answer then True else True := by
      intro x y hxy t hst
      obtain ⟨hx, hy, hlt⟩ := hxy.descends hs.linked hs.acyclic ha hsup
      exact (hends.descend hs hlimit hst hx hy (by omega)).verdict
    refine .ask_bind hcanonical ?_
    split
    · exact .pure .refl
    · have hshapes := belowShapes_returns hs.linked hleft hright hbelow
      exact .ask_bind hright (hshapes.mono fun _ _ hpost => hpost.1)
  cases left with
  | promoted array =>
    obtain ⟨harray, hlt⟩ := hs.descends hleft List.mem_cons_self
    exact hends.descend hs hlimit .refl harray hb (by omega)
  | tuple params =>
    exact .ask_bind hcanonical (belowTuple_returns hends hs hlimit hleft hsup hrank hproper)
  | _ => exact hplain

/-- The search ends on all types that leave less work than it may nest deep. -/
theorem subtypeWithin_ends (limit depth : Nat) : Ends (subtypeWithin depth) limit depth := by
  induction depth with
  | zero =>
    intro s x y _ _ _ _ hwork
    omega
  | succ depth ih =>
    intro s x y hs hlimit hx hy hwork
    exact belowStep_returns (ih.mono (Nat.le_of_lt_succ hwork)) hs hlimit hx hy

/-- The limit that holds for a search from the start. -/
theorem effort_lt_searchDepth (hs : s.WellFormed) (a b : Handle) :
    s.effort (s.size + 2 * s.fixedCount) a b < s.searchDepth := by
  have hfixed := hs.linked.fixedCount_le_size
  have ha := hs.linked.rank_le_size a
  have hb := hs.linked.rank_le_size b
  rw [effort, searchDepth]
  nlinarith

theorem subtype_run (s : Store) (a b : Handle) :
    subtype a b s = subtypeWithin s.searchDepth a b s :=
  bind_run rfl

theorem promote_run (s : Store) (a : Handle) :
    promote a s = promoteBy (subtypeWithin s.searchDepth) a s :=
  bind_run rfl

/-- Subtyping comes to an end for any two types of a well-formed store. -/
theorem subtype_moves (hs : s.WellFormed) (ha : s.contains a) (hb : s.contains b) :
    Returns (subtype a b) s fun _ t => Moves s t := by
  rw [Returns, subtype_run]
  exact subtypeWithin_ends _ s.searchDepth hs le_rfl ha hb (effort_lt_searchDepth hs a b)

theorem subtype_returns (hs : s.WellFormed) (ha : s.contains a) (hb : s.contains b) :
    Returns (subtype a b) s fun _ t => Shifts s t :=
  (subtype_moves hs ha hb).mono fun _ _ hst => hst.shifts

/-- So does promotion, which for a fixed tuple begins with the promotion proper. -/
theorem promote_moves_of_tuple {array : Handle} (hs : s.WellFormed)
    (hshape : s.shape tuple = .ok (.tuple params)) (hunion : formUnion params s = .ok element t)
    (harray : formArray element t = .ok array u) :
    Returns (promote tuple) s fun _ v => Moves (u.promotedTo tuple array) v := by
  have hwork := effort_lt_searchDepth hs tuple tuple
  rw [effort] at hwork
  rw [Returns, promote_run]
  exact (promoteBy_moves (subtypeWithin_ends _ s.searchDepth) hs le_rfl (by omega) hshape hunion
    harray).mono fun _ _ hpost => hpost.1

theorem promote_moves (hs : s.WellFormed) (ha : s.contains a) :
    Returns (promote a) s fun _ t => Moves s t := by
  obtain ⟨shape, hshape⟩ := hs.linked.exists_shape ha
  cases shape with
  | tuple params =>
    obtain ⟨element, t, array, u, hunion, harray⟩ := exists_promotion hs hshape
    exact (promote_moves_of_tuple hs hshape hunion harray).mono fun _ _ hmoves =>
      .head (.promotion hshape hunion harray) hmoves
  | _ =>
    rw [Returns, promote_run]
    exact Returns.ask_bind hshape (.pure .refl)

theorem promote_returns (hs : s.WellFormed) (ha : s.contains a) :
    Returns (promote a) s fun _ t => Shifts s t :=
  (promote_moves hs ha).mono fun _ _ hst => hst.shifts

end Ends

end Store

end GradualTypes
