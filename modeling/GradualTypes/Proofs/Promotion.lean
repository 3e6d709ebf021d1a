import GradualTypes.Proofs.Formation

/-!
Changes to the states of tuples. Recording a bound changes no shape. Promotion changes one: the
tuple no longer refers to its elements but to the array type of their union. That makes no cycle,
because every fixed tuple found in the union nests at most as deep as some element, and each
element nests less deep than the tuple. So the tuple itself is not found in its array type.
-/

namespace GradualTypes

/-- Redirecting one element of a graph without cycles to one from which it is not reached makes no
cycle. -/
private theorem acyclic_of_redirect {α : Type} {R R' : α → α → Prop} {a c : α}
    (hedges : ∀ {x y}, R' x y → R x y ∨ x = a ∧ y = c)
    (hacyclic : ∀ x, ¬ Relation.TransGen R x x) (hapart : ¬ Relation.ReflTransGen R c a) (x : α) :
    ¬ Relation.TransGen R' x x := by
  -- a path through the new edge reaches `a` by old edges and goes on from `c` by old edges
  have hpaths : ∀ {y}, Relation.TransGen R' x y → Relation.TransGen R x y ∨
      Relation.ReflTransGen R x a ∧ Relation.ReflTransGen R c y := by
    intro y hxy
    induction hxy with
    | single hedge =>
      rcases hedges hedge with hold | ⟨rfl, rfl⟩
      · exact .inl (.single hold)
      · exact .inr ⟨.refl, .refl⟩
    | tail _ hedge ih =>
      rcases ih with hold | ⟨hxa, hcy⟩
      · rcases hedges hedge with hnext | ⟨rfl, rfl⟩
        · exact .inl (hold.tail hnext)
        · exact .inr ⟨hold.to_reflTransGen, .refl⟩
      · rcases hedges hedge with hnext | ⟨rfl, rfl⟩
        · exact .inr ⟨hxa, hcy.tail hnext⟩
        · exact absurd hcy hapart
  intro hcycle
  rcases hpaths hcycle with hold | ⟨hxa, hcx⟩
  · exact hacyclic x hold
  · exact hapart (hcx.trans hxa)

def TupleState.array? : TupleState → Option Handle
  | fixed _ _ => none
  | promoted array => some array

/-- A change that keeps what a view shows of a state keeps what it shows of the whole table. -/
theorem map_modify_of_eq {β : Type} {view : TupleState → β} {change : TupleState → TupleState}
    (hkeep : ∀ state, view (change state) = view state) (states : Array TupleState)
    (entry : Nat) : (states.modify entry change).map view = states.map view := by
  apply Array.ext_getElem?
  intro i
  rw [Array.getElem?_map, Array.getElem?_map, Array.getElem?_modify]
  split
  · rw [Option.map_map]
    congr 1
    funext state
    exact hkeep state
  · rfl

/-- A shape depends on the state of a tuple only in whether and to what it is promoted. -/
theorem Node.shape?_congr {node : Node} {states states' : Array TupleState}
    (hstates : ∀ entry, node.entry? = some entry →
      states'[entry]?.map TupleState.array? = states[entry]?.map TupleState.array?) :
    node.shape? states' = node.shape? states := by
  cases node with
  | tuple params digest entry =>
    have hread : ∀ states : Array TupleState, (tuple params digest entry).shape? states =
        (states[entry]?.map TupleState.array?).map fun array? =>
          (array?.map Shape.promoted).getD (.tuple params) := by
      intro states
      rw [shape?]
      rcases states[entry]? with _ | (_ | _) <;> rfl
    rw [hread, hread, hstates entry rfl]
  | _ => rfl

namespace Store

variable {s : Store} {h x : Handle} {change : TupleState → TupleState}

def withState (s : Store) (h : Handle) (change : TupleState → TupleState) : Store :=
  match (s.slot? h).bind fun slot => slot.node.entry? with
  | some entry => { s with states := s.states.modify entry change }
  | none => s

theorem updateTuple_run (s : Store) (h : Handle) (change : TupleState → TupleState) :
    updateTuple h change s = .ok () (s.withState h change) := rfl

section WithState

theorem withState_eq {params : List Handle} {digest : UInt64} {entry : Nat} {traits : Traits}
    (hslot : s.slot? h = some ⟨.tuple params digest entry, traits⟩) :
    s.withState h change = { s with states := s.states.modify entry change } := by
  simp [withState, hslot, Node.entry?]

/-- Only the states change, and there are as many of them as before. -/
theorem withState_cases (s : Store) (h : Handle) (change : TupleState → TupleState) :
    s.withState h change = s ∨ ∃ slot entry, s.slot? h = some slot ∧ slot.node.entry? = some entry ∧
      s.withState h change = { s with states := s.states.modify entry change } := by
  cases hslot : s.slot? h with
  | none => exact .inl (by simp [withState, hslot])
  | some slot =>
    cases hentry : slot.node.entry? with
    | none => exact .inl (by simp [withState, hslot, hentry])
    | some entry => exact .inr ⟨slot, entry, rfl, hentry, by simp [withState, hslot, hentry]⟩

@[simp] theorem slots_withState : (s.withState h change).slots = s.slots := by
  rcases withState_cases s h change with heq | ⟨_, _, -, -, heq⟩ <;> rw [heq]

@[simp] theorem slot?_withState : (s.withState h change).slot? x = s.slot? x := by
  rw [slot?, slots_withState, slot?]

@[simp] theorem names_withState : (s.withState h change).names = s.names := by
  rcases withState_cases s h change with heq | ⟨_, _, -, -, heq⟩ <;> rw [heq]

@[simp] theorem hash_withState : (s.withState h change).hash = s.hash := by
  rcases withState_cases s h change with heq | ⟨_, _, -, -, heq⟩ <;> rw [heq]

@[simp] theorem size_withState : (s.withState h change).size = s.size := by
  rw [size, slots_withState, size]

theorem retains_withState (s : Store) (h : Handle) (change : TupleState → TupleState) :
    s.Retains (s.withState h change) :=
  ⟨fun hslot => slot?_withState.trans hslot, hash_withState⟩

/-- The shapes of other tuples do not change, and no shape changes if the tuple stays fixed or stays
promoted as it was. -/
theorem shape_withState (hs : s.Linked)
    (hkeep : x ≠ h ∨ ∀ state, (change state).array? = state.array?) :
    (s.withState h change).shape x = s.shape x := by
  rcases withState_cases s h change with heq | ⟨slot, entry, hslot, hentry, heq⟩
  · rw [heq]
  · rw [heq, shape, shape]
    congr 1
    apply Option.bind_congr
    intro slot' hslot'
    apply Node.shape?_congr
    intro entry' hentry'
    rw [Array.getElem?_modify]
    split
    next hsame =>
      subst hsame
      have hx : x = h := hs.entry_unique hslot' hslot hentry' hentry
      have hkeep := hkeep.resolve_left (absurd hx)
      rw [Option.map_map]
      congr 1
      funext state
      exact hkeep state
    next => rfl

theorem shape_withState_promoted (htuple : s.IsTuple h) (hs : s.Linked) (array : Handle) :
    (s.withState h fun _ => .promoted array).shape h = .ok (.promoted array) := by
  obtain ⟨params, digest, entry, traits, hslot⟩ := htuple
  have hlt := hs.entry_lt hslot
  refine shape_eq_ok_iff.mpr ⟨_, slot?_withState.trans hslot, ?_⟩
  simp [withState_eq hslot, Node.shape?, Array.getElem?_modify, Array.getElem?_eq_getElem hlt]

/-- The references hold together if the new state of the tuple is in order. -/
theorem Linked.withState (hs : s.Linked)
    (hpromoted : ∀ state array, change state = .promoted array → state = .promoted array ∨
      ∃ element traits, s.slot? array = some ⟨.generic .arrayClass [element], traits⟩)
    (hbounds : ∀ state, ∀ b ∈ (change state).upper ++ (change state).lower,
      b ∈ state.upper ++ state.lower ∨ s.IsTuple b) : (s.withState h change).Linked := by
  rcases withState_cases s h change with heq | ⟨_, entry, -, -, heq⟩
  · rw [heq]
    exact hs
  · -- each state is an old one or comes from one by the change
    have hstates : ∀ {i : Nat} {state}, (s.states.modify entry change)[i]? = some state →
        ∃ old, s.states[i]? = some old ∧ (state = old ∨ state = change old) := by
      intro i state hstate
      rw [Array.getElem?_modify] at hstate
      split at hstate
      · obtain ⟨old, hold, rfl⟩ := Option.map_eq_some_iff.mp hstate
        exact ⟨old, hold, .inr rfl⟩
      · exact ⟨state, hstate, .inl rfl⟩
    rw [heq]
    refine ⟨hs.builtin, hs.special, hs.refs_lt, hs.base_nominal, ?_, ?_, hs.entry_unique, ?_, ?_⟩
    · rw [Array.size_modify]
      exact hs.states_le
    · intro x params digest entry' traits hslot
      rw [Array.size_modify]
      exact hs.entry_lt hslot
    · intro i array hstate
      obtain ⟨old, hold, rfl | hchange⟩ := hstates hstate
      · exact hs.promoted_array hold
      · rcases hpromoted old array hchange.symm with rfl | harray
        · exact hs.promoted_array hold
        · exact harray
    · intro i state hstate b hb
      obtain ⟨old, hold, rfl | rfl⟩ := hstates hstate
      · exact hs.bound_tuple hold b hb
      · rcases hbounds old b hb with hb | htuple
        · exact hs.bound_tuple hold b hb
        · exact htuple

theorem WellFormed.withState (hs : s.WellFormed) (hlinked : (s.withState h change).Linked)
    (hacyclic : (s.withState h change).Acyclic) : (s.withState h change).WellFormed := by
  rcases withState_cases s h change with heq | ⟨_, entry, -, -, heq⟩
  · rw [heq]
    exact hs
  · exact hs.revise heq hlinked hacyclic (.refl s.names) hs.orderly

/-- Recording a bound changes no shape. -/
theorem WellFormed.withBound (hs : s.WellFormed) {bound : Handle} (hbound : s.IsTuple bound)
    (hkeep : ∀ state, (change state).array? = state.array?)
    (hbounds : ∀ state, ∀ b ∈ (change state).upper ++ (change state).lower,
      b ∈ state.upper ++ state.lower ∨ b = bound) : (s.withState h change).WellFormed := by
  refine hs.withState (hs.linked.withState ?_ ?_) ?_
  · intro state array hchange
    have hk := hkeep state
    rw [hchange] at hk
    cases state with
    | fixed upper lower => cases hk
    | promoted array' =>
      cases hk
      exact .inl rfl
  · intro state b hb
    rcases hbounds state b hb with hold | rfl
    · exact .inl hold
    · exact .inr hbound
  · have hrefers : (s.withState h change).RefersTo = s.RefersTo := by
      funext a b
      simp only [RefersTo, shape_withState hs.linked (.inr hkeep)]
    rw [Acyclic, hrefers]
    exact hs.acyclic

/-- A tuple that is not found in an array type can be promoted to it. -/
theorem WellFormed.withArray (hs : s.WellFormed) (htuple : s.IsTuple h) {array element : Handle}
    {traits : Traits} (harray : s.slot? array = some ⟨.generic .arrayClass [element], traits⟩)
    (hapart : ¬ Relation.ReflTransGen s.RefersTo array h) :
    (s.withState h fun _ => .promoted array).WellFormed := by
  refine hs.withState (hs.linked.withState ?_ ?_) ?_
  · rintro state _ ⟨⟩
    exact .inr ⟨element, traits, harray⟩
  · intro state b hb
    simp [TupleState.upper, TupleState.lower] at hb
  · refine acyclic_of_redirect (fun {x y} hxy => ?_) hs.acyclic hapart
    obtain ⟨shape, hshape, hy⟩ := hxy
    by_cases hx : x = h
    · subst hx
      rw [shape_withState_promoted htuple hs.linked] at hshape
      cases hshape
      exact .inr ⟨rfl, List.mem_singleton.mp hy⟩
    · rw [shape_withState hs.linked (.inl hx)] at hshape
      exact .inl ⟨shape, hshape, hy⟩

end WithState

section Apart

variable {t u : Store} {tuple element array : Handle} {params : List Handle}
  {parts : List (List Handle)}

/-- Nothing is found below a built-in type but the type itself, and it is no tuple. -/
private theorem Linked.not_below_builtin (hs : s.Linked) (hh : h.index < builtinCount)
    (htuple : s.IsTuple tuple) : ¬ Relation.ReflTransGen s.RefersTo h tuple := by
  obtain ⟨slot, hinitial⟩ := exists_slot (contains_iff.mpr hh : initial.contains h)
  have hslot := (hs.builtin h hh).trans hinitial
  obtain ⟨-, hrefs, hentry, -, -⟩ := slot_initial hinitial
  intro hbelow
  rcases Relation.ReflTransGen.cases_head hbelow with rfl | ⟨x, hx, -⟩
  · obtain ⟨_, _, _, _, hslot'⟩ := htuple
    rw [hslot] at hslot'
    cases hslot'
    cases hentry
  · have hmem := mem_refs_of_refersTo hslot hentry hx
    rw [hrefs] at hmem
    simp at hmem

/-- The parts of some types in a union are found below these types. -/
theorem below_of_mem_parts (hparams : ∀ p ∈ params, s.contains p)
    (hparts : params.mapM (s.setPart .union) = .ok parts) {y : Handle} (hy : y ∈ parts.flatten) :
    ∃ p ∈ params, Relation.ReflTransGen s.RefersTo p y := by
  obtain ⟨part, hpart, hy⟩ := List.mem_flatten.mp hy
  obtain ⟨p, hp, hof⟩ := Lifting.exists_of_mem_mapM hparts hpart
  obtain ⟨slot, hslot⟩ := exists_slot (hparams p hp)
  refine ⟨p, hp, ?_⟩
  rcases setPart_cases hslot hof with ⟨-, rfl⟩ | hnode | ⟨-, rfl⟩
  · simp at hy
  · refine .single ⟨.union part, shape_eq_ok_iff.mpr ⟨slot, hslot, ?_⟩, hy⟩
    rw [hnode]
    rfl
  · rw [List.mem_singleton.mp hy]

/-- The slot and the state of a fixed tuple. -/
theorem slot_of_shape_tuple (hshape : s.shape h = .ok (.tuple params)) :
    ∃ digest entry traits upper lower, s.slot? h = some ⟨.tuple params digest entry, traits⟩ ∧
      s.states[entry]? = some (.fixed upper lower) := by
  obtain ⟨⟨node, traits⟩, hslot, hof⟩ := shape_eq_ok_iff.mp hshape
  cases node with
  | tuple params' digest entry =>
    rw [Node.shape?] at hof
    split at hof
    next upper lower hstate =>
      cases hof
      exact ⟨digest, entry, traits, upper, lower, hslot, hstate⟩
    next => cases hof
    next => cases hof
  | _ => cases hof

theorem isTuple_of_shape (hshape : s.shape h = .ok (.tuple params)) : s.IsTuple h := by
  obtain ⟨digest, entry, traits, upper, lower, hslot, -⟩ := slot_of_shape_tuple hshape
  exact ⟨params, digest, entry, traits, hslot⟩

/-- A tuple is not found in the union of its elements: whatever the union has for members, they nest
as deep as parts of elements, and so less deep than the tuple. -/
private theorem not_below_union (hs : s.WellFormed) (hshape : s.shape tuple = .ok (.tuple params))
    (hparams : ∀ p ∈ params, s.contains p) (hparts : params.mapM (s.setPart .union) = .ok parts)
    (hset : FormedSet s .union parts.flatten element t) :
    ¬ Relation.ReflTransGen t.RefersTo element tuple := by
  have hgrows := hset.grows
  have ht := hgrows.wellFormed hs
  have hshape' := hgrows.shape_eq hshape
  have htuple := isTuple_of_shape hshape'
  have hdepth : ∀ y ∈ parts.flatten, t.depth y < t.depth tuple := by
    intro y hy
    obtain ⟨p, hp, hbelow⟩ := below_of_mem_parts hparams hparts hy
    have hpy : Relation.ReflTransGen t.RefersTo p y :=
      hbelow.lift id fun _ _ ⟨shape, hshape, hmem⟩ => ⟨shape, hgrows.shape_eq hshape, hmem⟩
    have hlt : t.depth p < t.depth tuple := by
      rw [depth_eq ht.linked ht.acyclic hshape']
      exact lt_deepest hp
    exact (depth_le_of_below ht.linked ht.acyclic hpy).trans_lt hlt
  intro hbelow
  have hflat := contains_of_setPart hs.linked hparams hparts
  cases hset with
  | top _ => exact hs.linked.not_below_builtin (by decide) htuple hbelow
  | nil => exact hs.linked.not_below_builtin (by decide) htuple hbelow
  | part hpart =>
    have hle := depth_le_of_below ht.linked ht.acyclic hbelow
    exact absurd (hdepth element hpart) (by omega)
  | @set _ _ members hformed hequal =>
    obtain ⟨traits, hslot⟩ := hformed.slot
    rcases Relation.ReflTransGen.cases_head hbelow with rfl | ⟨x, hx, hrest⟩
    · obtain ⟨_, _, _, _, hslot'⟩ := htuple
      rw [hslot] at hslot'
      cases hslot'
    · have hmem : x ∈ members := mem_refs_of_refersTo hslot rfl hx
      obtain ⟨y, hy, hxy⟩ := hequal x hmem
      have hvalid := ht.linked.contains_of_refersTo hx
      have heq := depth_eq_of_equal ht.linked ht.acyclic hvalid (hgrows.contains (hflat y hy)) hxy
      have hle := depth_le_of_below ht.linked ht.acyclic hrest
      exact absurd (hdepth y hy) (by omega)

/-- A tuple is not found in the array type of the union of its elements. -/
theorem not_below_array (hs : s.WellFormed) (hshape : s.shape tuple = .ok (.tuple params))
    (hparams : ∀ p ∈ params, s.contains p) (hparts : params.mapM (s.setPart .union) = .ok parts)
    (hset : FormedSet s .union parts.flatten element t)
    (harray : Formed t (.generic .arrayClass [element]) array u) :
    ¬ Relation.ReflTransGen u.RefersTo array tuple := by
  have ht := hset.grows.wellFormed hs
  have hu := harray.grows.wellFormed ht
  have htuple := isTuple_of_shape (harray.grows.shape_eq (hset.grows.shape_eq hshape))
  obtain ⟨traits, hslot⟩ := harray.slot
  intro hbelow
  rcases Relation.ReflTransGen.cases_head hbelow with rfl | ⟨x, hx, hrest⟩
  · obtain ⟨_, _, _, _, hslot'⟩ := htuple
    rw [hslot] at hslot'
    cases hslot'
  · have hmem : x ∈ [Handle.arrayClass, element] := mem_refs_of_refersTo hslot rfl hx
    rcases List.mem_cons.mp hmem with rfl | hmem
    · exact hu.linked.not_below_builtin (by decide) htuple hrest
    · rw [List.mem_singleton.mp hmem] at hrest
      have hvalid := hset.contains hs.linked (contains_of_setPart hs.linked hparams hparts)
      have hbefore := (harray.grows.below_of_below ht.linked hvalid hrest).1
      exact not_below_union hs hshape hparams hparts hset hbefore

end Apart

end Store

end GradualTypes
