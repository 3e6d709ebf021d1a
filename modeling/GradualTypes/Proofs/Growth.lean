import GradualTypes.Proofs.References

/-!
How a store grows. All formation of types comes down to one step: a node is put in the next free
slot and entered in the catalog of its kind. This module says what that step does, under which
conditions formation takes it, and that it keeps the references of the store in order.
-/

namespace GradualTypes

def Node.ownTraits : Node → Traits
  | var _ => .var
  | tuple _ _ _ => .tuple
  | _ => .none

namespace Store

def entered? (s : Store) : Node → Option Handle
  | .nominal name => s.nominals.find? name
  | .symbol name => s.symbols.find? name
  | .var name => s.vars.find? name
  | .generic base params => s.generics.find? (base, params)
  | .annotated label inner => s.annotations.find? (label, inner)
  | _ => none

def traitsOf (s : Store) (node : Node) : Except Error Traits := do
  return (← s.traitsOfAll node.parts).merge node.ownTraits

/-- Puts a node in the next free slot and enters it in the catalog of its kind; the digest is the
one under which a set of types is entered. -/
def allocate (s : Store) (node : Node) (traits : Traits) (digest : UInt64) : Store :=
  let next := { s with slots := s.slots.push ⟨node, traits⟩ }
  match node with
  | .nominal name => { next with nominals := s.nominals.insert name ⟨s.size⟩ }
  | .symbol name => { next with symbols := s.symbols.insert name ⟨s.size⟩ }
  | .var name => { next with vars := s.vars.insert name ⟨s.size⟩ }
  | .generic base params => { next with generics := s.generics.insert (base, params) ⟨s.size⟩ }
  | .annotated label inner =>
    { next with annotations := s.annotations.insert (label, inner) ⟨s.size⟩ }
  | .tuple _ _ _ => { next with states := s.states.push .unbounded }
  | .union _ => next.enterSet .union digest ⟨s.size⟩
  | .intersection _ => next.enterSet .intersection digest ⟨s.size⟩
  | .top | .nil | .wildcard => next

/-- The members of a set of types that is about to be made: arranged parts of the types it was asked
for, at least two, and not found in the catalog. -/
structure IsNewSet (s : Store) (kind : SetKind) (members : List Handle) (digest : UInt64) :
    Prop where
  arranged : ∃ (types : List Handle) (parts : List (List Handle)),
    (kind = .union → types.anyM s.isTop = .ok false) ∧ (∀ p ∈ types, s.contains p) ∧
      types.mapM (s.setPart kind) = .ok parts ∧ s.arrange parts.flatten = .ok members
  two_le : 2 ≤ members.length
  digest_eq : ∃ digests, members.mapM s.digest = .ok digests ∧ digest = kind.digest digests
  absent : (s.sets kind).findM? digest
    (fun h => do s.equalSets (← s.node h).members members) = .ok none

/-- What formation ensures before it makes a type. -/
structure Admits (s : Store) (node : Node) (traits : Traits) (digest : UInt64) : Prop where
  refs : ∀ p ∈ node.refs, s.contains p
  named : ∀ name, node.name? = some name → ∃ text, s.names.text? name = some text
  traits_eq : s.traitsOf node = .ok traits
  ordinary : node ≠ .top ∧ node ≠ .nil ∧ node ≠ .wildcard
  base : ∀ base params, node = .generic base params → ∃ name, s.node base = .ok (.nominal name)
  entry : ∀ params own entry, node = .tuple params own entry → entry = s.states.size ∧
    ∃ digests, params.mapM s.digest = .ok digests ∧ own = Digest.ofTuple s.hash digests
  keyed : s.entered? node = none
  gathered : ∀ kind members, node = SetKind.node kind members → s.IsNewSet kind members digest

section Allocate

variable (s : Store) (node : Node) (traits : Traits) (digest : UInt64)

@[simp] theorem slots_allocate :
    (s.allocate node traits digest).slots = s.slots.push ⟨node, traits⟩ := by
  cases node <;> rfl

@[simp] theorem size_allocate : (s.allocate node traits digest).size = s.size + 1 := by
  simp [size]

@[simp] theorem names_allocate : (s.allocate node traits digest).names = s.names := by
  cases node <;> rfl

@[simp] theorem hash_allocate : (s.allocate node traits digest).hash = s.hash := by
  cases node <;> rfl

theorem states_allocate : (s.allocate node traits digest).states =
    if node.entry?.isSome then s.states.push .unbounded else s.states := by
  cases node <;> rfl

theorem slot?_allocate (h : Handle) : (s.allocate node traits digest).slot? h =
    if h = ⟨s.size⟩ then some ⟨node, traits⟩ else s.slot? h := by
  rw [slot?, slots_allocate, Array.getElem?_push]
  by_cases hh : h.index = s.slots.size
  · have hnew : h = ⟨s.size⟩ := Handle.eq_of_index hh
    simp [hnew, size]
  · have hne : h ≠ ⟨s.size⟩ := by
      rintro rfl
      exact hh rfl
    simp [hh, hne, slot?]

variable {s node traits digest}

theorem slot?_allocate_new :
    (s.allocate node traits digest).slot? ⟨s.size⟩ = some ⟨node, traits⟩ := by
  rw [slot?_allocate, if_pos rfl]

theorem slot?_allocate_of_slot {h : Handle} {slot : Slot} (hslot : s.slot? h = some slot) :
    (s.allocate node traits digest).slot? h = some slot := by
  have hlt := contains_iff.mp (contains_of_slot hslot)
  have hne : h ≠ ⟨s.size⟩ := by
    rintro rfl
    exact lt_irrefl _ hlt
  rw [slot?_allocate, if_neg hne, hslot]

private theorem state_allocate_of_state {entry : Nat} {state : TupleState}
    (hstate : s.states[entry]? = some state) :
    (s.allocate node traits digest).states[entry]? = some state := by
  obtain ⟨hlt, -⟩ := Array.getElem?_eq_some_iff.mp hstate
  rw [states_allocate]
  split
  · rw [Array.getElem?_push_lt hlt, ← Array.getElem?_eq_getElem hlt, hstate]
  · exact hstate

/-- A state after the step is an old one, or that of the tuple just made. -/
private theorem state_of_state_allocate {entry : Nat} {state : TupleState}
    (hstate : (s.allocate node traits digest).states[entry]? = some state) :
    s.states[entry]? = some state ∨ entry = s.states.size ∧ state = .unbounded := by
  rw [states_allocate] at hstate
  split at hstate
  · rw [Array.getElem?_push] at hstate
    split at hstate
    next hentry =>
      cases hstate
      exact .inr ⟨hentry, rfl⟩
    next => exact .inl hstate
  · exact .inl hstate

end Allocate

/-- `t` holds every type that `s` holds and has its hash. The states of tuples may have changed. -/
structure Retains (s t : Store) : Prop where
  slots : ∀ {h slot}, s.slot? h = some slot → t.slot? h = some slot
  hash : t.hash = s.hash

theorem slot?_of_slots {s t : Store} (hslots : t.slots = s.slots) (h : Handle) :
    t.slot? h = s.slot? h := by
  rw [slot?, hslots, slot?]

namespace Retains

variable {s t u : Store} {h : Handle}

theorem refl (s : Store) : s.Retains s :=
  ⟨fun hslot => hslot, rfl⟩

theorem of_slots (hslots : t.slots = s.slots) (hhash : t.hash = s.hash) : s.Retains t :=
  ⟨fun hslot => (slot?_of_slots hslots _).trans hslot, hhash⟩

theorem trans (hst : s.Retains t) (htu : t.Retains u) : s.Retains u :=
  ⟨fun hslot => htu.slots (hst.slots hslot), htu.hash.trans hst.hash⟩

theorem contains (hst : s.Retains t) (hh : s.contains h) : t.contains h := by
  obtain ⟨slot, hslot⟩ := exists_slot hh
  exact contains_of_slot (hst.slots hslot)

theorem isTuple (hst : s.Retains t) (hh : s.IsTuple h) : t.IsTuple h := by
  obtain ⟨params, digest, entry, traits, hslot⟩ := hh
  exact ⟨params, digest, entry, traits, hst.slots hslot⟩

theorem size_le (hst : s.Retains t) : s.size ≤ t.size := by
  by_contra hlt
  have hh : s.contains ⟨t.size⟩ := contains_iff.mpr (Nat.lt_of_not_le hlt)
  exact lt_irrefl _ (contains_iff.mp (hst.contains hh))

theorem node_eq {node : Node} (hst : s.Retains t) (hnode : s.node h = .ok node) :
    t.node h = .ok node := by
  obtain ⟨traits, hslot⟩ := exists_slot_of_node hnode
  exact node_of_slot (hst.slots hslot)

theorem traits_eq {traits : Traits} (hst : s.Retains t) (htraits : s.traits h = .ok traits) :
    t.traits h = .ok traits := by
  rw [Store.traits] at htraits
  split at htraits
  next slot hslot =>
    cases htraits
    exact traits_of_slot (hst.slots hslot)
  next => cases htraits

end Retains

/-- `t` holds everything that `s` holds, with the same states. -/
structure Extends (s t : Store) : Prop extends s.Retains t where
  states : ∀ {entry : Nat} {state}, s.states[entry]? = some state → t.states[entry]? = some state

namespace Extends

variable {s t u : Store} {h : Handle}

theorem refl (s : Store) : s.Extends s :=
  ⟨.refl s, fun hstate => hstate⟩

theorem trans (hst : s.Extends t) (htu : t.Extends u) : s.Extends u :=
  ⟨hst.toRetains.trans htu.toRetains, fun hstate => htu.states (hst.states hstate)⟩

theorem allocate (s : Store) (node : Node) (traits : Traits) (digest : UInt64) :
    s.Extends (s.allocate node traits digest) :=
  ⟨⟨slot?_allocate_of_slot, hash_allocate s node traits digest⟩, state_allocate_of_state⟩

theorem shape_eq {shape : Shape} (hst : s.Extends t) (hshape : s.shape h = .ok shape) :
    t.shape h = .ok shape := by
  obtain ⟨slot, hslot, hof⟩ := shape_eq_ok_iff.mp hshape
  refine shape_eq_ok_iff.mpr ⟨slot, hst.slots hslot, ?_⟩
  obtain ⟨node, traits⟩ := slot
  cases node with
  | tuple params digest entry =>
    simp only [Node.shape?] at hof ⊢
    cases hstate : s.states[entry]? with
    | none =>
      rw [hstate] at hof
      cases hof
    | some state => rw [hst.states hstate, ← hstate, hof]
  | _ => exact hof

/-- Old types refer to what they referred to before. -/
theorem refersTo_iff (hst : s.Extends t) (hs : s.Linked) (hh : s.contains h) (p : Handle) :
    t.RefersTo h p ↔ s.RefersTo h p := by
  obtain ⟨shape, hshape⟩ := hs.exists_shape hh
  have hshape' := hst.shape_eq hshape
  constructor
  · rintro ⟨found, hfound, hp⟩
    rw [hshape'] at hfound
    cases hfound
    exact ⟨shape, hshape, hp⟩
  · rintro ⟨found, hfound, hp⟩
    exact ⟨found, hst.shape_eq hfound, hp⟩

/-- What is found below an old type was found below it before. -/
theorem below_of_below (hst : s.Extends t) (hs : s.Linked) (hh : s.contains h) {p : Handle}
    (hp : Relation.ReflTransGen t.RefersTo h p) :
    Relation.ReflTransGen s.RefersTo h p ∧ s.contains p := by
  induction hp with
  | refl => exact ⟨.refl, hh⟩
  | tail _ hpq ih =>
    have hold := (hst.refersTo_iff hs ih.2 _).mp hpq
    exact ⟨ih.1.tail hold, hs.contains_of_refersTo hold⟩

end Extends

section Preservation

variable {s : Store} {node : Node} {traits : Traits} {digest : UInt64}

theorem slot_of_slot_allocate {h : Handle} {slot : Slot}
    (hslot : (s.allocate node traits digest).slot? h = some slot) :
    s.slot? h = some slot ∨ h = ⟨s.size⟩ ∧ slot = ⟨node, traits⟩ := by
  rw [slot?_allocate] at hslot
  split at hslot
  next hh =>
    cases hslot
    exact .inr ⟨hh, rfl⟩
  next => exact .inl hslot

/-- Making a type keeps the references in order. -/
theorem Linked.allocate (hs : s.Linked) (ha : s.Admits node traits digest) :
    (s.allocate node traits digest).Linked where
  builtin h hh := by
    have hslot := hs.builtin h hh
    obtain ⟨slot, hinitial⟩ := exists_slot (contains_iff.mpr hh : initial.contains h)
    rw [slot?_allocate_of_slot (hslot.trans hinitial), hinitial]
  special {h slot} hslot hnode := by
    rcases slot_of_slot_allocate hslot with hold | ⟨-, rfl⟩
    · exact hs.special hold hnode
    · exact absurd hnode (by simp [ha.ordinary])
  refs_lt {h slot} hslot p hp := by
    rcases slot_of_slot_allocate hslot with hold | ⟨rfl, rfl⟩
    · exact hs.refs_lt hold p hp
    · exact contains_iff.mp (ha.refs p hp)
  base_nominal {h base params traits'} hslot := by
    have hext := Extends.allocate s node traits digest
    rcases slot_of_slot_allocate hslot with hold | ⟨-, hnew⟩
    · obtain ⟨name, hname⟩ := hs.base_nominal hold
      exact ⟨name, hext.node_eq hname⟩
    · cases hnew
      obtain ⟨name, hname⟩ := ha.base base params rfl
      exact ⟨name, hext.node_eq hname⟩
  states_le := by
    have hle := hs.states_le
    rw [states_allocate, size_allocate]
    split
    · rw [Array.size_push]
      omega
    · omega
  entry_lt {h params own entry traits'} hslot := by
    rw [states_allocate]
    rcases slot_of_slot_allocate hslot with hold | ⟨-, hnew⟩
    · have hlt := hs.entry_lt hold
      split
      · rw [Array.size_push]
        omega
      · exact hlt
    · cases hnew
      simp [Node.entry?, (ha.entry params own entry rfl).1]
  entry_unique {h h' slot slot' entry} hslot hslot' hentry hentry' := by
    have hfresh : ∀ {h slot}, s.slot? h = some slot → slot.node.entry? = some entry →
        node.entry? = some entry → False := by
      rintro h ⟨old, _⟩ hold hoe hne
      cases old <;> cases hoe
      cases node <;> cases hne
      have hlt := hs.entry_lt hold
      have heq := (ha.entry _ _ _ rfl).1
      omega
    rcases slot_of_slot_allocate hslot with hold | ⟨rfl, rfl⟩
    · rcases slot_of_slot_allocate hslot' with hold' | ⟨rfl, rfl⟩
      · exact hs.entry_unique hold hold' hentry hentry'
      · exact (hfresh hold hentry hentry').elim
    · rcases slot_of_slot_allocate hslot' with hold' | ⟨rfl, rfl⟩
      · exact (hfresh hold' hentry' hentry).elim
      · rfl
  promoted_array hstate := by
    rcases state_of_state_allocate hstate with hold | ⟨-, hnew⟩
    · obtain ⟨element, traits', harray⟩ := hs.promoted_array hold
      exact ⟨element, traits', slot?_allocate_of_slot harray⟩
    · cases hnew
  bound_tuple hstate b hb := by
    rcases state_of_state_allocate hstate with hold | ⟨-, hnew⟩
    · obtain ⟨params, own, entry', traits', hbound⟩ := hs.bound_tuple hold b hb
      exact ⟨params, own, entry', traits', slot?_allocate_of_slot hbound⟩
    · cases hnew
      simp [TupleState.unbounded, TupleState.upper, TupleState.lower] at hb

/-- A new type refers to old ones only, so it closes no cycle. -/
theorem Acyclic.allocate (hacyclic : s.Acyclic) (hs : s.Linked)
    (ha : s.Admits node traits digest) : (s.allocate node traits digest).Acyclic := by
  have hnext := hs.allocate ha
  have hext := Extends.allocate s node traits digest
  have hlast : ∀ {a b}, (s.allocate node traits digest).RefersTo a b → s.contains b := by
    intro a b hab
    by_cases ha' : s.contains a
    · exact hs.contains_of_refersTo ((hext.refersTo_iff hs ha' b).mp hab)
    · obtain ⟨shape, hshape, hb⟩ := hab
      obtain ⟨slot, hslot, hof⟩ := shape_eq_ok_iff.mp hshape
      rcases slot_of_slot_allocate hslot with hold | ⟨rfl, rfl⟩
      · exact absurd (contains_of_slot hold) ha'
      · rcases Node.shape?_parts hof with hparts | ⟨_, _, entry, array, rfl, hstate, rfl⟩
        · rw [hparts] at hb
          exact ha.refs b hb
        · rcases state_of_state_allocate hstate with hold | ⟨-, hnew⟩
          · obtain ⟨hlt, -⟩ := Array.getElem?_eq_some_iff.mp hold
            have heq := (ha.entry _ _ _ rfl).1
            omega
          · cases hnew
  intro h hcycle
  have hh : s.contains h := by
    cases hcycle with
    | single hab => exact hlast hab
    | tail _ hbc => exact hlast hbc
  obtain ⟨c, hfirst, hrest⟩ := Relation.TransGen.head'_iff.mp hcycle
  have hold := (hext.refersTo_iff hs hh c).mp hfirst
  have hback := (hext.below_of_below hs (hs.contains_of_refersTo hold) hrest).1
  exact hacyclic h (Relation.TransGen.head'_iff.mpr ⟨c, hold, hback⟩)

end Preservation

end Store

end GradualTypes
