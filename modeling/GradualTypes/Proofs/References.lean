import Mathlib
import GradualTypes.Store.Occurrence
import GradualTypes.Store.Formation

/-!
What a store refers to. Nodes only refer to older types, but a promoted tuple refers to an array
type that may be younger than it, so handles alone do not bound a walk over the types as they
stand. What bounds it is that no type is found below itself: every type then has a rank, the number
of types found below it, and the rank goes down with every reference.
-/

namespace GradualTypes

theorem Handle.eq_of_index {a b : Handle} (h : a.index = b.index) : a = b := by
  cases a
  cases b
  exact congrArg Handle.mk h

def Node.refs : Node → List Handle
  | generic base params => base :: params
  | tuple params _ _ => params
  | union members | intersection members => members
  | annotated _ inner => [inner]
  | _ => []

/-- A shape refers to what its node holds, unless it is that of a promoted tuple. -/
theorem Node.shape?_parts {node : Node} {states : Array TupleState} {shape : Shape}
    (h : node.shape? states = some shape) :
    shape.parts = node.refs ∨
      ∃ params digest entry array, node = .tuple params digest entry ∧
        states[entry]? = some (.promoted array) ∧ shape = .promoted array := by
  cases node with
  | tuple params digest entry =>
    simp only [shape?] at h
    split at h
    · cases h
      exact .inl rfl
    · next array hstate =>
      cases h
      exact .inr ⟨params, digest, entry, array, rfl, hstate, rfl⟩
    · cases h
  | _ =>
    cases h
    exact .inl rfl

/-- The node with a given shape. The shape of a tuple does not tell it. -/
def Shape.node? : Shape → Option Node
  | top => some .top
  | nil => some .nil
  | wildcard => some .wildcard
  | nominal name => some (.nominal name)
  | symbol name => some (.symbol name)
  | var name => some (.var name)
  | generic base params => some (.generic base params)
  | tuple _ | promoted _ => none
  | union members => some (.union members)
  | intersection members => some (.intersection members)
  | annotated label inner => some (.annotated label inner)

/-- A node other than a tuple has the shape that tells it. -/
theorem Node.shape?_eq_some_iff {node : Node} {states : Array TupleState} {shape : Shape}
    (hentry : node.entry? = none) :
    node.shape? states = some shape ↔ shape.node? = some node := by
  cases node <;> cases hentry <;> cases shape <;> simp [shape?, Shape.node?, eq_comm]

private theorem Node.eq_of_shape? {node node' : Node} {states : Array TupleState} {shape : Shape}
    (hshape : node.shape? states = some shape) (hnode : shape.node? = some node') :
    node = node' := by
  cases node with
  | tuple params digest entry =>
    rw [shape?] at hshape
    split at hshape <;> cases hshape <;> cases hnode
  | _ =>
    rw [(shape?_eq_some_iff rfl).mp hshape] at hnode
    exact Option.some.inj hnode

namespace Store

variable {s : Store} {h : Handle}

theorem contains_iff : s.contains h = true ↔ h.index < s.size := by
  simp [contains]

theorem exists_slot (hh : s.contains h) : ∃ slot, s.slot? h = some slot := by
  rw [contains_iff_slot?] at hh
  exact Option.isSome_iff_exists.mp hh

theorem contains_of_slot {slot : Slot} (hslot : s.slot? h = some slot) : s.contains h := by
  rw [contains_iff_slot?, hslot]
  rfl

theorem mem_handles : h ∈ s.handles ↔ s.contains h = true := by
  rw [contains_iff, handles, List.mem_map]
  constructor
  · rintro ⟨index, hindex, rfl⟩
    exact List.mem_range.mp hindex
  · intro hlt
    exact ⟨h.index, List.mem_range.mpr hlt, rfl⟩

theorem node_of_slot {slot : Slot} (hslot : s.slot? h = some slot) : s.node h = .ok slot.node := by
  rw [node, hslot]

theorem traits_of_slot {slot : Slot} (hslot : s.slot? h = some slot) :
    s.traits h = .ok slot.traits := by
  rw [traits, hslot]

theorem exists_slot_of_node {node : Node} (hnode : s.node h = .ok node) :
    ∃ traits, s.slot? h = some ⟨node, traits⟩ := by
  rw [Store.node] at hnode
  split at hnode
  next slot hslot =>
    cases hnode
    exact ⟨slot.traits, hslot⟩
  next => cases hnode

theorem shape_eq_ok_iff {shape : Shape} :
    s.shape h = .ok shape ↔
      ∃ slot, s.slot? h = some slot ∧ slot.node.shape? s.states = some shape := by
  rw [Store.shape]
  cases hslot : s.slot? h with
  | none => simp
  | some slot =>
    cases hshape : slot.node.shape? s.states with
    | none => simp [hshape]
    | some found => simp [hshape]

theorem slot_of_shape {shape : Shape} {node : Node} (hshape : s.shape h = .ok shape)
    (hnode : shape.node? = some node) : ∃ traits, s.slot? h = some ⟨node, traits⟩ := by
  obtain ⟨slot, hslot, hof⟩ := shape_eq_ok_iff.mp hshape
  rw [← Node.eq_of_shape? hof hnode]
  exact ⟨slot.traits, hslot⟩

/-- A type other than a tuple refers to the handles in its node. -/
theorem mem_refs_of_refersTo {slot : Slot} {p : Handle} (hslot : s.slot? h = some slot)
    (hentry : slot.node.entry? = none) (hp : s.RefersTo h p) : p ∈ slot.node.refs := by
  obtain ⟨shape, hshape, hp⟩ := hp
  obtain ⟨slot', hslot', hof⟩ := shape_eq_ok_iff.mp hshape
  rw [hslot] at hslot'
  cases hslot'
  rcases Node.shape?_parts hof with hparts | ⟨_, _, _, _, hnode, -, -⟩
  · rwa [hparts] at hp
  · rw [hnode] at hentry
    cases hentry

def IsTuple (s : Store) (h : Handle) : Prop :=
  ∃ params digest entry traits, s.slot? h = some ⟨.tuple params digest entry, traits⟩

/-- The references of a store hold together. The built-in types are in their places, nodes refer to
older types only, the base of a generic type is a class, every tuple has a state of its own and
there are no more states than types, promoted tuples stand for array types, and bounds are
tuples. -/
structure Linked (s : Store) : Prop where
  builtin : ∀ h : Handle, h.index < builtinCount → s.slot? h = initial.slot? h
  special : ∀ {h slot}, s.slot? h = some slot →
    slot.node = .top ∨ slot.node = .nil ∨ slot.node = .wildcard → h.index < builtinCount
  refs_lt : ∀ {h slot}, s.slot? h = some slot → ∀ p ∈ slot.node.refs, p.index < h.index
  base_nominal : ∀ {h base params traits}, s.slot? h = some ⟨.generic base params, traits⟩ →
    ∃ name, s.node base = .ok (.nominal name)
  states_le : s.states.size ≤ s.size
  entry_lt : ∀ {h params digest entry traits},
    s.slot? h = some ⟨.tuple params digest entry, traits⟩ → entry < s.states.size
  entry_unique : ∀ {h h' slot slot' entry}, s.slot? h = some slot → s.slot? h' = some slot' →
    slot.node.entry? = some entry → slot'.node.entry? = some entry → h = h'
  promoted_array : ∀ {entry : Nat} {array}, s.states[entry]? = some (.promoted array) →
    ∃ element traits, s.slot? array = some ⟨.generic .arrayClass [element], traits⟩
  bound_tuple : ∀ {entry : Nat} {state}, s.states[entry]? = some state →
    ∀ b ∈ state.upper ++ state.lower, s.IsTuple b

def Acyclic (s : Store) : Prop :=
  ∀ h, ¬ Relation.TransGen s.RefersTo h h

namespace Linked

variable {a b : Handle}

theorem contains_of_refs (hs : s.Linked) {slot : Slot} (hslot : s.slot? h = some slot)
    {p : Handle} (hp : p ∈ slot.node.refs) : s.contains p := by
  have hlt := hs.refs_lt hslot p hp
  have hh := contains_iff.mp (contains_of_slot hslot)
  exact contains_iff.mpr (hlt.trans hh)

/-- A tuple is fixed or promoted. -/
theorem shape_of_tuple (hs : s.Linked) {params : List Handle} {digest : UInt64} {entry : Nat}
    {traits : Traits} (hslot : s.slot? h = some ⟨.tuple params digest entry, traits⟩) :
    s.shape h = .ok (.tuple params) ∨ ∃ array, s.shape h = .ok (.promoted array) := by
  have hlt := hs.entry_lt hslot
  cases hstate : s.states[entry] with
  | fixed upper lower =>
    refine .inl (shape_eq_ok_iff.mpr ⟨_, hslot, ?_⟩)
    rw [Node.shape?, Array.getElem?_eq_getElem hlt, hstate]
  | promoted array =>
    refine .inr ⟨array, shape_eq_ok_iff.mpr ⟨_, hslot, ?_⟩⟩
    rw [Node.shape?, Array.getElem?_eq_getElem hlt, hstate]

/-- Every type of a linked store has a shape. -/
theorem exists_shape (hs : s.Linked) (hh : s.contains h) : ∃ shape, s.shape h = .ok shape := by
  obtain ⟨⟨node, traits⟩, hslot⟩ := exists_slot hh
  cases node with
  | tuple params digest entry =>
    rcases hs.shape_of_tuple hslot with hshape | ⟨array, hshape⟩
    · exact ⟨_, hshape⟩
    · exact ⟨_, hshape⟩
  | _ => exact ⟨_, shape_eq_ok_iff.mpr ⟨_, hslot, rfl⟩⟩

theorem contains_of_shape {shape : Shape} (hshape : s.shape h = .ok shape) : s.contains h := by
  obtain ⟨slot, hslot, -⟩ := shape_eq_ok_iff.mp hshape
  exact contains_of_slot hslot

/-- The types that a type of the store refers to are types of the store. -/
theorem contains_of_refersTo (hs : s.Linked) (hab : s.RefersTo a b) : s.contains b := by
  obtain ⟨shape, hshape, hb⟩ := hab
  obtain ⟨slot, hslot, hof⟩ := shape_eq_ok_iff.mp hshape
  rcases Node.shape?_parts hof with hparts | ⟨_, _, entry, array, -, hstate, rfl⟩
  · rw [hparts] at hb
    exact hs.contains_of_refs hslot hb
  · obtain ⟨_, _, harray⟩ := hs.promoted_array hstate
    rw [List.mem_singleton.mp hb]
    exact contains_of_slot harray

/-- A promoted tuple stands for an array type. -/
theorem slot_of_promoted (hs : s.Linked) {array : Handle}
    (hshape : s.shape h = .ok (.promoted array)) :
    ∃ element traits, s.slot? array = some ⟨.generic .arrayClass [element], traits⟩ := by
  obtain ⟨⟨node, _⟩, -, hof⟩ := shape_eq_ok_iff.mp hshape
  cases node with
  | tuple params digest entry =>
    rw [Node.shape?] at hof
    split at hof
    · cases hof
    · next hstate =>
      cases hof
      exact hs.promoted_array hstate
    · cases hof
  | _ => cases hof

private theorem contains_of_below (hs : s.Linked) (hab : Relation.TransGen s.RefersTo a b) :
    s.contains b := by
  cases hab with
  | single hab => exact hs.contains_of_refersTo hab
  | tail _ hcb => exact hs.contains_of_refersTo hcb

theorem contains_top (hs : s.Linked) : s.contains .top :=
  contains_of_slot (hs.builtin .top (by decide))

theorem contains_nil (hs : s.Linked) : s.contains .nil :=
  contains_of_slot (hs.builtin .nil (by decide))

/-- The top and nil stand at their own handles only. -/
theorem special_iff (hs : s.Linked) {slot : Slot} (hslot : s.slot? h = some slot) :
    (slot.node = .top ↔ h = .top) ∧ (slot.node = .nil ↔ h = .nil) := by
  by_cases hlt : h.index < builtinCount
  · rw [hs.builtin h hlt] at hslot
    obtain ⟨index⟩ := h
    dsimp only [builtinCount] at hlt
    interval_cases index <;> cases hslot <;> decide
  · have hnode : slot.node ≠ .top ∧ slot.node ≠ .nil :=
      ⟨fun hnode => hlt (hs.special hslot (.inl hnode)),
        fun hnode => hlt (hs.special hslot (.inr (.inl hnode)))⟩
    have hhandle : h ≠ .top ∧ h ≠ .nil := by
      constructor <;> rintro rfl <;> exact hlt (by decide)
    simp [hnode, hhandle]

end Linked

section Rank

variable {a b : Handle}

noncomputable def rank (s : Store) (h : Handle) : Nat :=
  {x | Relation.TransGen s.RefersTo h x}.ncard

private theorem Linked.below_subset (hs : s.Linked) (h : Handle) :
    {x | Relation.TransGen s.RefersTo h x} ⊆ {x | x ∈ s.handles} :=
  fun _ hx => mem_handles.mpr (hs.contains_of_below hx)

private theorem Linked.finite_below (hs : s.Linked) (h : Handle) :
    {x | Relation.TransGen s.RefersTo h x}.Finite :=
  (List.finite_toSet s.handles).subset (hs.below_subset h)

/-- A type has at most as many types below it as the store holds. -/
theorem Linked.rank_le_size (hs : s.Linked) (h : Handle) : s.rank h ≤ s.size := by
  have hcoe : {x | x ∈ s.handles} = (s.handles.toFinset : Set Handle) := by
    ext x
    simp
  calc s.rank h ≤ {x | x ∈ s.handles}.ncard :=
        Set.ncard_le_ncard (hs.below_subset h) (List.finite_toSet s.handles)
    _ = s.handles.toFinset.card := by rw [hcoe, Set.ncard_coe_finset]
    _ ≤ s.handles.length := List.toFinset_card_le s.handles
    _ = s.size := by simp [handles]

/-- In a store without cycles every reference leads to a type of smaller rank. -/
theorem Linked.rank_lt (hs : s.Linked) (hacyclic : s.Acyclic) (hab : s.RefersTo a b) :
    s.rank b < s.rank a := by
  apply Set.ncard_lt_ncard _ (hs.finite_below a)
  refine Set.ssubset_iff_exists.mpr ⟨?_, b, ?_, ?_⟩
  · intro x hx
    exact .head hab hx
  · exact .single hab
  · exact hacyclic b

end Rank

end Store

end GradualTypes
