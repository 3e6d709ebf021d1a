import GradualTypes.Store.Rendering
import GradualTypes.Proofs.Outlines
import GradualTypes.Proofs.Simulation

/-!
Types in which no promoted tuple occurs. The shape of such a type is the one that its node tells,
and everything it refers to is such a type again, so its text is the text of its outline. No change
of a store takes a promotion back: a type in which no promoted tuple occurs now never had one.
-/

namespace GradualTypes

/-- The shape of a node as long as it is not that of a promoted tuple. -/
def Node.fixedShape : Node → Shape
  | top => .top
  | nil => .nil
  | wildcard => .wildcard
  | nominal name => .nominal name
  | symbol name => .symbol name
  | var name => .var name
  | generic base params => .generic base params
  | tuple params _ _ => .tuple params
  | union members => .union members
  | intersection members => .intersection members
  | annotated label inner => .annotated label inner

/-- A node has the shape that it tells, or that of a promoted tuple. -/
theorem Node.shape?_cases {node : Node} {states : Array TupleState} {shape : Shape}
    (hshape : node.shape? states = some shape) :
    shape = node.fixedShape ∨ ∃ array, shape = .promoted array := by
  cases node with
  | tuple params digest entry =>
    rw [shape?] at hshape
    split at hshape
    · cases hshape
      exact .inl rfl
    · cases hshape
      exact .inr ⟨_, rfl⟩
    · cases hshape
  | _ =>
    cases hshape
    exact .inl rfl

namespace Store

variable {s t u : Store} {a b x : Handle}

section Persistence

/-- `t` is a later stage of `s`: it holds the types and the names of `s`, and what was promoted
stands for the same array type. -/
structure Persists (s t : Store) : Prop extends s.Retains t where
  names : s.names.Keeps t.names
  promoted : ∀ {h array}, s.shape h = .ok (.promoted array) → t.shape h = .ok (.promoted array)

theorem Persists.refl (s : Store) : s.Persists s :=
  ⟨.refl s, .refl s.names, fun hshape => hshape⟩

theorem Persists.trans (hst : s.Persists t) (htu : t.Persists u) : s.Persists u :=
  ⟨hst.toRetains.trans htu.toRetains, fun _ _ hknown => htu.names (hst.names hknown),
    fun hshape => htu.promoted (hst.promoted hshape)⟩

theorem Grows.persists (hst : s.Grows t) : s.Persists t := by
  refine ⟨hst.toRetains, ?_, hst.shape_eq⟩
  rw [hst.names_eq]
  exact .refl s.names

private theorem Shift.split (hst : Shift s t) (hs : s.WellFormed) :
    ∃ u, s.Grows u ∧ u.Persists t ∧ t.slots = u.slots := by
  have hpromoted : ∀ {h array}, s.shape h = .ok (.promoted array) →
      t.shape h = .ok (.promoted array) := by
    intro h array hshape
    rcases hst.shape_cases hs hshape with hsame | ⟨params, _, htuple, -⟩
    · exact hsame
    · cases htuple
  have hretains := (hst.settles hs).toRetains
  cases hst with
  | bound hlower hupper =>
    refine ⟨s, .refl s, ⟨hretains, ?_, hpromoted⟩, by simp⟩
    simp only [names_withState]
    exact .refl s.names
  | @promotion tuple _ array _ _ u hshape hunion harray =>
    obtain ⟨parts, -, hset, hformed⟩ := promotion_formed hs hshape hunion harray
    have hgrows := hset.grows.trans hformed.grows
    refine ⟨u, hgrows, ⟨retains_withState u tuple _, ?_, ?_⟩, by simp⟩
    · rw [names_withState]
      exact .refl u.names
    · intro h array' hpromoted'
      have hne : h ≠ tuple := by
        rintro rfl
        rw [hgrows.shape_eq hshape] at hpromoted'
        cases hpromoted'
      rw [shape_withState (hgrows.wellFormed hs).linked (.inl hne)]
      exact hpromoted'
  | report event => exact ⟨s, .refl s, ⟨hretains, .refl s.names, hpromoted⟩, rfl⟩

/-- A change makes types first, if any, and then it leaves the types as they are. -/
theorem Change.split (hst : Change s t) (hs : s.WellFormed) :
    ∃ u, s.Grows u ∧ u.Persists t ∧ t.slots = u.slots := by
  cases hst with
  | add hadds =>
    obtain ⟨node, traits, digest, ha, rfl⟩ := hadds
    exact ⟨_, (Formed.made ha).grows, .refl _, rfl⟩
  | shift hshift => exact hshift.split hs
  | intern hintern => exact ⟨s, .refl s, ⟨.of_slots rfl rfl, .intern hintern, id⟩, rfl⟩
  | declare child parent => exact ⟨s, .refl s, ⟨.of_slots rfl rfl, .refl s.names, id⟩, rfl⟩

theorem Evolves.persists (hst : Evolves s t) (hs : s.WellFormed) : s.Persists t := by
  induction hst with
  | refl => exact .refl s
  | tail hsm hchange ih =>
    obtain ⟨u, hgrows, hpersists, -⟩ := hchange.split (Evolves.wellFormed hsm hs)
    exact (ih.trans hgrows.persists).trans hpersists

theorem Persists.outline_eq (hst : s.Persists t) (hs : s.WellFormed) (ha : s.contains a) :
    t.outline a = s.outline a :=
  Store.outline_eq hst.toRetains hst.names hs.linked hs.named ha

/-- A type keeps its shape unless it is a tuple that is promoted. -/
theorem Persists.shape_cases {shape : Shape} (hst : s.Persists t) (hs : s.Linked) (ht : t.Linked)
    (hshape : s.shape x = .ok shape) :
    t.shape x = .ok shape ∨
      ∃ params array, shape = .tuple params ∧ t.shape x = .ok (.promoted array) := by
  obtain ⟨⟨node, traits⟩, hslot, hof⟩ := shape_eq_ok_iff.mp hshape
  cases node with
  | tuple params digest entry =>
    rcases hs.shape_of_tuple hslot with htuple | ⟨array, hpromoted⟩
    · rw [hshape] at htuple
      cases htuple
      exact (ht.shape_of_tuple (hst.slots hslot)).imp id fun ⟨array, hpromoted⟩ =>
        ⟨params, array, rfl, hpromoted⟩
    · rw [hshape] at hpromoted
      cases hpromoted
      exact .inl (hst.promoted hshape)
  | _ => exact .inl (shape_eq_ok_iff.mpr ⟨_, hst.slots hslot, hof⟩)

end Persistence

section Occurrence

theorem mem_refs_of_mem_parts {node : Node} (hx : x ∈ node.parts) : x ∈ node.refs := by
  cases node with
  | generic base params => exact List.mem_cons_of_mem base hx
  | _ => exact hx

theorem Occurs.contains (hs : s.Linked) (ha : s.contains a) (hab : s.Occurs a b) :
    s.contains b := by
  induction hab with
  | self a => exact ha
  | part hpart _ ih =>
    obtain ⟨node, hnode, hb⟩ := hpart
    obtain ⟨traits, hslot⟩ := exists_slot_of_node hnode
    exact ih (hs.contains_of_refs hslot (mem_refs_of_mem_parts hb))

theorem Occurs.retain (hst : s.Retains t) (hab : s.Occurs a b) : t.Occurs a b := by
  induction hab with
  | self a => exact .self a
  | part hpart _ ih =>
    obtain ⟨node, hnode, hb⟩ := hpart
    exact .part ⟨node, hst.node_eq hnode, hb⟩ ih

/-- A promotion that has not happened later has not happened before. -/
theorem Persists.unpromoted (hst : s.Persists t) (hs : s.Linked) (ha : s.contains a)
    (hunpromoted : t.IsUnpromoted a) : s.IsUnpromoted a := by
  intro x hx
  have hlater := hunpromoted x (hx.retain hst.toRetains)
  obtain ⟨shape, hshape⟩ := hs.exists_shape (hx.contains hs ha)
  by_cases hpromoted : ∃ array, shape = .promoted array
  · obtain ⟨array, rfl⟩ := hpromoted
    rw [canonical_of_promoted (hst.promoted hshape)] at hlater
    rw [canonical_of_promoted hshape, hlater]
  · exact canonical_of_shape hshape (not_exists.mp hpromoted)

theorem IsUnpromoted.part (ha : s.IsUnpromoted a) (hab : s.HasPart a b) : s.IsUnpromoted b :=
  fun x hx => ha x (.part hab hx)

/-- Types that stand for themselves and are made of each other hold no promoted tuple. -/
theorem IsUnpromoted.of_closed {types : List Handle}
    (hclosed : ∀ x ∈ types, s.canonical x = .ok x ∧ ∀ y ∈ (s.nodeAt x).parts, y ∈ types)
    (ha : a ∈ types) : s.IsUnpromoted a := by
  intro x hx
  induction hx with
  | self a => exact (hclosed a ha).1
  | @part a b c hpart _ ih =>
    obtain ⟨node, hnode, hb⟩ := hpart
    obtain ⟨traits, hslot⟩ := exists_slot_of_node hnode
    have hparts := (hclosed a ha).2
    rw [nodeAt_of_slot hslot] at hparts
    exact ih (hparts b hb)

/-- What a type refers to is unpromoted if the type is; the base of a generic type is a class. -/
theorem IsUnpromoted.ref {slot : Slot} (ha : s.IsUnpromoted a) (hs : s.Linked)
    (hslot : s.slot? a = some slot) (hx : x ∈ slot.node.refs) : s.IsUnpromoted x := by
  have hpart : x ∈ slot.node.parts → s.IsUnpromoted x := fun hx =>
    ha.part ⟨slot.node, node_of_slot hslot, hx⟩
  obtain ⟨node, traits⟩ := slot
  cases node with
  | generic base params =>
    rcases List.mem_cons.mp hx with rfl | hx
    · obtain ⟨name, hname⟩ := hs.base_nominal hslot
      obtain ⟨traits', hbase⟩ := exists_slot_of_node hname
      intro y hy
      cases hy with
      | self => exact canonical_of_shape (shape_eq_ok_iff.mpr ⟨_, hbase, rfl⟩) (by simp)
      | part hpart' _ =>
        obtain ⟨node, hnode, hmem⟩ := hpart'
        rw [hname] at hnode
        cases hnode
        simp [Node.parts] at hmem
    · exact hpart hx
  | _ => exact hpart hx

/-- A type in which no promoted tuple occurs has the shape that its node tells. -/
theorem WellFormed.shape_of_unpromoted {slot : Slot} (hs : s.WellFormed) (ha : s.IsUnpromoted a)
    (hslot : s.slot? a = some slot) : s.shape a = .ok slot.node.fixedShape := by
  obtain ⟨shape, hshape⟩ := hs.linked.exists_shape (contains_of_slot hslot)
  obtain ⟨slot', hslot', hof⟩ := shape_eq_ok_iff.mp hshape
  rw [hslot] at hslot'
  cases hslot'
  rcases Node.shape?_cases hof with rfl | ⟨array, rfl⟩
  · exact hshape
  · have hself := ha a (.self a)
    rw [canonical_of_promoted hshape] at hself
    cases hself
    obtain ⟨element, harray⟩ := hs.shape_of_array hshape
    rw [hshape] at harray
    cases harray

end Occurrence

section Rendering

/-- The name of a node is written as its label. -/
private theorem text_of_slot {slot : Slot} {name : Name} (hnamed : s.Named)
    (hslot : s.slot? a = some slot)
    (hname : slot.node.name? = some name) : s.names.text name = .ok (s.label slot.node) := by
  obtain ⟨text, htext⟩ := hnamed hslot hname
  simp [NameTable.text, label, hname, htext]

/-- A type in which no promoted tuple occurs is written as its outline is. -/
theorem WellFormed.renderWithin_eq (hs : s.WellFormed) (depth : Nat) (ha : s.contains a)
    (hunpromoted : s.IsUnpromoted a) (hdepth : a.index < depth) :
    s.renderWithin depth a = .ok (s.outline a).text := by
  induction depth generalizing a with
  | zero => omega
  | succ depth ih =>
    obtain ⟨slot, hslot⟩ := exists_slot ha
    have hshape := hs.shape_of_unpromoted hunpromoted hslot
    have hrefs : ∀ x ∈ slot.node.refs, s.renderWithin depth x = .ok (s.outline x).text := by
      intro x hx
      have hlt := hs.linked.refs_lt hslot x hx
      exact ih (hs.linked.contains_of_refs hslot hx) (hunpromoted.ref hs.linked hslot hx)
        (by omega)
    have hmap : ∀ xs ⊆ slot.node.refs, xs.mapM (fun x => s.renderWithin depth x) =
        .ok (xs.map fun x => (s.outline x).text) := by
      intro xs hxs
      rw [Lifting.mapM_eq_ok_iff, List.forall₂_map_right_iff, List.forall₂_same]
      exact fun x hx => hrefs x (hxs hx)
    have htext : (s.outline a).text = slot.node.kind.write (s.label slot.node)
        (slot.node.refs.map fun x => (s.outline x).text) := by
      rw [outline_step hs.linked hs.named hslot, Outline.text, Outline.texts_eq, List.map_map]
      rfl
    have hname : ∀ {name}, slot.node.name? = some name →
        s.names.text name = .ok (s.label slot.node) := text_of_slot hs.named hslot
    rw [htext, renderWithin, hshape]
    obtain ⟨node, traits⟩ := slot
    cases node with
    | top => rfl
    | nil => rfl
    | wildcard => rfl
    | nominal name => exact hname rfl
    | symbol name => exact hname rfl
    | var name =>
      simp only [Node.fixedShape, bind, Except.bind, hname rfl]
      rfl
    | generic base params =>
      simp only [Node.fixedShape, bind, Except.bind, hrefs base List.mem_cons_self,
        hmap params (List.subset_cons_self base params)]
      rfl
    | tuple params digest entry =>
      simp only [Node.fixedShape, bind, Except.bind, hmap params (List.Subset.refl params)]
      rfl
    | union members =>
      simp only [Node.fixedShape, bind, Except.bind, hmap members (List.Subset.refl members)]
      rfl
    | intersection members =>
      simp only [Node.fixedShape, bind, Except.bind, hmap members (List.Subset.refl members)]
      rfl
    | annotated name inner =>
      simp only [Node.fixedShape, bind, Except.bind, hrefs inner List.mem_cons_self, hname rfl]
      rfl

/-- In a type without promoted tuples the text depends on the outline only. -/
theorem WellFormed.render_eq (hs : s.WellFormed) (ha : s.contains a)
    (hunpromoted : s.IsUnpromoted a) : s.render a = .ok (s.outline a).text := by
  have hlt := contains_iff.mp ha
  exact hs.renderWithin_eq _ ha hunpromoted (by omega)

end Rendering

end Store

end GradualTypes
