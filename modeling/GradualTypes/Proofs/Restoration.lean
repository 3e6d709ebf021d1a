import GradualTypes.Proofs.Instances
import GradualTypes.Proofs.Joins

/-!
Types that are formed again from their own components. A generic or an annotated type is found in
the catalog of its kind. A set of types without tuples is found too, as long as no promoted tuple
stands for a type that could be taken for a member of it. So where no tuple is promoted, a
substitution that puts no other type in the place of a variable gives back a type without tuples and
leaves the store as it is, whether it passes over the inert components or forms all of them again.
-/

namespace GradualTypes

private theorem Shape.arguments_of_node? {shape : Shape} {node : Node}
    (hnode : shape.node? = some node) : shape.arguments = node.parts := by
  cases shape <;> cases hnode <;> rfl

namespace Store

variable {s t : Store} {h : Handle} {kind : SetKind} {subst : Substitution} {shape : Shape}
  {types : List Handle}

section Found

variable (hs : s.WellFormed)
include hs

/-- A description that is in the catalog of its kind is found there. -/
theorem WellFormed.internNode_found {node : Node} {traits : Traits}
    (hslot : s.slot? h = some ⟨node, traits⟩) (hkeyed : node.isKeyed) (traits' : Traits) :
    internNode node traits' s = .ok h s := by
  rw [internNode, hs.catalogued.entered hslot hkeyed]

theorem WellFormed.formGeneric_found {base : Handle} {params : List Handle}
    (hshape : s.shape h = .ok (.generic base params)) : formGeneric base params s = .ok h s := by
  obtain ⟨_, hslot⟩ := slot_of_shape hshape rfl
  obtain ⟨traits, htraits⟩ := traitsOfAll_answered fun x hx =>
    hs.linked.contains_of_refs hslot (List.mem_cons_of_mem base hx)
  rw [formGeneric_run s base params htraits]
  exact hs.internNode_found hslot rfl traits

private theorem WellFormed.formAnnotated_found {label : Name} {inner : Handle}
    (hshape : s.shape h = .ok (.annotated label inner)) :
    formAnnotated label inner s = .ok h s := by
  obtain ⟨_, hslot⟩ := slot_of_shape hshape rfl
  have hinner : ∀ x ∈ [inner], s.contains x := fun x hx => hs.linked.contains_of_refs hslot hx
  obtain ⟨traits, htraits⟩ := traitsOfAll_answered hinner
  rw [formAnnotated_run s label inner htraits]
  exact hs.internNode_found hslot rfl traits

/-- The catalog has no other set that could be taken for one without tuples, if all promoted tuples
stand for deeper types. -/
theorem WellFormed.findSet_members {members : List Handle} {traits : Traits}
    (hslot : s.slot? h = some ⟨kind.node members, traits⟩) (hh : s.IsTupleFree h)
    (hdeep : ∀ x array, s.shape x = .ok (.promoted array) → s.depth h < s.depth array) :
    s.findSet kind members = .ok (some h) := by
  have hmembers := hs.linked.contains_of_members hslot
  refine (hs.findSet_some_iff hmembers).mpr ⟨?_, fun other hother => ?_⟩
  · exact (hs.fits_members_iff hslot).mpr ⟨⟨members, node_of_slot hslot⟩, rfl, equal_self s h⟩
  · obtain ⟨⟨others, hnode⟩, -, hsame⟩ := (hs.fits_members_iff hslot).mp hother
    obtain ⟨_, hslot'⟩ := exists_slot_of_node hnode
    rw [hs.eq_of_same_shallow hdeep (contains_of_slot hslot') hh hsame]

variable (ht : t.WellFormed) (hst : s.Retains t) (htypes : ∀ p ∈ types, s.IsTupleFree p)
  (hh : s.IsTupleFree h) (hmade : s.IsMadeOf kind types h)
  (hdeep : ∀ x array, t.shape x = .ok (.promoted array) → t.depth h < t.depth array)
include ht hst htypes hh hmade hdeep

/-- A set that was made of types without tuples is found in a later store under what that store
makes of these types. -/
theorem WellFormed.lookup_found {members : List Handle} (htop : kind = .union → .top ∉ types)
    (harranged : t.Arranged (t.flat kind types) members) :
    t.lookup kind members = .ok (some h) := by
  have hmem : ∀ {x}, x ∈ members ↔ x ∈ s.flat kind types := by
    rw [← hst.flat_eq fun p hp => hs.contains_of_tupleFree (htypes p hp)]
    exact ht.mem_arranged_iff
      (fun x => ht.tupleFree_of_flat fun p hp => hst.isTupleFree (htypes p hp)) harranged
  have hnodup := nodup_of_unequal harranged.unequal
  rcases hs.isMadeOf_cases htypes hh hmade with ⟨habsorbed, -⟩ | ⟨hnone, rfl⟩ | honly |
    ⟨others, traits, hslot, hset⟩
  · exact absurd habsorbed.2 (htop habsorbed.1)
  · obtain rfl : members = [] := List.eq_nil_iff_forall_not_mem.mpr fun x hx => by
      simp [hmem, hnone] at hx
    rfl
  · have hperm : [h].Perm members := (List.perm_ext_iff_of_nodup (List.nodup_singleton h)
      hnodup).mpr fun x => by rw [hmem, honly, List.mem_singleton]
    rw [← List.singleton_perm.mp hperm]
    rfl
  · obtain ⟨htwo, hdistinct, -⟩ := hs.gathered.entry hslot
    have hslot' := hst.slots hslot
    have hperm : others.Perm members := (List.perm_ext_iff_of_nodup hdistinct hnodup).mpr
      fun x => by rw [hmem, hset]
    refine ht.lookup_perm (ht.linked.contains_of_members hslot') hperm ?_
    rw [lookup_of_two_le htwo]
    exact ht.findSet_members hslot' (hst.isTupleFree hh) hdeep

/-- Making a set of types without tuples again gives the set that is there, also in a later store as
long as all tuples that were promoted stand for deeper types. -/
theorem WellFormed.make_found : kind.make types t = .ok h t := by
  have hcontains : ∀ p ∈ types, t.contains p := fun p hp =>
    ht.contains_of_tupleFree (hst.isTupleFree (htypes p hp))
  rcases ht.make_run hcontains kind with
    ⟨habsorbed, hrun⟩ | ⟨htop, members, x, u, harranged, hrun, hmakes⟩
  · rcases hmade with ⟨-, rfl⟩ | ⟨htop, -⟩
    · exact hrun
    · exact absurd habsorbed.2 (htop habsorbed.1)
  · obtain ⟨rfl, rfl⟩ :=
      hmakes.again (hs.lookup_found ht hst htypes hh hmade hdeep htop harranged)
    exact hrun

end Found

section Instances

/-- Substitution that forms every type again, also one in which neither a variable nor a tuple
occurs. -/
def rebuildWithin (subst : Substitution) : Nat → Handle → StoreM Handle
  | 0, _ => throw .endless
  | depth + 1, h => do
    let shape ← ask (·.shape h)
    reform subst h shape (← shape.arguments.mapM fun x => rebuildWithin subst depth x)

/-- A substitution by which each variable of a type is not bound or is bound to itself. -/
def IsVacuous (s : Store) (subst : Substitution) (h : Handle) : Prop :=
  ∀ v name bound, s.Occurs h v → s.node v = .ok (.var name) → subst.find? name = some bound →
    bound = v

private theorem mapM_run_self {f : Handle → StoreM Handle} (hself : ∀ x ∈ types, f x s = .ok x s) :
    types.mapM f s = .ok types s := by
  induction types with
  | nil => rfl
  | cons x rest ih =>
    rw [List.mapM_cons, bind_run (hself x List.mem_cons_self),
      bind_run (ih fun y hy => hself y (List.mem_cons_of_mem x hy))]
    rfl

variable (hs : s.WellFormed) (hnone : ∀ x array, s.shape x ≠ .ok (.promoted array))
include hs hnone

/-- A type without tuples that is formed again from its own arguments is found. -/
theorem WellFormed.reform_self (hh : s.IsTupleFree h) (hshape : s.shape h = .ok shape)
    (hvacuous : s.IsVacuous subst h) : reform subst h shape shape.arguments s = .ok h s := by
  have hpart : ∀ x ∈ shape.parts, s.IsTupleFree x := fun x hx =>
    (hs.tupleFree_of_refersTo hh ⟨shape, hshape, hx⟩).1
  have hset : ∀ kind members, shape = SetKind.shape kind members →
      kind.make members s = .ok h s := by
    rintro kind members rfl
    obtain ⟨traits, hslot⟩ : ∃ traits, s.slot? h = some ⟨kind.node members, traits⟩ := by
      cases kind <;> exact slot_of_shape hshape rfl
    have hmembers : ∀ x ∈ members, s.IsTupleFree x := by
      cases kind <;> exact hpart
    exact hs.make_found hs (.refl s) hmembers hh (hs.isMadeOf_members hslot hmembers)
      fun x array hpromoted => absurd hpromoted (hnone x array)
  have hcontains : ∀ x ∈ shape.parts, s.contains x := fun x hx =>
    hs.contains_of_tupleFree (hpart x hx)
  cases shape with
  | var name =>
    obtain ⟨_, hslot⟩ := slot_of_shape hshape rfl
    change (.ok ((subst.find? name).getD h) s : EStateM.Result Error Store Handle) = _
    cases hfind : subst.find? name with
    | none => rfl
    | some bound => rw [hvacuous h name bound (.self h) (node_of_slot hslot) hfind]; rfl
  | generic base params => exact hs.formGeneric_found hshape
  | promoted array => exact absurd hshape (hnone h array)
  | tuple params =>
    obtain ⟨_, hshape', hnode⟩ := hs.shape_of_tupleFree hh
    rw [hshape] at hshape'
    cases hshape'
    cases hnode
  | union members => exact (union_run hcontains).symm.trans (hset .union members rfl)
  | intersection members =>
    exact (intersection_run hcontains).symm.trans (hset .intersection members rfl)
  | annotated label inner => exact hs.formAnnotated_found hshape
  | _ => rfl

/-- One step of substitution gives a type without tuples back if it gives its arguments back. -/
theorem WellFormed.reform_step {f : Handle → StoreM Handle} (hh : s.IsTupleFree h)
    (hvacuous : s.IsVacuous subst h)
    (hf : ∀ x, s.IsTupleFree x → s.IsVacuous subst x → x.index < h.index → f x s = .ok x s) :
    (do let shape ← ask (·.shape h)
        reform subst h shape (← shape.arguments.mapM f) : StoreM Handle) s = .ok h s := by
  obtain ⟨shape, hshape, hsome⟩ := hs.shape_of_tupleFree hh
  obtain ⟨node, hnode⟩ := Option.isSome_iff_exists.mp hsome
  obtain ⟨_, hslot⟩ := slot_of_shape hshape hnode
  have hself : ∀ x ∈ shape.arguments, f x s = .ok x s := by
    intro x hx
    obtain ⟨hxfree, hlt⟩ := hs.tupleFree_of_refersTo hh ⟨shape, hshape, shape.arguments_subset hx⟩
    have hpart : s.HasPart h x :=
      ⟨node, node_of_slot hslot, by rwa [← Shape.arguments_of_node? hnode]⟩
    exact hf x hxfree (fun v name bound hv => hvacuous v name bound (.part hpart hv)) hlt
  rw [bind_run (ask_run hshape), bind_run (mapM_run_self hself)]
  exact hs.reform_self hnone hh hshape hvacuous

private theorem WellFormed.rebuildWithin_self (depth : Nat) (hh : s.IsTupleFree h)
    (hvacuous : s.IsVacuous subst h) (hdepth : h.index < depth) :
    rebuildWithin subst depth h s = .ok h s := by
  induction depth generalizing h with
  | zero => omega
  | succ depth ih =>
    exact hs.reform_step hnone hh hvacuous fun x hx hvacuous' hlt => ih hx hvacuous' (by omega)

private theorem WellFormed.instantiateWithin_self (depth : Nat) (hh : s.IsTupleFree h)
    (hvacuous : s.IsVacuous subst h) (hdepth : h.index < depth) :
    instantiateWithin subst depth h s = .ok h s := by
  induction depth generalizing h with
  | zero => omega
  | succ depth ih =>
    obtain ⟨slot, hslot⟩ := exists_slot (hs.contains_of_tupleFree hh)
    rw [instantiateWithin_succ, bind_run (ask_run (traits_of_slot hslot))]
    split
    · rfl
    · exact hs.reform_step hnone hh hvacuous fun x hx hvacuous' hlt => ih hx hvacuous' (by omega)

end Instances

end Store

/-- In a reachable store without promoted tuples, a type without tuples is its own instance if no
variable of it is bound to another type. The store stays as it is, and nothing else comes out if
also the components without variables are formed again. -/
theorem Reachable.instantiate_vacuous {s : Store} {h : Handle} {subst : Substitution}
    (hs : Reachable s) (hnone : ∀ x, s.isPromoted x ≠ .ok true) (hh : s.IsTupleFree h)
    (hsubst : ∀ x ∈ subst.types, s.contains x) (hvacuous : s.IsVacuous subst h) :
    Store.instantiate h subst s = .ok h s ∧
      Store.rebuildWithin subst (s.size + 1) h s = .ok h s := by
  have hwf := hs.wellFormed
  have hnone' := (Store.Grows.refl s).unpromoted hwf hnone
  have hcontains := hwf.contains_of_tupleFree hh
  have hlt := Store.contains_iff.mp hcontains
  rw [Store.instantiate_run hcontains hsubst]
  exact ⟨hwf.instantiateWithin_self hnone' _ hh hvacuous (by omega),
    hwf.rebuildWithin_self hnone' _ hh hvacuous (by omega)⟩

/-- A class and two variables, the array type of the second, the union of the first variable, that
array type and the class, the union under an annotation, its intersection with the class, and a
fixed tuple. -/
def patternStore : Store :=
  .after [.nominal "Integer", .var "T", .var "U", .array ⟨7⟩, .union [⟨6⟩, ⟨8⟩, ⟨5⟩],
    .annotated "either" ⟨9⟩, .intersection [⟨10⟩, ⟨5⟩], .tuple [⟨5⟩, ⟨5⟩]]

/-- The intersection is given back where one of its variables is bound to itself and the other one
is not bound. -/
theorem patternStore_instantiate_vacuous :
    let subst : Substitution := ⟨[(⟨4, 0⟩, ⟨6⟩)]⟩
    Reachable patternStore ∧ (∀ x, patternStore.isPromoted x ≠ .ok true) ∧
      patternStore.IsTupleFree ⟨11⟩ ∧
      (∀ x ∈ subst.types, patternStore.contains x) ∧
      patternStore.names.find? "T" = some ⟨4, 0⟩ ∧ patternStore.node ⟨6⟩ = .ok (.var ⟨4, 0⟩) ∧
      patternStore.IsVacuous subst ⟨11⟩ ∧
      Store.instantiate ⟨11⟩ subst patternStore = .ok ⟨11⟩ patternStore ∧
      Store.rebuildWithin subst (patternStore.size + 1) ⟨11⟩ patternStore =
        .ok ⟨11⟩ patternStore := by
  intro subst
  have hs : Reachable patternStore := .after (by decide)
  have hnone := hs.wellFormed.unpromoted_of_handles (by decide +kernel)
  have hfree : patternStore.IsTupleFree ⟨11⟩ := by decide +kernel
  have hsubst : ∀ x ∈ subst.types, patternStore.contains x := by decide +kernel
  have hvar : ∀ v ∈ patternStore.handles, patternStore.node v = .ok (.var ⟨4, 0⟩) → v = ⟨6⟩ := by
    decide +kernel
  have hvacuous : patternStore.IsVacuous subst ⟨11⟩ := by
    intro v name bound _ hnode hfind
    obtain ⟨rfl, rfl⟩ : ⟨4, 0⟩ = name ∧ ⟨6⟩ = bound := by
      simpa [subst, Substitution.find?] using hfind
    obtain ⟨_, hslot⟩ := Store.exists_slot_of_node hnode
    exact (hvar v (Store.mem_handles.mpr (Store.contains_of_slot hslot)) hnode).symm
  exact ⟨hs, hnone, hfree, hsubst, by decide +kernel, by decide +kernel,
    hvacuous, Reachable.instantiate_vacuous hs hnone hfree hsubst hvacuous⟩

end GradualTypes
