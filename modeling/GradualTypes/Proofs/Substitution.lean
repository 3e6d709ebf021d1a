import GradualTypes.Store.Substitution
import GradualTypes.Proofs.Formation

/-!
Substitution comes to an end. It goes down the type as it stood at the start: what it forms on the
way are new types, and the types that were there keep their shapes. A type that is not inert is
formed again from the instances of its arguments, so whatever is to be shown of instances is shown
of one such step.
-/

namespace GradualTypes

/-- The components of a type in which its variables are replaced: all but the base of a generic
type. -/
def Shape.arguments : Shape → List Handle
  | .generic _ params => params
  | shape => shape.parts

theorem Shape.arguments_subset (shape : Shape) : shape.arguments ⊆ shape.parts := by
  cases shape with
  | generic base params => exact List.subset_cons_self base params
  | _ => exact List.Subset.refl _

namespace Store

variable {s t : Store} {subst : Substitution} {h : Handle} {shape : Shape} {types : List Handle}

theorem find?_mem_types {name : Name} (hfind : subst.find? name = some h) : h ∈ subst.types := by
  obtain ⟨binding, hbinding, rfl⟩ := Option.map_eq_some_iff.mp hfind
  exact List.mem_map.mpr ⟨binding, List.mem_of_find?_eq_some hbinding, rfl⟩

/-- Substitution leaves a type as it is when neither a variable nor a tuple occurs in it. -/
def IsInert (s : Store) (h : Handle) : Prop :=
  ∃ traits, s.traits h = .ok traits ∧ traits.isInert = true

/-- Forms a type of a given shape again, from the instances of its arguments. -/
def reform (subst : Substitution) (h : Handle) (shape : Shape) (types : List Handle) :
    StoreM Handle :=
  match shape with
  | .var name => return (subst.find? name).getD h
  | .generic base _ => formGeneric base types
  | .promoted _ => return types.headD h
  | .tuple _ => formTuple types
  | .union _ => formUnion types
  | .intersection _ => formIntersection types
  | .annotated label _ => formAnnotated label (types.headD h)
  | .top | .nil | .wildcard | .nominal _ | .symbol _ => return h

/-- One step of substitution. -/
theorem instantiateWithin_succ (subst : Substitution) (depth : Nat) (h : Handle) :
    instantiateWithin subst (depth + 1) h = (do
      if (← ask (·.traits h)).isInert then return h
      else
        let shape ← ask (·.shape h)
        reform subst h shape
          (← shape.arguments.mapM fun x => instantiateWithin subst depth x)) := by
  rw [instantiateWithin]
  congr 1
  funext traits
  congr 2
  funext shape
  cases shape <;> simp [reform, Shape.arguments, Shape.parts]

section Reform

variable (hs : s.WellFormed) (hst : s.Grows t)
include hs hst

theorem formGeneric_again {base : Handle} {params : List Handle}
    (hshape : s.shape h = .ok (.generic base params)) (htypes : ∀ x ∈ types, t.contains x) :
    Returns (formGeneric base types) t (Formed t (.generic base types)) := by
  obtain ⟨_, hslot⟩ := slot_of_shape hshape rfl
  obtain ⟨name, hname⟩ := hs.linked.base_nominal hslot
  exact formGeneric_returns (hst.wellFormed hs) ⟨name, hst.node_eq hname⟩ htypes

theorem formAnnotated_again {label : Name} {inner x : Handle}
    (hshape : s.shape h = .ok (.annotated label inner)) (hx : t.contains x) :
    Returns (formAnnotated label x) t (Formed t (.annotated label x)) := by
  obtain ⟨_, hslot⟩ := slot_of_shape hshape rfl
  have hlabel := hs.named hslot rfl
  rw [← hst.names_eq] at hlabel
  exact formAnnotated_returns (hst.wellFormed hs) hlabel hx

/-- Any type can be formed again from types of the store. -/
theorem reform_returns (hshape : s.shape h = .ok shape)
    (hsubst : ∀ x ∈ subst.types, s.contains x) (htypes : ∀ x ∈ types, t.contains x) :
    Returns (reform subst h shape types) t fun x u => t.Grows u ∧ u.contains x := by
  have ht := hst.wellFormed hs
  have hh := hst.contains (Linked.contains_of_shape hshape)
  have hself : Returns (pure h) t fun x u => t.Grows u ∧ u.contains x := .pure ⟨.refl t, hh⟩
  have hhead : t.contains (types.headD h) := by
    cases types with
    | nil => exact hh
    | cons x _ => exact htypes x List.mem_cons_self
  cases shape with
  | var name =>
    refine .pure ⟨.refl t, ?_⟩
    cases hfind : subst.find? name with
    | none => exact hh
    | some x => exact hst.contains (hsubst x (find?_mem_types hfind))
  | generic base params =>
    exact (formGeneric_again hs hst hshape htypes).mono fun x u hformed =>
      ⟨hformed.grows, hformed.contains⟩
  | promoted array => exact .pure ⟨.refl t, hhead⟩
  | tuple params =>
    refine (formTuple_returns ht htypes).mono ?_
    rintro x u ⟨-, digest, hformed⟩
    exact ⟨hformed.grows, hformed.contains⟩
  | union members =>
    refine (formUnion_returns ht htypes).mono ?_
    rintro x u ⟨parts, hparts, hset⟩
    exact ⟨hset.grows, hset.contains ht.linked (contains_of_setPart ht.linked htypes hparts)⟩
  | intersection members =>
    refine (formIntersection_returns ht htypes).mono ?_
    rintro x u ⟨parts, hparts, hset⟩
    exact ⟨hset.grows, hset.contains ht.linked (contains_of_setPart ht.linked htypes hparts)⟩
  | annotated label inner =>
    exact (formAnnotated_again hs hst hshape hhead).mono fun x u hformed =>
      ⟨hformed.grows, hformed.contains⟩
  | _ => exact hself

end Reform

def GrowsKeeping (clean : Store → Prop) (s t : Store) : Prop :=
  s.Grows t ∧ (clean s → clean t)

instance (clean : Store → Prop) : IsPreorder Store (GrowsKeeping clean) where
  refl s := ⟨.refl s, id⟩
  trans _ _ _ hst htu := ⟨hst.1.trans htu.1, htu.2 ∘ hst.2⟩

/-- What holds of instances and of the store: whatever holds of inert types, is handed on when a
type is formed again from the instances of its arguments, and goes on to hold while the store grows.
What is to hold of the store is kept by forming types again, so it may be used there. -/
theorem instantiateWithin_invariant {good : Nat → Handle → Handle → Store → Prop}
    {clean : Store → Prop} (hs : s.WellFormed) (hsubst : ∀ x ∈ subst.types, s.contains x)
    (hkeep : ∀ {depth x y t u}, s.Grows t → t.Grows u → s.contains x → good depth x y t →
      good depth x y u)
    (hinert : ∀ {depth x t}, s.Grows t → s.contains x → s.rank x < depth → s.IsInert x →
      good depth x x t)
    (hreform : ∀ {depth x shape types y t u}, s.Grows t → clean t → s.shape x = .ok shape →
      (∀ z ∈ types, t.contains z) → List.Forall₂ (good depth · · t) shape.arguments types →
      reform subst x shape types t = .ok y u → t.Grows u → u.contains y →
        clean u ∧ good (depth + 1) x y u)
    (depth : Nat) (hst : s.Grows t) (hclean : clean t) (hh : s.contains h)
    (hdepth : s.rank h < depth) :
    Returns (instantiateWithin subst depth h) t fun x u =>
      t.Grows u ∧ clean u ∧ u.contains x ∧ good depth h x u := by
  induction depth generalizing t h with
  | zero => omega
  | succ depth ih =>
    obtain ⟨⟨node, traits⟩, hslot⟩ := exists_slot hh
    obtain ⟨shape, hshape⟩ := hs.linked.exists_shape hh
    rw [instantiateWithin_succ]
    refine .ask_bind (traits_of_slot (hst.slots hslot)) ?_
    split
    next hnone =>
      have htraits : s.IsInert h := ⟨traits, traits_of_slot hslot, hnone⟩
      exact .pure ⟨.refl t, hclean, hst.contains hh, hinert hst hh hdepth htraits⟩
    next =>
      refine .ask_bind (hst.shape_eq hshape) ?_
      -- an argument is substituted in whatever the store has become by then
      have harguments : Returns (shape.arguments.mapM fun x => instantiateWithin subst depth x) t
          fun types u => GrowsKeeping clean t u ∧
            List.Forall₂ (fun x y => u.contains y ∧ good depth x y u) shape.arguments types := by
        refine .mapM (fun x hx y u v htu huv hy => ?_) fun x hx u htu => ?_
        · have hcontains := (hs.descends hshape (shape.arguments_subset hx)).1
          exact ⟨huv.1.contains hy.1, hkeep (hst.trans htu.1) huv.1 hcontains hy.2⟩
        · obtain ⟨hcontains, hlt⟩ := hs.descends hshape (shape.arguments_subset hx)
          refine (ih (hst.trans htu.1) (htu.2 hclean) hcontains (by omega)).mono ?_
          exact fun y v ⟨huv, hv, hy⟩ => ⟨⟨huv, fun _ => hv⟩, hy⟩
      refine harguments.bind ?_
      rintro types u ⟨⟨htu, hu⟩, htypes⟩
      have hsu := hst.trans htu
      have hcontains : ∀ y ∈ types, u.contains y := by
        intro y hy
        obtain ⟨x, -, hx, -⟩ := exists_mem_of_forall₂ htypes.flip hy
        exact hx
      obtain ⟨x, v, hrun, huv, hx⟩ := reform_returns hs hsu hshape hsubst hcontains
      obtain ⟨hv, hgood⟩ := hreform hsu (hu hclean) hshape hcontains
        (htypes.imp fun _ _ hy => hy.2) hrun huv hx
      exact ⟨x, v, hrun, htu.trans huv, hv, hx, hgood⟩

/-- What holds of instances alone. -/
theorem instantiateWithin_rule {good : Nat → Handle → Handle → Store → Prop} (hs : s.WellFormed)
    (hsubst : ∀ x ∈ subst.types, s.contains x)
    (hkeep : ∀ {depth x y t u}, s.Grows t → t.Grows u → s.contains x → good depth x y t →
      good depth x y u)
    (hinert : ∀ {depth x t}, s.Grows t → s.contains x → s.rank x < depth → s.IsInert x →
      good depth x x t)
    (hreform : ∀ {depth x shape types y t u}, s.Grows t → s.shape x = .ok shape →
      (∀ z ∈ types, t.contains z) → List.Forall₂ (good depth · · t) shape.arguments types →
      reform subst x shape types t = .ok y u → t.Grows u → u.contains y → good (depth + 1) x y u)
    (depth : Nat) (hst : s.Grows t) (hh : s.contains h) (hdepth : s.rank h < depth) :
    Returns (instantiateWithin subst depth h) t fun x u =>
      t.Grows u ∧ u.contains x ∧ good depth h x u := by
  refine (@instantiateWithin_invariant s t subst h good (fun _ => True) hs hsubst hkeep hinert ?_
    depth hst trivial hh hdepth).mono fun x u hpost => ⟨hpost.1, hpost.2.2⟩
  exact fun hst _ hshape hvalid hgood hrun htu hy =>
    ⟨trivial, hreform hst hshape hvalid hgood hrun htu hy⟩

/-- What substitution in a type does from any later stage of the store. -/
theorem instantiateWithin_returns (hs : s.WellFormed) (hsubst : ∀ x ∈ subst.types, s.contains x)
    (depth : Nat) (hst : s.Grows t) (hh : s.contains h) (hdepth : s.rank h < depth) :
    Returns (instantiateWithin subst depth h) t fun x u => t.Grows u ∧ u.contains x := by
  have hrule := @instantiateWithin_rule s t subst h (fun _ _ _ _ => True) hs hsubst
    (fun _ _ _ _ => trivial) (fun _ _ _ _ => trivial) (fun _ _ _ _ _ _ _ => trivial)
  exact (hrule depth hst hh hdepth).mono fun _ _ hpost => ⟨hpost.1, hpost.2.1⟩

/-- Any type of the store can be instantiated by types of the store. -/
theorem instantiate_returns (hs : s.WellFormed) (hh : s.contains h)
    (hsubst : ∀ x ∈ subst.types, s.contains x) :
    Returns (instantiate h subst) s fun x t => s.Grows t ∧ t.contains x := by
  have hrank := hs.linked.rank_le_size h
  exact .ask_bind (checkParam_eq_ok_iff.mpr hh) (.ask_bind (checkParamsFrom_eq_ok_iff.mpr hsubst)
    (.step rfl (instantiateWithin_returns hs hsubst _ (.refl s) hh (by omega))))

end Store

end GradualTypes
