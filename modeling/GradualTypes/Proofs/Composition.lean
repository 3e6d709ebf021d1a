import GradualTypes.Proofs.Delegation
import GradualTypes.Proofs.Views

/-!
Substitutions one after the other. Substitution acts on views: the view of an instance is that of
the type with outlines in the place of variables, where every set is made again. To substitute in a
normal outline twice is to substitute once in it what the second substitution makes of the first,
because a set can be made before or after a substitution in its members. So for types in which no
promoted tuple occurs two substitutions do the same as one that is composed of them.
-/

namespace GradualTypes

namespace Outline

variable {bound first second : String → Option Outline} {o p : Outline} {os : List Outline}
  {kind : SetKind}

section Substitution

mutual

/-- An outline with outlines in the place of variables. Sets are made again. -/
def substitute (bound : String → Option Outline) : Outline → Outline
  | ⟨.var, label, parts⟩ => (bound label).getD ⟨.var, label, parts⟩
  | ⟨.union, _, parts⟩ => make .union (substituteAll bound parts)
  | ⟨.intersection, _, parts⟩ => make .intersection (substituteAll bound parts)
  | ⟨kind, label, parts⟩ => ⟨kind, label, substituteAll bound parts⟩

def substituteAll (bound : String → Option Outline) : List Outline → List Outline
  | [] => []
  | o :: os => substitute bound o :: substituteAll bound os

end

private theorem substituteAll_eq (bound : String → Option Outline) (os : List Outline) :
    substituteAll bound os = os.map (substitute bound) := by
  induction os with
  | nil => rfl
  | cons o os ih => rw [substituteAll, ih, List.map_cons]

private theorem substitute_var (bound : String → Option Outline) (label : String)
    (parts : List Outline) :
    substitute bound ⟨.var, label, parts⟩ = (bound label).getD ⟨.var, label, parts⟩ := by
  rw [substitute]

private theorem substitute_set (bound : String → Option Outline) (kind : SetKind) (label : String)
    (parts : List Outline) :
    substitute bound ⟨kind.kind, label, parts⟩ = make kind (parts.map (substitute bound)) := by
  cases kind <;> rw [SetKind.kind, substitute, substituteAll_eq]

private theorem substitute_of_ne {k : Kind} {label : String} {parts : List Outline}
    (hvar : k ≠ .var) (hset : ∀ kind : SetKind, k ≠ kind.kind) :
    substitute bound ⟨k, label, parts⟩ = ⟨k, label, parts.map (substitute bound)⟩ := by
  rw [substitute, substituteAll_eq]
  · exact fun h => hvar h
  · exact fun h => hset .union h
  · exact fun h => hset .intersection h

private theorem substitute_leaf {k : Kind} (hleaf : k.isLeaf) (hvar : k ≠ .var) (label : String) :
    substitute bound ⟨k, label, []⟩ = ⟨k, label, []⟩ :=
  substitute_of_ne hvar fun kind => by rintro rfl; cases kind <;> cases hleaf

private theorem substitute_list {k : Kind} (hkind : k = .generic ∨ k = .tuple) (label : String)
    (parts : List Outline) :
    substitute bound ⟨k, label, parts⟩ = ⟨k, label, parts.map (substitute bound)⟩ := by
  apply substitute_of_ne
  · rcases hkind with rfl | rfl <;> decide
  · rintro (_ | _) <;> rcases hkind with rfl | rfl <;> decide

private theorem substitute_annotated (bound : String → Option Outline) (label : String)
    (inner : Outline) :
    substitute bound ⟨.annotated, label, [inner]⟩ = ⟨.annotated, label, [inner.substitute bound]⟩ :=
  substitute_of_ne (by decide) fun kind => by cases kind <;> decide

private theorem substitute_nil (bound : String → Option Outline) : nil.substitute bound = nil :=
  substitute_leaf rfl (by decide) ""

private theorem substitute_top (bound : String → Option Outline) : top.substitute bound = top :=
  substitute_leaf rfl (by decide) ""

/-- Nil contributes nothing to a set, and nothing takes its place. -/
private theorem make_substitute_filter (os : List Outline) :
    make kind ((os.filter (· ≠ nil)).map (substitute bound)) =
      make kind (os.map (substitute bound)) := by
  have hmem : ∀ {P : Outline → Prop}, ¬ P nil →
      ((∃ o ∈ (os.filter (· ≠ nil)).map (substitute bound), P o) ↔
        ∃ o ∈ os.map (substitute bound), P o) := by
    intro P hnil
    simp only [List.mem_map, List.mem_filter, decide_eq_true_eq, exists_exists_and_eq_and]
    refine exists_congr fun o => and_congr_left fun ho => and_iff_left ?_
    rintro rfl
    exact hnil (substitute_nil bound ▸ ho)
  apply make_congr_flat
  · intro _
    have htop := hmem (P := (· = top)) (by decide)
    simpa only [exists_eq_right] using htop
  · intro p
    rw [mem_flat, mem_flat]
    apply hmem
    rw [spread_of_ne (by cases kind <;> decide), List.mem_singleton]
    exact fun h => h.2 h.1

end Substitution

section Normal

variable (hbound : ∀ label o, bound label = some o → o.IsNormal)
include hbound

/-- Normal outlines stay normal when normal ones take the place of variables. -/
theorem IsNormal.substitute (ho : o.IsNormal) : (o.substitute bound).IsNormal := by
  induction ho with
  | @leaf kind label hleaf =>
    by_cases hvar : kind = .var
    · subst hvar
      rw [substitute_var]
      cases hfound : bound label with
      | none => exact .leaf rfl
      | some o => exact hbound label o hfound
    · rw [substitute_leaf hleaf hvar]
      exact .leaf hleaf
  | list hkind _ ih =>
    rw [substitute_list hkind]
    exact .list hkind (List.forall_mem_map.mpr ih)
  | annotated _ ih =>
    rw [substitute_annotated]
    exact .annotated ih
  | set _ _ _ _ ih =>
    rw [substitute_set]
    exact make_normal (List.forall_mem_map.mpr ih) _

/-- Substituting in a normal outline makes of it a set of what it contributes. -/
private theorem IsNormal.substitute_spread (ho : o.IsNormal) (kind : SetKind) :
    o.substitute bound = make kind ((o.spread kind).map (Outline.substitute bound)) := by
  by_cases hkind : o.kind = kind.kind
  · obtain ⟨parts, rfl, -⟩ := ho.exists_members hkind
    rw [substitute_set, spread, if_pos rfl]
  · rw [spread_of_ne hkind, List.map_singleton, (ho.substitute hbound).make_singleton]

/-- A set with given members is made before or after a substitution. -/
private theorem substitute_ofMembers (hos : ∀ o ∈ os, o.IsNormal) :
    (ofMembers kind os).substitute bound = make kind (os.map (Outline.substitute bound)) := by
  rcases os with _ | ⟨x, _ | ⟨y, rest⟩⟩
  · exact (substitute_nil bound).trans (by cases kind <;> rfl)
  · exact (((hos x List.mem_cons_self).substitute hbound).make_singleton kind).symm
  · rw [ofMembers_of_two_le (by simp), substitute_set]

/-- A set of normal outlines is made before or after a substitution. -/
theorem substitute_make (hos : ∀ o ∈ os, o.IsNormal) :
    (make kind os).substitute bound = make kind (os.map (Outline.substitute bound)) := by
  by_cases htop : kind = .union ∧ top ∈ os
  · have hmem : top ∈ os.map (Outline.substitute bound) :=
      List.mem_map.mpr ⟨top, htop.2, substitute_top bound⟩
    rw [make, if_pos htop, substitute_top, make, if_pos ⟨htop.1, hmem⟩]
  have hgather : ∀ p ∈ gather kind os, p.IsNormal := fun p hp =>
    normal_of_flat hos (mem_gather.mp hp)
  calc (make kind os).substitute bound
      = (ofMembers kind (gather kind os)).substitute bound := by rw [make, if_neg htop]
    _ = make kind ((gather kind os).map (Outline.substitute bound)) :=
        substitute_ofMembers hbound hgather
    _ = make kind ((flat kind os).map (Outline.substitute bound)) := by
        apply make_congr
        simp only [List.mem_map, mem_gather, implies_true]
    _ = make kind ((os.flatMap (spread kind)).map (Outline.substitute bound)) :=
        make_substitute_filter _
    _ = make kind (os.map fun o => make kind ((o.spread kind).map (Outline.substitute bound))) := by
        rw [List.map_flatMap, make_flatMap]
        intro o ho p hp
        obtain ⟨x, hx, rfl⟩ := List.mem_map.mp hp
        exact ((hos o ho).of_spread hx).1.substitute hbound
    _ = make kind (os.map (Outline.substitute bound)) := by
        congr 1
        apply List.map_congr_left
        exact fun o ho => ((hos o ho).substitute_spread hbound kind).symm

end Normal

def compose (first second : String → Option Outline) (label : String) : Option Outline :=
  ((first label).map (substitute second)).or (second label)

/-- Two substitutions in a normal outline do the same as the one that is composed of them. -/
theorem IsNormal.substitute_compose (ho : o.IsNormal)
    (hfirst : ∀ label o, first label = some o → o.IsNormal)
    (hsecond : ∀ label o, second label = some o → o.IsNormal) :
    (o.substitute first).substitute second = o.substitute (compose first second) := by
  induction ho with
  | @leaf kind label hleaf =>
    by_cases hvar : kind = .var
    · subst hvar
      rw [substitute_var, substitute_var, compose]
      cases hfound : first label with
      | none => exact substitute_var second label []
      | some o => rfl
    · rw [substitute_leaf hleaf hvar, substitute_leaf hleaf hvar, substitute_leaf hleaf hvar]
  | list hkind _ ih =>
    rw [substitute_list hkind, substitute_list hkind, substitute_list hkind, List.map_map]
    congr 1
    exact List.map_congr_left ih
  | annotated _ ih => rw [substitute_annotated, substitute_annotated, substitute_annotated, ih]
  | @set kind parts _ _ _ hparts ih =>
    have hnormal : ∀ p ∈ parts.map (Outline.substitute first), p.IsNormal :=
      List.forall_mem_map.mpr fun p hp => (hparts p hp).substitute hfirst
    rw [substitute_set, substitute_set, substitute_make hsecond hnormal, List.map_map]
    congr 1
    exact List.map_congr_left ih

end Outline

namespace Store

variable {s t : Store} {subst first second both : Substitution} {h r : Handle} {depth : Nat}

def bound (s : Store) (subst : Substitution) (text : String) : Option Outline :=
  ((s.names.find? text).bind subst.find?).map s.view

section Views

private theorem WellFormed.bound_of_text {name : Name} {text : String} (hs : s.WellFormed)
    (htext : s.names.text? name = some text) :
    s.bound subst text = (subst.find? name).map s.view := by
  rw [bound, hs.orderly.find?_eq_some_iff.mpr htext]
  rfl

private theorem Grows.bound_eq (hst : s.Grows t) (hs : s.WellFormed)
    (hsubst : ∀ x ∈ subst.types, s.contains x) : t.bound subst = s.bound subst := by
  funext text
  rw [bound, bound, hst.names_eq]
  cases hfound : (s.names.find? text).bind subst.find? with
  | none => rfl
  | some x =>
    obtain ⟨name, -, hname⟩ := Option.bind_eq_some_iff.mp hfound
    exact congrArg some (hst.view_eq hs (hsubst x (find?_mem_types hname)))

private theorem normal_of_bound (hsubst : ∀ x ∈ subst.types, (s.view x).IsNormal) (text : String)
    (o : Outline) (hbound : s.bound subst text = some o) : o.IsNormal := by
  obtain ⟨x, hx, rfl⟩ := Option.map_eq_some_iff.mp hbound
  obtain ⟨name, -, hname⟩ := Option.bind_eq_some_iff.mp hx
  exact hsubst x (find?_mem_types hname)

/-- The view of a set that is formed again is made of the views of the instances of its members. -/
theorem WellFormed.view_of_set_instance (hs : s.WellFormed) (kind : SetKind)
    {members types : List Handle} (hshape : s.shape h = .ok (kind.shape members))
    (htypes : ∀ x ∈ types, s.contains x) (hviews : types.map s.view =
      (members.map s.view).map (Outline.substitute (s.bound subst)))
    (hmade : s.IsMadeOf kind types r) : s.view r = (s.view h).substitute (s.bound subst) := by
  obtain ⟨traits, hslot⟩ : ∃ traits, s.slot? h = some ⟨kind.node members, traits⟩ := by
    cases kind <;> exact slot_of_shape hshape rfl
  rw [hs.view_set hslot, Outline.substitute_set, hs.view_of_isMadeOf htypes hmade, hviews]
  apply Outline.make_congr
  intro o
  simp only [List.mem_map, Outline.mem_collect]

/-- The view of an instance is that of the type with outlines in the place of variables. -/
theorem WellFormed.view_of_instance (hs : s.WellFormed) (hr : s.InstanceWithin subst depth h r) :
    s.view r = (s.view h).substitute (s.bound subst) := by
  induction depth generalizing h r with
  | zero => exact hr.elim
  | succ depth ih =>
    obtain ⟨-, shape, types, hshape, harguments, hby⟩ := hr
    have htypes := contains_of_instances harguments
    have hviews : types.map s.view =
        (shape.arguments.map s.view).map (Outline.substitute (s.bound subst)) := by
      rw [List.map_map, eq_comm, ← List.forall₂_eq_eq_eq, List.forall₂_map_left_iff,
        List.forall₂_map_right_iff]
      exact harguments.imp fun x y hxy => (ih hxy).symm
    have hleaf : ∀ {x : Handle} {slot : Slot}, s.slot? x = some slot → slot.node.kind.isLeaf →
        slot.node.kind ≠ .var → s.view x = (s.view x).substitute (s.bound subst) := by
      intro x slot hslot hleaf hvar
      rw [hs.view_leaf hslot hleaf, Outline.substitute_leaf hleaf hvar]
    cases shape with
    | var name =>
      obtain ⟨traits, hslot⟩ := slot_of_shape hshape rfl
      obtain ⟨text, htext⟩ := hs.named hslot rfl
      have hview : s.view h = ⟨.var, text, []⟩ := by
        rw [hs.view_leaf hslot rfl, label_of_text rfl htext]
        rfl
      rw [show r = (subst.find? name).getD h from hby, hview, Outline.substitute_var,
        hs.bound_of_text htext]
      cases subst.find? name with
      | none => exact hview
      | some x => rfl
    | generic base params =>
      obtain ⟨traits, hslot⟩ := slot_of_shape hshape rfl
      obtain ⟨name, hname⟩ := hs.linked.base_nominal hslot
      obtain ⟨traits', hbase⟩ := exists_slot_of_node hname
      rw [hs.view_generic hby, hs.view_generic hshape, Outline.substitute_list (.inl rfl), hviews,
        List.map_cons, ← hleaf hbase rfl (by simp [Node.kind])]
      rfl
    | promoted array =>
      rw [show types = [r] from hby] at hviews
      rw [hs.view_promoted hshape]
      exact List.singleton_inj.mp hviews
    | tuple params =>
      rw [hs.view_tuple hby, hs.view_tuple hshape, Outline.substitute_list (.inr rfl), hviews]
      rfl
    | union members => exact hs.view_of_set_instance .union hshape htypes hviews hby
    | intersection members =>
      exact hs.view_of_set_instance .intersection hshape htypes hviews hby
    | annotated name inner =>
      obtain ⟨inner', rfl, hshape'⟩ := hby
      obtain ⟨traits, hslot⟩ := slot_of_shape hshape rfl
      obtain ⟨text, htext⟩ := hs.named hslot rfl
      rw [hs.view_annotated hshape' htext, hs.view_annotated hshape htext,
        Outline.substitute_annotated]
      congr 1
    | _ =>
      obtain ⟨traits, hslot⟩ := slot_of_shape hshape rfl
      rw [show r = h from hby]
      exact hleaf hslot rfl (by simp [Node.kind])

/-- What substitution in a type shows. -/
theorem WellFormed.instantiate_view (hs : s.WellFormed) (hh : s.contains h)
    (hsubst : ∀ x ∈ subst.types, s.contains x) :
    Returns (instantiate h subst) s fun r t =>
      s.Grows t ∧ t.contains r ∧ t.view r = (s.view h).substitute (s.bound subst) := by
  have hrank := hs.linked.rank_le_size h
  rw [Returns, instantiate_run hh hsubst]
  refine (instantiateWithin_instance hs hsubst (s.size + 1) hh (by omega)).mono ?_
  rintro r t ⟨hst, hr⟩
  have hview := (hst.wellFormed hs).view_of_instance hr
  rw [hst.view_eq hs hh, hst.bound_eq hs hsubst] at hview
  exact ⟨hst, hr.contains, hview⟩

end Views

end Store

namespace Substitution

/-- The substitution that is composed of two. What the first binds is instantiated by the second,
and all other variables are bound as by the second. -/
def compose (first second : Substitution) : StoreM Substitution := do
  let bindings ← first.bindings.mapM fun binding =>
    return (binding.1, ← Store.instantiate binding.2 second)
  return ⟨bindings ++ second.bindings.filter fun binding => (first.find? binding.1).isNone⟩

end Substitution

namespace Store

section Composition

/-- Bindings of the same variables in the same order are found alike. -/
private theorem find?_of_bindings {α : Type} {f g : Handle → α}
    {bindings bindings' : List (Name × Handle)}
    (hall : List.Forall₂ (fun b b' => b'.1 = b.1 ∧ g b'.2 = f b.2) bindings bindings')
    (name : Name) :
    (Substitution.find? ⟨bindings'⟩ name).map g = (Substitution.find? ⟨bindings⟩ name).map f := by
  induction hall with
  | nil => rfl
  | @cons b b' _ _ hb _ ih =>
    simp only [Substitution.find?, List.find?_cons, hb.1] at ih ⊢
    cases hname : decide (b.1 = name) with
    | false => exact ih
    | true => exact congrArg some hb.2

/-- A composed substitution finds what the first of the two finds, and otherwise what the second
does. -/
private theorem find?_append_filter (first second : Substitution) {bindings : List (Name × Handle)}
    {name : Name}
    (hdomain : (Substitution.find? ⟨bindings⟩ name).isSome = (first.find? name).isSome) :
    Substitution.find? ⟨bindings ++ second.bindings.filter fun binding =>
      (first.find? binding.1).isNone⟩ name =
        (Substitution.find? ⟨bindings⟩ name).or (second.find? name) := by
  have happend : ∀ others : List (Name × Handle), Substitution.find? ⟨bindings ++ others⟩ name =
      (Substitution.find? ⟨bindings⟩ name).or (Substitution.find? ⟨others⟩ name) := by
    intro others
    simp only [Substitution.find?, List.find?_append, Option.map_or]
  rw [happend]
  cases hfound : Substitution.find? ⟨bindings⟩ name with
  | some x => rfl
  | none =>
    have hnone : first.find? name = none := by simpa [hfound] using hdomain.symm
    have hothers : (second.bindings.filter fun binding => (first.find? binding.1).isNone).find?
        (fun binding => binding.1 = name) =
          second.bindings.find? (fun binding => binding.1 = name) := by
      rw [List.find?_filter]
      congr 1
      funext binding
      by_cases hname : binding.1 = name <;> simp [hname, hnone]
    rw [Option.none_or, Option.none_or, Substitution.find?, hothers]
    rfl

variable {s t : Store} {first second both : Substitution} {h : Handle} (hs : s.WellFormed)
  (hfirst : ∀ x ∈ first.types, s.contains x) (hsecond : ∀ x ∈ second.types, s.contains x)
include hs hfirst hsecond

/-- What the first of two substitutions binds can be instantiated by the second. -/
theorem WellFormed.instantiate_bindings :
    Returns (first.bindings.mapM fun binding =>
        return (binding.1, ← Store.instantiate binding.2 second)) s fun bindings t =>
      s.Grows t ∧ List.Forall₂ (fun b b' => b'.1 = b.1 ∧ t.contains b'.2 ∧
        t.view b'.2 = (s.view b.2).substitute (s.bound second)) first.bindings bindings := by
  refine .mapM (fun b hb b' t u hst htu hgood => ?_) fun b hb t hst => ?_
  · obtain ⟨hname, hcontains, hview⟩ := hgood
    refine ⟨hname, htu.contains hcontains, ?_⟩
    rw [htu.view_eq (hst.wellFormed hs) hcontains, hview]
  · have hb := hfirst b.2 (List.mem_map_of_mem hb)
    refine ((hst.wellFormed hs).instantiate_view (hst.contains hb) fun x hx =>
      hst.contains (hsecond x hx)).bind fun r u ⟨htu, hr, hview⟩ => .pure ⟨htu, rfl, hr, ?_⟩
    rw [hview, hst.view_eq hs hb, hst.bound_eq hs hsecond]

/-- Two substitutions can be composed, and what the result binds is composed in views. -/
theorem WellFormed.compose_returns :
    Returns (first.compose second) s fun both t => s.Grows t ∧ (∀ x ∈ both.types, t.contains x) ∧
      t.bound both = Outline.compose (s.bound first) (s.bound second) := by
  refine (hs.instantiate_bindings hfirst hsecond).bind ?_
  rintro bindings t ⟨hst, hall⟩
  refine .pure ⟨hst, fun x hx => ?_, ?_⟩
  · obtain ⟨binding, hbinding, rfl⟩ := List.mem_map.mp hx
    rcases List.mem_append.mp hbinding with hnew | hold
    · obtain ⟨b, -, -, hcontains, -⟩ := exists_mem_of_forall₂ hall.flip hnew
      exact hcontains
    · exact hst.contains (hsecond _ (List.mem_map_of_mem (List.mem_of_mem_filter hold)))
  · funext text
    rw [Outline.compose, ← hst.bound_eq hs hsecond, bound, bound, bound, hst.names_eq]
    cases s.names.find? text with
    | none => rfl
    | some name =>
      have hviews : (Substitution.find? ⟨bindings⟩ name).map t.view = (first.find? name).map
          fun x => (s.view x).substitute (t.bound second) := by
        apply find?_of_bindings
        rw [hst.bound_eq hs hsecond]
        exact hall.imp fun b b' hb => ⟨hb.1, hb.2.2⟩
      have hdomain := congrArg Option.isSome hviews
      rw [Option.isSome_map, Option.isSome_map] at hdomain
      rw [Option.bind_some, find?_append_filter first second hdomain, Option.map_or, hviews,
        Option.bind_some, Option.map_map, Option.bind_some]
      rfl

end Composition

end Store

/-- The instances of a type by two substitutions one after the other, and by the one that is
composed of them. -/
def Store.bothInstances (h : Handle) (first second : Substitution) : StoreM (Handle × Handle) := do
  let left ← instantiate (← instantiate h first) second
  let right ← instantiate h (← first.compose second)
  return (left, right)

open Store in
/-- Where no promoted tuple occurs, instantiating a type by two substitutions one after the other
gives a type that is equal to its instance by the substitution that is composed of them. It shows
the type with views put in the place of variables twice. -/
theorem Reachable.instantiate_compose {s : Store} {h : Handle} {first second : Substitution}
    (hs : Reachable s) (hvalid : ∀ x ∈ h :: (first.types ++ second.types), s.contains x)
    (hfixed : ∀ x ∈ h :: (first.types ++ second.types), s.IsUnpromoted x) :
    Returns (bothInstances h first second) s fun (left, right) t =>
      t.equal left right = .ok true ∧
        t.view left = ((s.view h).substitute (s.bound first)).substitute (s.bound second) := by
  have hwf := hs.wellFormed
  have hh := hvalid h List.mem_cons_self
  have hfirst : ∀ x ∈ first.types, s.contains x := fun x hx => hvalid x (by simp [hx])
  have hsecond : ∀ x ∈ second.types, s.contains x := fun x hx => hvalid x (by simp [hx])
  -- the four runs, each from the store that the one before left
  refine (hwf.instantiate_view hh hfirst).bind fun once t ⟨hst, honce, hview⟩ => ?_
  have ht := hst.wellFormed hwf
  refine (ht.instantiate_view honce fun x hx => hst.contains (hsecond x hx)).bind
    fun left u ⟨htu, hleft, hview'⟩ => ?_
  have hu := htu.wellFormed ht
  have hsu := hst.trans htu
  refine (hu.compose_returns (fun x hx => hsu.contains (hfirst x hx))
    fun x hx => hsu.contains (hsecond x hx)).bind fun both v ⟨huv, hboth, hbound⟩ => ?_
  have hv := huv.wellFormed hu
  have hsv := hsu.trans huv
  refine (hv.instantiate_view (hsv.contains hh) hboth).bind
    fun right w ⟨hvw, hright, hview''⟩ => .pure ?_
  have hnormal : ∀ x ∈ h :: (first.types ++ second.types), (s.view x).IsNormal := by
    intro x hx
    rw [hwf.view_of_unpromoted hs.distinct (hvalid x hx) (hfixed x hx)]
    exact hwf.normal_outline hs.distinct (hvalid x hx) (hfixed x hx)
  have htwice : w.view left =
      ((s.view h).substitute (s.bound first)).substitute (s.bound second) := by
    rw [(huv.trans hvw).view_eq hu hleft, hview', hview, hst.bound_eq hwf hsecond]
  have hviews : w.view left = w.view right :=
    calc w.view left
        = ((s.view h).substitute (s.bound first)).substitute (s.bound second) := htwice
      _ = (s.view h).substitute (Outline.compose (s.bound first) (s.bound second)) := by
          apply (hnormal h List.mem_cons_self).substitute_compose
          · exact normal_of_bound fun x hx => hnormal x (by simp [hx])
          · exact normal_of_bound fun x hx => hnormal x (by simp [hx])
      _ = w.view right := by
          rw [hview'', hbound, hsv.view_eq hwf hh, hsu.bound_eq hwf hfirst,
            hsu.bound_eq hwf hsecond]
  have hleft' := (huv.trans hvw).contains hleft
  exact ⟨((hvw.wellFormed hv).same_iff_view hleft' hright).mpr hviews, htwice⟩

/-- A class and two variables, the array type of the second, and a pair of the first and the union
of both. -/
def templateStore : Store :=
  .after [.nominal "Integer", .var "T", .var "U", .array ⟨7⟩, .union [⟨6⟩, ⟨7⟩],
    .tuple [⟨6⟩, ⟨9⟩]]

/-- In `templateStore` the array type of the second variable is put in the place of the first one,
and then the class in the place of the second. The instances are two equal tuples. -/
theorem templateStore_instantiate_compose :
    let first : Substitution := ⟨[(⟨4, 0⟩, ⟨8⟩)]⟩
    let second : Substitution := ⟨[(⟨5, 1⟩, ⟨5⟩)]⟩
    templateStore.names.find? "T" = some ⟨4, 0⟩ ∧ templateStore.names.find? "U" = some ⟨5, 1⟩ ∧
      (∀ x ∈ [⟨10⟩, ⟨8⟩, ⟨5⟩], templateStore.contains x) ∧
      (∀ x ∈ [⟨10⟩, ⟨8⟩, ⟨5⟩], templateStore.IsUnpromoted x) ∧
      ∃ t, Store.bothInstances ⟨10⟩ first second templateStore = .ok (⟨15⟩, ⟨16⟩) t ∧
        t.equal ⟨15⟩ ⟨16⟩ = .ok true := by
  intro first second
  have hs : Reachable templateStore := .after (by decide)
  have hvalid : ∀ x ∈ [⟨10⟩, ⟨8⟩, ⟨5⟩], templateStore.contains x := by decide +kernel
  have hfixed : ∀ x ∈ [⟨10⟩, ⟨8⟩, ⟨5⟩], templateStore.IsUnpromoted x := by
    intro x hx
    have hclosed : ∀ y ∈ templateStore.handles, templateStore.canonical y = .ok y ∧
        ∀ z ∈ (templateStore.nodeAt y).parts, z ∈ templateStore.handles := by decide +kernel
    exact .of_closed hclosed (Store.mem_handles.mpr (hvalid x hx))
  have hhandles : (Store.bothInstances ⟨10⟩ first second).run' templateStore =
      some (⟨15⟩, ⟨16⟩) := by decide +kernel
  obtain ⟨t, hrun⟩ := exists_run_of_run' hhandles
  obtain ⟨hequal, -⟩ :=
    (Reachable.instantiate_compose hs hvalid hfixed).of_run hrun
  exact ⟨by decide +kernel, by decide +kernel, hvalid, hfixed, t, hrun, hequal⟩

end GradualTypes
