import GradualTypes.Proofs.Instances
import GradualTypes.Proofs.NormalOutlines

/-!
Views: what a type looks like as it stands. A view is an outline in which a promoted tuple shows the
array type that it stands for, and a set shows each of its members once, in ascending order of their
views. Two types are equal exactly if they have one view, whatever was promoted. A set of types has
the view that is made of theirs, and a type in which no promoted tuple occurs has its outline for a
view.
-/

namespace GradualTypes

namespace Outline

variable {os os' : List Outline} {o : Outline} {kind : SetKind}

def collect (os : List Outline) : List Outline :=
  os.dedup.insertionSort fun a b => (a.order b).isLE

theorem mem_collect : o ∈ collect os ↔ o ∈ os := by
  rw [collect, (List.perm_insertionSort _ _).mem_iff, List.mem_dedup]

private theorem ascending_collect (os : List Outline) : Ascending (collect os) := by
  apply Ascending.of_sorted
  · exact pairwise_insertionSort_isLE order _
  · exact (List.perm_insertionSort _ _).nodup_iff.mpr (List.nodup_dedup _)

private theorem collect_eq_iff : collect os = collect os' ↔ ∀ o, o ∈ os ↔ o ∈ os' := by
  constructor
  · intro heq o
    rw [← mem_collect, heq, mem_collect]
  · intro hmem
    apply (ascending_collect os).eq_of_mem_iff (ascending_collect os')
    simpa only [mem_collect] using hmem

private theorem collect_of_ascending (hos : Ascending os) : collect os = os :=
  (ascending_collect os).eq_of_mem_iff hos fun _ => mem_collect

/-- What is left of outlines in a set is what they contribute, collected. -/
private theorem gather_eq_collect (kind : SetKind) (os : List Outline) :
    gather kind os = collect (flat kind os) :=
  rfl

def assemble (kind : Kind) (label : String) (parts : List Outline) : Outline :=
  ⟨kind, label, if kind = .union ∨ kind = .intersection then collect parts else parts⟩

private theorem assemble_set (kind : SetKind) (label : String) (parts : List Outline) :
    assemble kind.kind label parts = ⟨kind.kind, label, collect parts⟩ := by
  cases kind <;> rfl

private theorem assemble_of_ne {k : Kind} {label : String} (hset : ∀ kind : SetKind, k ≠ kind.kind)
    (parts : List Outline) : assemble k label parts = ⟨k, label, parts⟩ := by
  have hunion : k ≠ .union := hset .union
  have hintersection : k ≠ .intersection := hset .intersection
  simp [assemble, hunion, hintersection]

end Outline

private theorem Node.parts_fixedShape (node : Node) : node.fixedShape.parts = node.refs := by
  cases node <;> rfl

namespace Store

variable {s t : Store} {a b h array : Handle} {slot : Slot}

def viewWithin (s : Store) : Nat → Handle → Outline
  | 0, _ => .top
  | depth + 1, h =>
    match s.shape h with
    | .ok (.promoted array) => s.viewWithin depth array
    | _ => .assemble (s.nodeAt h).kind (s.label (s.nodeAt h))
        ((s.nodeAt h).refs.map (s.viewWithin depth))

def view (s : Store) (h : Handle) : Outline :=
  s.viewWithin (s.size + 1) h

section Steps

private theorem viewWithin_promoted (hshape : s.shape h = .ok (.promoted array)) (depth : Nat) :
    s.viewWithin (depth + 1) h = s.viewWithin depth array := by
  rw [viewWithin, hshape]

private theorem viewWithin_fixed (hslot : s.slot? h = some slot)
    (hshape : s.shape h = .ok slot.node.fixedShape) (depth : Nat) :
    s.viewWithin (depth + 1) h = .assemble slot.node.kind (s.label slot.node)
      (slot.node.refs.map (s.viewWithin depth)) := by
  rw [viewWithin, hshape, nodeAt_of_slot hslot]
  obtain ⟨node, traits⟩ := slot
  cases node <;> rfl

/-- A type is a promoted tuple or has the shape that its node tells. -/
theorem Linked.shape_cases (hs : s.Linked) (hslot : s.slot? h = some slot) :
    s.shape h = .ok slot.node.fixedShape ∨ ∃ array, s.shape h = .ok (.promoted array) := by
  obtain ⟨shape, hshape⟩ := hs.exists_shape (contains_of_slot hslot)
  obtain ⟨slot', hslot', hnode⟩ := shape_eq_ok_iff.mp hshape
  rw [hslot] at hslot'
  cases hslot'
  rw [hshape]
  exact (Node.shape?_cases hnode).imp (congrArg _) fun ⟨array, harray⟩ => ⟨array, congrArg _ harray⟩

private theorem WellFormed.refs_descend {x : Handle} (hs : s.WellFormed)
    (hshape : s.shape h = .ok slot.node.fixedShape) (hx : x ∈ slot.node.refs) :
    s.contains x ∧ s.rank x < s.rank h :=
  hs.descends hshape (by rwa [Node.parts_fixedShape])

/-- Views are the same in every grown store, by any walk that is deep enough. -/
theorem Grows.viewWithin_eq (hst : s.Grows t) (hs : s.WellFormed) (m n : Nat) (hh : s.contains h)
    (hm : s.rank h < m) (hn : s.rank h < n) : t.viewWithin n h = s.viewWithin m h := by
  induction m generalizing n h with
  | zero => omega
  | succ m ih =>
    obtain ⟨n, rfl⟩ := Nat.exists_eq_succ_of_ne_zero (Nat.ne_zero_of_lt hn)
    obtain ⟨slot, hslot⟩ := exists_slot hh
    rcases hs.linked.shape_cases hslot with hshape | ⟨array, hshape⟩
    · have hparts : slot.node.refs.map (t.viewWithin n) =
          slot.node.refs.map (s.viewWithin m) := by
        apply List.map_congr_left
        intro x hx
        obtain ⟨hx, hlt⟩ := hs.refs_descend hshape hx
        exact ih n hx (by omega) (by omega)
      rw [viewWithin_fixed hslot hshape, viewWithin_fixed (hst.slots hslot) (hst.shape_eq hshape),
        hparts, label, label, hst.names_eq]
    · obtain ⟨harray, hlt⟩ := hs.descends hshape List.mem_cons_self
      rw [viewWithin_promoted hshape, viewWithin_promoted (hst.shape_eq hshape)]
      exact ih n harray (by omega) (by omega)

theorem Grows.view_eq (hst : s.Grows t) (hs : s.WellFormed) (hh : s.contains h) :
    t.view h = s.view h := by
  have hrank := hs.linked.rank_le_size h
  have hsize := hst.toRetains.size_le
  exact hst.viewWithin_eq hs _ _ hh (by omega) (by omega)

variable (hs : s.WellFormed)
include hs

private theorem WellFormed.viewWithin_eq_view {depth : Nat} (hh : s.contains h)
    (hdepth : s.rank h < depth) : s.viewWithin depth h = s.view h := by
  have hrank := hs.linked.rank_le_size h
  exact (Grows.refl s).viewWithin_eq hs _ _ hh (by omega) hdepth

/-- A promoted tuple has the view of the array type it stands for. -/
theorem WellFormed.view_promoted (hshape : s.shape h = .ok (.promoted array)) :
    s.view h = s.view array := by
  obtain ⟨harray, hlt⟩ := hs.descends hshape List.mem_cons_self
  have hrank := hs.linked.rank_le_size h
  rw [view, viewWithin_promoted hshape]
  exact hs.viewWithin_eq_view harray (by omega)

/-- The view of any other type is assembled from those of what it refers to. -/
theorem WellFormed.view_fixed (hslot : s.slot? h = some slot)
    (hshape : s.shape h = .ok slot.node.fixedShape) :
    s.view h = .assemble slot.node.kind (s.label slot.node) (slot.node.refs.map s.view) := by
  have hrank := hs.linked.rank_le_size h
  rw [view, viewWithin_fixed hslot hshape]
  congr 1
  apply List.map_congr_left
  intro x hx
  obtain ⟨hx, hlt⟩ := hs.refs_descend hshape hx
  exact hs.viewWithin_eq_view hx (by omega)

theorem WellFormed.view_generic {base : Handle} {params : List Handle}
    (hshape : s.shape h = .ok (.generic base params)) :
    s.view h = ⟨.generic, "", s.view base :: params.map s.view⟩ := by
  obtain ⟨traits, hslot⟩ := slot_of_shape hshape rfl
  exact hs.view_fixed hslot hshape

theorem WellFormed.view_tuple {params : List Handle} (hshape : s.shape h = .ok (.tuple params)) :
    s.view h = ⟨.tuple, "", params.map s.view⟩ := by
  obtain ⟨⟨node, traits⟩, hslot, hnode⟩ := shape_eq_ok_iff.mp hshape
  rcases Node.shape?_cases hnode with hfixed | ⟨array, hpromoted⟩
  · cases node <;> cases hfixed
    exact hs.view_fixed hslot hshape
  · cases hpromoted

theorem WellFormed.view_annotated {name : Name} {inner : Handle} {text : String}
    (hshape : s.shape h = .ok (.annotated name inner)) (htext : s.names.text? name = some text) :
    s.view h = ⟨.annotated, text, [s.view inner]⟩ := by
  obtain ⟨traits, hslot⟩ := slot_of_shape hshape rfl
  rw [hs.view_fixed hslot hshape, label_of_text rfl htext]
  rfl

/-- The view of a leaf is a leaf with its label. -/
theorem WellFormed.view_leaf (hslot : s.slot? h = some slot) (hleaf : slot.node.kind.isLeaf) :
    s.view h = ⟨slot.node.kind, s.label slot.node, []⟩ := by
  have hshape : s.shape h = .ok slot.node.fixedShape := by
    refine shape_eq_ok_iff.mpr ⟨slot, hslot, ?_⟩
    obtain ⟨node, traits⟩ := slot
    cases node <;> first | rfl | cases hleaf
  rw [hs.view_fixed hslot hshape]
  obtain ⟨node, traits⟩ := slot
  cases node <;> first | rfl | cases hleaf

theorem WellFormed.view_set {kind : SetKind} {members : List Handle} {traits : Traits}
    (hslot : s.slot? h = some ⟨kind.node members, traits⟩) :
    s.view h = ⟨kind.kind, "", Outline.collect (members.map s.view)⟩ := by
  have hshape : s.shape h = .ok (kind.node members).fixedShape := by
    rw [shape_of_set hslot]
    cases kind <;> rfl
  rw [hs.view_fixed hslot hshape, SetKind.kind_node, SetKind.refs_node, Outline.assemble_set]
  cases kind <;> rfl

end Steps

section Equality

variable (hs : s.WellFormed)
include hs

/-- Types that are no promoted tuples are equal if they have one view and this settles the equality
of what they refer to. -/
theorem WellFormed.same_of_view {left right : Slot} (hleft : s.slot? a = some left)
    (hright : s.slot? b = some right) (hfirst : s.shape a = .ok left.node.fixedShape)
    (hsecond : s.shape b = .ok right.node.fixedShape)
    (hparts : ∀ x ∈ left.node.refs, ∀ y ∈ right.node.refs, s.view x = s.view y → s.Same x y)
    (hview : s.view a = s.view b) : s.Same a b := by
  have hassembled := hview
  rw [hs.view_fixed hleft hfirst, hs.view_fixed hright hsecond] at hassembled
  have hkind : left.node.kind = right.node.kind := congrArg Outline.kind hassembled
  have hlabel : s.label left.node = s.label right.node := congrArg Outline.label hassembled
  obtain ⟨left, traits⟩ := left
  obtain ⟨right, traits'⟩ := right
  by_cases hset : ∃ kind : SetKind, left.kind = kind.kind
  · obtain ⟨kind, hset⟩ := hset
    obtain ⟨members, rfl⟩ := SetKind.exists_node_iff.mp hset
    obtain ⟨others, rfl⟩ := SetKind.exists_node_iff.mp (hkind.symm.trans hset)
    simp only [SetKind.refs_node] at hparts
    rw [hs.view_set hleft, hs.view_set hright, Outline.mk.injEq, Outline.collect_eq_iff] at hview
    have hmem := hview.2.2
    rw [hs.same_iff_sameTypes hleft hright]
    constructor
    · intro x hx
      obtain ⟨y, hy, hyx⟩ := List.mem_map.mp ((hmem _).mp (List.mem_map_of_mem hx))
      exact ⟨y, hy, hparts x hx y hy hyx.symm⟩
    · intro y hy
      obtain ⟨x, hx, hxy⟩ := List.mem_map.mp ((hmem _).mpr (List.mem_map_of_mem hy))
      exact ⟨x, hx, hs.same_symm (hs.linked.contains_of_members hleft x hx)
        (hs.linked.contains_of_members hright y hy) (hparts x hx y hy hxy)⟩
  · have hrefs : left.refs.map s.view = right.refs.map s.view := by
      have hne := not_exists.mp hset
      rw [Outline.assemble_of_ne hne, Outline.assemble_of_ne (hkind ▸ hne)] at hassembled
      exact congrArg Outline.parts hassembled
    rw [← List.forall₂_eq_eq_eq, List.forall₂_map_left_iff, List.forall₂_map_right_iff] at hrefs
    exact hs.same_of_refs hleft hright hfirst hsecond hkind
      (hs.name?_eq hleft hright hkind hlabel) (forall₂_imp_of_mem hrefs hparts)

/-- Types are equal exactly if they have one view. -/
theorem WellFormed.same_iff_view (ha : s.contains a) (hb : s.contains b) :
    s.Same a b ↔ s.view a = s.view b := by
  induction hn : s.rank a + s.rank b using Nat.strong_induction_on generalizing a b with
  | _ n ih =>
    obtain ⟨left, hleft⟩ := exists_slot ha
    obtain ⟨right, hright⟩ := exists_slot hb
    rcases hs.linked.shape_cases hleft with hfirst | ⟨array, hshape⟩
    swap
    · obtain ⟨harray, hlt⟩ := hs.descends hshape List.mem_cons_self
      rw [hs.same_promoted_left hshape hb, hs.view_promoted hshape]
      exact ih _ (by omega) harray hb rfl
    rcases hs.linked.shape_cases hright with hsecond | ⟨array, hshape⟩
    swap
    · obtain ⟨harray, hlt⟩ := hs.descends hshape List.mem_cons_self
      rw [hs.same_promoted_right hshape ha, hs.view_promoted hshape]
      exact ih _ (by omega) ha harray rfl
    have hparts : ∀ x ∈ left.node.refs, ∀ y ∈ right.node.refs,
        (s.Same x y ↔ s.view x = s.view y) := by
      intro x hx y hy
      obtain ⟨hx, hlt⟩ := hs.refs_descend hfirst hx
      obtain ⟨hy, hlt'⟩ := hs.refs_descend hsecond hy
      exact ih _ (by omega) hx hy rfl
    constructor
    · intro hsame
      obtain ⟨hkind, hlabel, hrefs | ⟨kind, members, others, hnode, hnode', hmem⟩⟩ :=
        hs.agree_of_same hleft hright hfirst hsecond hsame fun x hx y hy => (hparts x hx y hy).mp
      · rw [hs.view_fixed hleft hfirst, hs.view_fixed hright hsecond, hkind, hlabel, hrefs]
      · obtain ⟨left, traits⟩ := left
        obtain ⟨right, traits'⟩ := right
        subst hnode hnode'
        rw [hs.view_set hleft, hs.view_set hright, Outline.collect_eq_iff.mpr hmem]
    · exact hs.same_of_view hleft hright hfirst hsecond fun x hx y hy => (hparts x hx y hy).mpr

end Equality

section Sets

variable {kind : SetKind} {types members : List Handle} (hs : s.WellFormed)
include hs

/-- The top and nil are told by their views. -/
theorem WellFormed.view_special_iff (hh : s.contains h) :
    (s.view h = .top ↔ h = .top) ∧ (s.view h = .nil ↔ h = .nil) := by
  have htop := hs.linked.builtin .top (by decide)
  have hnil := hs.linked.builtin .nil (by decide)
  have htop' : s.shape .top = .ok .top := shape_eq_ok_iff.mpr ⟨_, htop, rfl⟩
  have hnil' : s.shape .nil = .ok .nil := shape_eq_ok_iff.mpr ⟨_, hnil, rfl⟩
  have hview : s.view .top = .top := hs.view_fixed htop htop'
  have hview' : s.view .nil = .nil := hs.view_fixed hnil hnil'
  rw [← hview, ← hview', eq_comm, ← hs.same_iff_view (contains_of_slot htop) hh,
    eq_comm (a := s.view h), ← hs.same_iff_view (contains_of_slot hnil) hh]
  constructor
  · exact ⟨hs.eq_of_same_leaf htop' rfl hh, fun heq => heq ▸ s.same_refl h⟩
  · exact ⟨hs.eq_of_same_leaf hnil' rfl hh, fun heq => heq ▸ s.same_refl h⟩

/-- A type that is no set of a kind does not look like one. -/
theorem WellFormed.view_kind_ne (hslot : s.slot? h = some slot)
    (hne : ∀ members, slot.node ≠ kind.node members) : (s.view h).kind ≠ kind.kind := by
  rcases hs.linked.shape_cases hslot with hshape | ⟨array, hshape⟩
  · rw [hs.view_fixed hslot hshape]
    intro hkind
    obtain ⟨members, hnode⟩ := SetKind.exists_node_iff.mp hkind
    exact hne members hnode
  · obtain ⟨element, harray⟩ := hs.shape_of_array hshape
    obtain ⟨traits, hslot'⟩ := slot_of_shape harray rfl
    rw [hs.view_promoted hshape, hs.view_fixed hslot' harray]
    cases kind <;> simp [Outline.assemble, Node.kind, SetKind.kind]

/-- A type is replaced in a set as its view is. -/
theorem WellFormed.mem_spread_view_iff (kind : SetKind) (hh : s.contains h) (o : Outline) :
    o ∈ (s.view h).spread kind ↔ o ∈ (s.spread kind h).map s.view := by
  obtain ⟨⟨node, traits⟩, hslot⟩ := exists_slot hh
  by_cases hset : ∃ members, node = kind.node members
  · obtain ⟨members, rfl⟩ := hset
    rw [hs.view_set hslot, spread_of_set hslot, Outline.spread, if_pos rfl, Outline.mem_collect]
  · have hne := not_exists.mp hset
    rw [spread_of_ne hslot hne, Outline.spread_of_ne (hs.view_kind_ne hslot hne),
      List.map_singleton]

private theorem WellFormed.mem_flat_view_iff (htypes : ∀ x ∈ types, s.contains x) (o : Outline) :
    o ∈ Outline.flat kind (types.map s.view) ↔ o ∈ (s.flat kind types).map s.view := by
  simp only [Outline.mem_flat, flat, List.mem_map, List.mem_filter, List.mem_flatMap,
    decide_eq_true_eq, exists_exists_and_eq_and]
  constructor
  · rintro ⟨p, hp, ho, hnil⟩
    obtain ⟨x, hx, rfl⟩ := List.mem_map.mp ((hs.mem_spread_view_iff kind (htypes p hp) o).mp ho)
    refine ⟨x, ⟨⟨p, hp, hx⟩, ?_⟩, rfl⟩
    rintro rfl
    exact hnil ((hs.view_special_iff hs.linked.contains_nil).2.mpr rfl)
  · rintro ⟨x, ⟨⟨p, hp, hx⟩, hnil⟩, rfl⟩
    have hflat : x ∈ s.flat kind types :=
      List.mem_filter.mpr ⟨List.mem_flatMap.mpr ⟨p, hp, hx⟩, by simpa using hnil⟩
    refine ⟨p, hp, (hs.mem_spread_view_iff kind (htypes p hp) _).mpr (List.mem_map_of_mem hx), ?_⟩
    exact fun h => hnil ((hs.view_special_iff (hs.contains_of_flat htypes x hflat)).2.mp h)

/-- The members that are kept show each of the views once. -/
theorem WellFormed.collect_arranged (htypes : ∀ x ∈ types, s.contains x)
    (harranged : s.Arranged (s.flat kind types) members) :
    (members.map s.view).Nodup ∧
      Outline.collect (members.map s.view) = Outline.gather kind (types.map s.view) := by
  have hflat : ∀ x ∈ s.flat kind types, s.contains x := hs.contains_of_flat htypes
  have hmembers : ∀ x ∈ members, s.contains x := fun x hx => hflat x (harranged.subset hx)
  constructor
  · rw [List.Nodup, List.pairwise_map]
    refine harranged.unequal.imp_of_mem fun {x y} hx hy hxy hview => ?_
    have hsame := (hs.same_iff_view (hmembers x hx) (hmembers y hy)).mpr hview
    rw [Same, hxy] at hsame
    cases hsame
  · rw [Outline.gather_eq_collect, Outline.collect_eq_iff]
    intro o
    rw [hs.mem_flat_view_iff htypes]
    apply hs.mem_map_iff_of_same hmembers hflat (harranged.sameTypes hs hflat)
    exact fun x hx y hy => (hs.same_iff_view (hmembers x hx) (hflat y hy)).mp

/-- What members stand for shows their views. -/
theorem WellFormed.view_of_standsFor (hmembers : ∀ x ∈ members, s.contains x)
    (hnodup : (members.map s.view).Nodup) (hstands : s.StandsFor kind members h) :
    s.view h = .ofMembers kind (Outline.collect (members.map s.view)) := by
  rcases members with _ | ⟨x, _ | ⟨y, rest⟩⟩
  · rw [show h = .nil from hstands]
    exact (hs.view_special_iff hs.linked.contains_nil).2.mpr rfl
  · rw [show h = x from hstands]
    rfl
  · obtain ⟨others, traits, hslot, hsame⟩ := hstands
    have hlength : 2 ≤ (Outline.collect ((x :: y :: rest).map s.view)).length := by
      rw [Outline.collect, List.length_insertionSort, hnodup.dedup]
      simp
    have hothers := hs.linked.contains_of_members hslot
    rw [hs.view_set hslot, Outline.ofMembers_of_two_le hlength, Outline.mk.injEq,
      Outline.collect_eq_iff]
    refine ⟨rfl, rfl, fun o => hs.mem_map_iff_of_same hothers hmembers hsame ?_ o⟩
    exact fun x hx y hy => (hs.same_iff_view (hothers x hx) (hmembers y hy)).mp

/-- A set of types has the view that is made of theirs. -/
theorem WellFormed.view_of_isMadeOf (htypes : ∀ x ∈ types, s.contains x)
    (hmade : s.IsMadeOf kind types h) : s.view h = .make kind (types.map s.view) := by
  have htop_iff : .top ∈ types.map s.view ↔ .top ∈ types := by
    constructor
    · intro hmem
      obtain ⟨x, hx, hview⟩ := List.mem_map.mp hmem
      exact (hs.view_special_iff (htypes x hx)).1.mp hview ▸ hx
    · intro hmem
      exact List.mem_map.mpr ⟨_, hmem, (hs.view_special_iff hs.linked.contains_top).1.mpr rfl⟩
  rcases hmade with ⟨htop, rfl⟩ | ⟨htop, members, harranged, hstands⟩
  · rw [Outline.make, if_pos ⟨htop.1, htop_iff.mpr htop.2⟩]
    exact (hs.view_special_iff hs.linked.contains_top).1.mpr rfl
  · obtain ⟨hnodup, hcollect⟩ := hs.collect_arranged htypes harranged
    have hmembers : ∀ x ∈ members, s.contains x := fun x hx =>
      hs.contains_of_flat htypes x (harranged.subset hx)
    rw [Outline.make, if_neg fun h => htop h.1 (htop_iff.mp h.2), ← hcollect]
    exact hs.view_of_standsFor hmembers hnodup hstands

end Sets

/-- A type in which no promoted tuple occurs has its outline for a view. -/
theorem WellFormed.view_of_unpromoted (hs : s.WellFormed) (hd : s.Distinct) (hh : s.contains h)
    (hunpromoted : s.IsUnpromoted h) : s.view h = s.outline h := by
  induction hn : h.index using Nat.strong_induction_on generalizing h with
  | _ n ih =>
    obtain ⟨⟨node, traits⟩, hslot⟩ := exists_slot hh
    have hrefs : node.refs.map s.view = node.refs.map s.outline := by
      apply List.map_congr_left
      intro x hx
      have hlt := hs.linked.refs_lt hslot x hx
      exact ih x.index (by omega) (hs.linked.contains_of_refs hslot hx)
        (hunpromoted.ref hs.linked hslot hx) rfl
    rw [hs.view_fixed hslot (hs.shape_of_unpromoted hunpromoted hslot), hrefs,
      outline_step hs.linked hs.named hslot]
    by_cases hset : ∃ kind : SetKind, node.kind = kind.kind
    · obtain ⟨kind, hkind⟩ := hset
      obtain ⟨members, rfl⟩ := SetKind.exists_node_iff.mp hkind
      rw [SetKind.kind_node, Outline.assemble_set, SetKind.refs_node,
        Outline.collect_of_ascending (hd.ascending hs kind hunpromoted hslot)]
    · exact Outline.assemble_of_ne (not_exists.mp hset) _

end Store

end GradualTypes
