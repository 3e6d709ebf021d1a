import GradualTypes.Proofs.Canonicity
import GradualTypes.Proofs.Retrieval

/-!
Normalization of unions and intersections. The type that is made depends only on the types that are
left after nested sets were opened and nil was dropped, and on these only up to equality. So
nesting, repetition and order of the arguments do not matter. The same types in another order even
lead to the same handle: of equal types the first by the order is kept, so the members that are kept
from both lists are at the same places, and by their digests the catalog finds the set that was
made.
-/

namespace GradualTypes

def SetKind.make : SetKind → List Handle → StoreM Handle
  | union, types => Store.union types
  | intersection, types => Store.intersection types

def SetKind.members? : SetKind → Node → Option (List Handle)
  | union, .union members => some members
  | intersection, .intersection members => some members
  | _, _ => none

private theorem SetKind.members?_eq_some_iff {kind : SetKind} {node : Node}
    {members : List Handle} : kind.members? node = some members ↔ node = kind.node members := by
  cases kind <;> cases node <;> simp [members?, SetKind.node]

def SetKind.shape : SetKind → List Handle → Shape
  | union, members => .union members
  | intersection, members => .intersection members

def Shape.isLeaf : Shape → Bool
  | top | nil | wildcard | nominal _ | symbol _ | var _ => true
  | _ => false

private theorem not_sameShapes_of_leaf {same : Handle → Handle → Prop} {a b : Handle}
    {left right : Shape} (hleaf : left.isLeaf) (hplain : ∀ array, right ≠ .promoted array) :
    ¬SameShapes same a left b right := by
  intro hsame
  cases left with
  | top | nil | wildcard | nominal _ | symbol _ | var _ =>
    cases right with
    | promoted array => exact hplain array rfl
    | _ => exact hsame
  | _ => cases hleaf

namespace Store

variable {s t : Store} {h : Handle} {kind : SetKind} {types members members' : List Handle}

theorem shape_of_set {traits : Traits} (hslot : s.slot? h = some ⟨kind.node members, traits⟩) :
    s.shape h = .ok (kind.shape members) := by
  cases kind <;> exact shape_eq_ok_iff.mpr ⟨_, hslot, rfl⟩

section Flat

/-- What a type is replaced by in a set of a kind: a set of that kind by its members, and any other
type by itself. -/
def spread (s : Store) (kind : SetKind) (h : Handle) : List Handle :=
  (kind.members? (s.nodeAt h)).getD [h]

/-- Types with nested sets of a kind replaced by their members, and without nil. -/
def flat (s : Store) (kind : SetKind) (types : List Handle) : List Handle :=
  (types.flatMap (s.spread kind)).filter (· ≠ .nil)

theorem spread_of_set {traits : Traits} (hslot : s.slot? h = some ⟨kind.node members, traits⟩) :
    s.spread kind h = members := by
  have hmembers : kind.members? (kind.node members) = some members :=
    SetKind.members?_eq_some_iff.mpr rfl
  simp [spread, nodeAt_of_slot hslot, hmembers]

theorem spread_of_ne {slot : Slot} (hslot : s.slot? h = some slot)
    (hne : ∀ members, slot.node ≠ kind.node members) : s.spread kind h = [h] := by
  have hnone : kind.members? slot.node = none := by
    apply Option.eq_none_iff_forall_ne_some.mpr
    intro members hmembers
    exact hne members (SetKind.members?_eq_some_iff.mp hmembers)
  simp [spread, nodeAt_of_slot hslot, hnone]

private theorem flat_perm {xs ys : List Handle} (hperm : xs.Perm ys) :
    (s.flat kind xs).Perm (s.flat kind ys) :=
  (hperm.flatMap_right _).filter _

section Parts

variable (hs : s.WellFormed)
include hs

/-- What a type contributes to a set is what it is replaced by, without nil. -/
theorem WellFormed.setPart_eq (kind : SetKind) (hh : s.contains h) :
    s.setPart kind h = .ok ((s.spread kind h).filter (· ≠ .nil)) := by
  obtain ⟨⟨node, traits⟩, hslot⟩ := exists_slot hh
  obtain ⟨part, hpart⟩ := setPart_answered kind hh
  have hspecial := (hs.linked.special_iff hslot).2
  rw [hpart]
  rcases setPart_cases hslot hpart with ⟨rfl, rfl⟩ | rfl | ⟨hmember, rfl⟩
  · obtain rfl : h = .nil := hspecial.mp rfl
    have hself : s.spread kind .nil = [.nil] :=
      spread_of_ne hslot (by cases kind <;> simp [SetKind.node])
    simp [hself]
  · have hkept : part.filter (· ≠ .nil) = part := by
      apply List.filter_eq_self.mpr
      intro x hx
      obtain ⟨slot, hx, hmember, -⟩ := hs.normal.plain hslot x hx
      simpa using mt (hs.linked.special_iff hx).2.mpr hmember.1
    rw [spread_of_set hslot, hkept]
  · have hne : h ≠ .nil := mt hspecial.mpr hmember.1
    simp [spread_of_ne hslot hmember.2, hne]

theorem WellFormed.setParts_eq (kind : SetKind) (htypes : ∀ p ∈ types, s.contains p) :
    ∃ parts, types.mapM (s.setPart kind) = .ok parts ∧ parts.flatten = s.flat kind types := by
  refine ⟨types.map fun p => (s.spread kind p).filter (· ≠ .nil), ?_, ?_⟩
  · rw [Lifting.mapM_eq_ok_iff, List.forall₂_map_right_iff, List.forall₂_same]
    intro p hp
    exact hs.setPart_eq kind (htypes p hp)
  · rw [flat, List.filter_flatMap]
    rfl

theorem WellFormed.contains_of_flat (htypes : ∀ p ∈ types, s.contains p) :
    ∀ x ∈ s.flat kind types, s.contains x := by
  obtain ⟨parts, hparts, hflat⟩ := hs.setParts_eq kind htypes
  rw [← hflat]
  exact contains_of_setPart hs.linked htypes hparts

/-- No set of the kind is left, and a top is left only if it was among the types. -/
theorem WellFormed.plain_of_flat (htypes : ∀ p ∈ types, s.contains p) :
    ∀ x ∈ s.flat kind types, ∃ slot, s.slot? x = some slot ∧ slot.node.IsMember kind ∧
      (kind = .union → x = .top → .top ∈ types) := by
  intro x hx
  obtain ⟨parts, hparts, hflat⟩ := hs.setParts_eq kind htypes
  rw [← hflat] at hx
  obtain ⟨slot, hslot, hmember, htop⟩ := hs.normal.plain_of_parts htypes hparts x hx
  refine ⟨slot, hslot, hmember, fun hkind hx => ?_⟩
  subst hx
  exact htop hkind ((hs.linked.special_iff hslot).1.mpr rfl)

private theorem WellFormed.top_mem_flat (htop : .top ∈ types) : .top ∈ s.flat kind types := by
  have hslot : s.slot? .top = some ⟨.top, .none⟩ := hs.linked.builtin .top (by decide)
  have hself : s.spread kind .top = [.top] :=
    spread_of_ne hslot (by cases kind <;> simp [SetKind.node])
  refine List.mem_filter.mpr ⟨List.mem_flatMap.mpr ⟨.top, htop, ?_⟩, by decide⟩
  rw [hself]
  exact List.mem_singleton_self _

end Parts

theorem Retains.flat_eq (hst : s.Retains t) (htypes : ∀ p ∈ types, s.contains p) :
    t.flat kind types = s.flat kind types := by
  have hspread : ∀ p ∈ types, t.spread kind p = s.spread kind p := by
    intro p hp
    obtain ⟨slot, hslot⟩ := exists_slot (htypes p hp)
    rw [spread, spread, nodeAt_of_slot hslot, nodeAt_of_slot (hst.slots hslot)]
  rw [flat, flat, List.flatMap_congr hspread]

end Flat

section Lookup

/-- The type that arranged members stand for, if the store holds it: nil without members, a single
member itself, and otherwise the oldest set that fits. -/
def lookup (s : Store) (kind : SetKind) : List Handle → Except Error (Option Handle)
  | [] => .ok (some .nil)
  | [only] => .ok (some only)
  | members => s.findSet kind members

theorem lookup_of_two_le (htwo : 2 ≤ members.length) :
    s.lookup kind members = s.findSet kind members := by
  match members, htwo with
  | x :: y :: rest, _ => rfl

/-- What arranged members stand for, whichever of equal sets that is: nil without members, a single
member itself, and otherwise a set of the same types. -/
def StandsFor (s : Store) (kind : SetKind) (members : List Handle) (h : Handle) : Prop :=
  match members with
  | [] => h = .nil
  | [only] => h = only
  | _ => ∃ others traits, s.slot? h = some ⟨kind.node others, traits⟩ ∧ s.SameTypes others members

/-- What a set of a kind is when it is made of some types: the top if that absorbs the others, and
otherwise what the arranged members stand for. -/
def IsMadeOf (s : Store) (kind : SetKind) (types : List Handle) (h : Handle) : Prop :=
  (kind = .union ∧ .top ∈ types) ∧ h = .top ∨
    (kind = .union → .top ∉ types) ∧
      ∃ members, s.Arranged (s.flat kind types) members ∧ s.StandsFor kind members h

/-- Members that were arranged in a store stand for a type from then on. The store has grown at
most, and it is left as it was if they stood for a type before. -/
structure Makes (s : Store) (kind : SetKind) (members : List Handle) (h : Handle) (t : Store) :
    Prop where
  grows : s.Grows t
  found : t.lookup kind members = .ok (some h)
  again : ∀ {found}, s.lookup kind members = .ok (some found) → h = found ∧ t = s

private theorem Makes.of_lookup (hfound : s.lookup kind members = .ok (some h)) :
    s.Makes kind members h s := by
  refine ⟨.refl s, hfound, fun {found} hagain => ⟨?_, rfl⟩⟩
  rw [hfound] at hagain
  cases hagain
  rfl

section Formation

variable (hs : s.WellFormed) (htypes : ∀ p ∈ types, s.contains p)
include hs htypes

/-- A set of types none of which absorbs it is made from its arranged members. -/
theorem WellFormed.formSet_run (htop : kind = .union → types.anyM s.isTop = .ok false) :
    ∃ members h t, s.Arranged (s.flat kind types) members ∧ formSet kind types s = .ok h t ∧
      s.Makes kind members h t := by
  obtain ⟨parts, hparts, hflat⟩ := hs.setParts_eq kind htypes
  have hvalid : ∀ x ∈ s.flat kind types, s.contains x := hs.contains_of_flat htypes
  obtain ⟨members, harrange, harranged⟩ := exists_arranged hs.linked hs.named hs.acyclic hvalid
  rw [← hflat] at harrange
  rw [formSet, bind_run (ask_run hparts), bind_run (ask_run harrange)]
  match members, harrange, harranged with
  | [], _, harranged => exact ⟨[], .nil, s, harranged, rfl, .of_lookup rfl⟩
  | [only], _, harranged => exact ⟨[only], only, s, harranged, rfl, .of_lookup rfl⟩
  | x :: y :: rest, harrange, harranged =>
    have hmembers : ∀ z ∈ x :: y :: rest, s.contains z := fun z hz =>
      hvalid z (harranged.subset hz)
    obtain ⟨h, t, hrun, others, hformed, -⟩ :=
      internSet_returns hs htop htypes hparts harrange (by simp)
    refine ⟨_, h, t, harranged, hrun, hformed.grows, ?_, fun {found} hfound => ?_⟩
    · exact hs.internSet_found hmembers hrun hformed.grows
    · rcases internSet_run kind hs hmembers with ⟨other, hother, hrun'⟩ | ⟨_, _, hnone, -⟩
      · have hsame := hother.symm.trans hfound
        cases hsame
        rw [hrun] at hrun'
        cases hrun'
        exact ⟨rfl, rfl⟩
      · have hcontra := hnone.symm.trans hfound
        cases hcontra

theorem WellFormed.anyTop_decides_mem : Decides (types.anyM s.isTop) (.top ∈ types) := by
  refine (anyTop_decides htypes).congr ⟨?_, fun htop => ⟨.top, htop, ?_⟩⟩
  · rintro ⟨p, hp, hnode⟩
    obtain ⟨traits, hslot⟩ := exists_slot_of_node hnode
    rw [← (hs.linked.special_iff hslot).1.mp rfl]
    exact hp
  · have hslot : s.slot? .top = some ⟨.top, .none⟩ := hs.linked.builtin .top (by decide)
    exact node_of_slot hslot

/-- A top absorbs a union, and otherwise the arranged members make the type. -/
theorem WellFormed.make_run (kind : SetKind) :
    (kind = .union ∧ .top ∈ types) ∧ kind.make types s = .ok .top s ∨
      (kind = .union → .top ∉ types) ∧ ∃ members h t, s.Arranged (s.flat kind types) members ∧
        kind.make types s = .ok h t ∧ s.Makes kind members h t := by
  have hcheck : s.checkParams types = .ok () := checkParamsFrom_eq_ok_iff.mpr htypes
  cases kind with
  | intersection =>
    refine .inr ⟨by simp, ?_⟩
    rw [SetKind.make, intersection, bind_run (ask_run hcheck)]
    exact hs.formSet_run htypes (by simp)
  | union =>
    obtain ⟨answer, hanswer, htop⟩ := hs.anyTop_decides_mem htypes
    have hrun : SetKind.make .union types s =
        (if answer then pure .top else formSet .union types : StoreM Handle) s := by
      rw [SetKind.make, union, bind_run (ask_run hcheck), formUnion, bind_run (ask_run hanswer)]
    rw [hrun]
    cases answer with
    | true => exact .inl ⟨⟨rfl, htop.mp rfl⟩, rfl⟩
    | false =>
      refine .inr ⟨fun _ hmem => absurd (htop.mpr hmem) (by simp), ?_⟩
      exact hs.formSet_run htypes fun _ => hanswer

end Formation

section Comparison

variable {xs ys : List Handle} {a b : Handle} (hs : s.WellFormed)
include hs

/-- Arranging lists of the same types gives lists of the same types. -/
theorem WellFormed.sameTypes_of_arranged (hxs : ∀ x ∈ xs, s.contains x)
    (hys : ∀ y ∈ ys, s.contains y) (harranged : s.Arranged xs members)
    (harranged' : s.Arranged ys members') (hsame : s.SameTypes xs ys) :
    s.SameTypes members members' := by
  have hmembers : ∀ x ∈ members, s.contains x := fun x hx => hxs x (harranged.subset hx)
  have hmembers' : ∀ y ∈ members', s.contains y := fun y hy => hys y (harranged'.subset hy)
  have hback : s.SameTypes ys members' := (harranged'.sameTypes hs hys).symm
  apply hs.sameTypes_trans hmembers hxs hmembers' (harranged.sameTypes hs hxs)
  exact hs.sameTypes_trans hxs hys hmembers' hsame hback

/-- What was arranged from the same types in another order stands for the same set. -/
theorem WellFormed.lookup_of_mem_iff (hxs : ∀ x ∈ xs, s.contains x)
    (hmem : ∀ x, x ∈ xs ↔ x ∈ ys) (harranged : s.Arranged xs members)
    (harranged' : s.Arranged ys members') (htwo : 2 ≤ members.length)
    (hfound : s.lookup kind members = .ok (some h)) :
    s.lookup kind members' = .ok (some h) := by
  have hys : ∀ y ∈ ys, s.contains y := fun y hy => hxs y ((hmem y).mpr hy)
  have hmembers : ∀ x ∈ members, s.contains x := fun x hx => hxs x (harranged.subset hx)
  have hmembers' : ∀ y ∈ members', s.contains y := fun y hy => hys y (harranged'.subset hy)
  have hsame := hs.sameTypes_of_arranged hxs hys harranged harranged' (.of_mem_iff hmem)
  obtain ⟨order, hperm, hmatch⟩ :=
    hs.exists_matching hmembers hmembers' harranged.unequal harranged'.unequal hsame
  have hdigests : List.Forall₂ (fun x y => s.digest x = s.digest y) members order := by
    refine forall₂_imp_of_mem hmatch fun x hx y hy hxy => ?_
    have hy := hperm.mem_iff.mp hy
    apply hs.digest_eq_of_place (hmembers x hx) (hmembers' y hy)
    exact harranged.place_eq_of_same hs hxs harranged' hmem hx hy hxy
  have htwo' : 2 ≤ members'.length := by
    rw [← hperm.length_eq, ← hmatch.length_eq]
    exact htwo
  rw [lookup_of_two_le htwo] at hfound
  rw [lookup_of_two_le htwo']
  have hdigest := setDigest_eq kind hs.linked hmembers hmembers' hperm hdigests
  exact hs.findSet_congr hmembers hmembers' hdigest hsame hfound

/-- Sets of a kind are equal exactly if they are sets of the same types. -/
theorem WellFormed.same_iff_sameTypes {others others' : List Handle} {traits traits' : Traits}
    (ha : s.slot? a = some ⟨kind.node others, traits⟩)
    (hb : s.slot? b = some ⟨kind.node others', traits'⟩) :
    s.Same a b ↔ s.SameTypes others others' := by
  have hself : a = b → s.SameTypes others others' := by
    rintro rfl
    rw [ha] at hb
    cases kind <;> cases hb <;> exact .of_mem_iff fun _ => Iff.rfl
  have hshapes : SameShapes s.Same a (kind.shape others) b (kind.shape others') ↔
      s.SameTypes others others' := by
    cases kind <;> rfl
  rw [hs.same_iff (shape_of_set ha) (shape_of_set hb), hshapes]
  exact or_iff_right_of_imp hself

theorem WellFormed.standsFor_of_lookup (hmembers : ∀ x ∈ members, s.contains x)
    (hfound : s.lookup kind members = .ok (some h)) : s.StandsFor kind members h := by
  match members, hfound with
  | [], hfound =>
    cases hfound
    rfl
  | [only], hfound =>
    cases hfound
    rfl
  | x :: y :: rest, hfound =>
    obtain ⟨⟨-, others, traits, hslot, hsame⟩, -⟩ := (hs.findSet_some_iff hmembers).mp hfound
    exact ⟨others, traits, hslot, hsame⟩

theorem WellFormed.contains_of_standsFor (hmembers : ∀ x ∈ members, s.contains x)
    (hstands : s.StandsFor kind members h) : s.contains h := by
  match members, hstands with
  | [], hstands =>
    rw [hstands]
    exact hs.linked.contains_nil
  | [only], hstands =>
    rw [hstands]
    exact hmembers only List.mem_cons_self
  | x :: y :: rest, hstands =>
    obtain ⟨others, traits, hslot, -⟩ := hstands
    exact contains_of_slot hslot

/-- What lists of the same types stand for is equal, if no two types of either list are. -/
theorem WellFormed.same_of_standsFor (hmembers : ∀ x ∈ members, s.contains x)
    (hmembers' : ∀ y ∈ members', s.contains y)
    (hunequal : members.Pairwise fun x y => s.equal x y = .ok false)
    (hunequal' : members'.Pairwise fun x y => s.equal x y = .ok false)
    (hsame : s.SameTypes members members') (ha : s.StandsFor kind members a)
    (hb : s.StandsFor kind members' b) : s.Same a b := by
  obtain ⟨order, hperm, hmatch⟩ :=
    hs.exists_matching hmembers hmembers' hunequal hunequal' hsame
  have hlength : members.length = members'.length := hmatch.length_eq.trans hperm.length_eq
  match members, members', hlength with
  | [], [], _ =>
    rw [ha, hb]
    exact s.same_refl _
  | [x], [y], _ =>
    obtain ⟨y', hy', hxy⟩ := hsame.1 x List.mem_cons_self
    rw [ha, hb, ← List.mem_singleton.mp hy']
    exact hxy
  | x :: x' :: rest, y :: y' :: rest', _ =>
    obtain ⟨others, traits, hslot, hothers⟩ := ha
    obtain ⟨others', traits', hslot', hothers'⟩ := hb
    have hvalid := hs.linked.contains_of_members hslot
    have hvalid' := hs.linked.contains_of_members hslot'
    apply (hs.same_iff_sameTypes hslot hslot').mpr
    apply hs.sameTypes_trans hvalid hmembers hvalid' hothers
    exact hs.sameTypes_trans hmembers hmembers' hvalid' hsame hothers'.symm

/-- Lists of the same types in which no tuple occurs hold the same handles. -/
theorem WellFormed.perm_of_sameTypes (hfree : ∀ x ∈ members, s.IsTupleFree x)
    (hfree' : ∀ y ∈ members', s.IsTupleFree y) (hnodup : members.Nodup) (hnodup' : members'.Nodup)
    (hsame : s.SameTypes members members') : members.Perm members' := by
  have heq : ∀ {x y}, s.IsTupleFree x → s.IsTupleFree y → s.Same x y → x = y := fun hx hy hxy =>
    (hs.equal_decides_eq hx hy).eq_true_iff.mp hxy
  refine (List.perm_ext_iff_of_nodup hnodup hnodup').mpr fun x => ⟨fun hx => ?_, fun hx => ?_⟩
  · obtain ⟨y, hy, hxy⟩ := hsame.1 x hx
    rw [heq (hfree x hx) (hfree' y hy) hxy]
    exact hy
  · obtain ⟨y, hy, hxy⟩ := hsame.2 x hx
    rw [heq (hfree' x hx) (hfree y hy) hxy]
    exact hy

theorem WellFormed.lookup_perm (hmembers : ∀ x ∈ members, s.contains x)
    (hperm : members.Perm members') (hfound : s.lookup kind members = .ok (some h)) :
    s.lookup kind members' = .ok (some h) := by
  match members, members', hperm.length_eq with
  | [], [], _ => exact hfound
  | [x], [y], _ =>
    rw [List.singleton_perm_singleton.mp hperm] at hfound
    exact hfound
  | x :: x' :: rest, y :: y' :: rest', _ =>
    have hmembers' : ∀ z ∈ y :: y' :: rest', s.contains z := fun z hz =>
      hmembers z (hperm.mem_iff.mpr hz)
    have hdigest := setDigest_eq kind hs.linked hmembers hmembers' hperm
      (List.forall₂_same.mpr fun _ _ => rfl)
    exact hs.findSet_congr hmembers hmembers' hdigest (.of_mem_iff fun _ => hperm.mem_iff) hfound

/-- A type that is not put together from others is equal to no other type. -/
theorem WellFormed.eq_of_same_leaf {shape : Shape} (ha : s.shape a = .ok shape)
    (hleaf : shape.isLeaf) (hb : s.contains b) (hab : s.Same a b) : b = a := by
  obtain ⟨right, hright⟩ := hs.linked.exists_shape hb
  by_cases hpromoted : ∃ array, right = .promoted array
  · obtain ⟨array, rfl⟩ := hpromoted
    obtain ⟨element, harray⟩ := hs.shape_of_array hright
    have hsame := (hs.same_promoted_right hright (Linked.contains_of_shape ha)).mp hab
    rcases (hs.same_iff ha harray).mp hsame with rfl | hstep
    · rw [ha] at harray
      cases harray
      cases hleaf
    · exact absurd hstep (not_sameShapes_of_leaf hleaf (by simp))
  · rcases (hs.same_iff ha hright).mp hab with heq | hstep
    · exact heq.symm
    · exact absurd hstep (not_sameShapes_of_leaf hleaf (not_exists.mp hpromoted))

/-- A top is among the types of both lists or of none. -/
theorem WellFormed.top_mem_of_sameTypes (hys : ∀ y ∈ ys, s.contains y)
    (hsame : s.SameTypes (s.flat .union xs) (s.flat .union ys)) (htop : .top ∈ xs) :
    .top ∈ ys := by
  obtain ⟨y, hy, hty⟩ := hsame.1 .top (hs.top_mem_flat htop)
  have hyt := hs.eq_of_same_leaf hs.linked.tupleFree_top.2 rfl (hs.contains_of_flat hys y hy) hty
  obtain ⟨-, -, -, hmem⟩ := hs.plain_of_flat hys y hy
  exact hmem rfl hyt

/-- Members none of which is a set of the kind stand for such a set only if they are two or more. -/
theorem WellFormed.two_le_of_lookup (hplain : ∀ x ∈ members, ∃ slot, s.slot? x = some slot ∧
      slot.node.IsMember kind) (hfound : s.lookup kind members = .ok (some h)) {traits : Traits}
    (hslot : s.slot? h = some ⟨kind.node members', traits⟩) : 2 ≤ members.length := by
  match members with
  | [] =>
    cases hfound
    have hnil := (hs.linked.special_iff hslot).2.mpr rfl
    cases kind <;> cases hnil
  | [x] =>
    cases hfound
    obtain ⟨slot, hx, hmember⟩ := hplain h List.mem_cons_self
    rw [hslot] at hx
    cases hx
    exact absurd rfl (hmember.2 members')
  | x :: y :: rest => simp

end Comparison

private theorem Grows.lookup_found (hst : s.Grows t) (hs : s.WellFormed)
    (hmembers : ∀ x ∈ members, s.contains x) (hfound : s.lookup kind members = .ok (some h)) :
    t.lookup kind members = .ok (some h) := by
  match members with
  | [] => exact hfound
  | [x] => exact hfound
  | x :: y :: rest => exact hst.findSet_found hs hmembers hfound

private theorem Grows.arranged_flat (hst : s.Grows t) (hs : s.WellFormed)
    (htypes : ∀ p ∈ types, s.contains p) (harranged : s.Arranged (s.flat kind types) members) :
    t.Arranged (t.flat kind types) members := by
  rw [hst.flat_eq htypes]
  exact hst.arranged hs (hs.contains_of_flat htypes) harranged

private theorem Grows.standsFor (hst : s.Grows t) (hs : s.WellFormed)
    (hmembers : ∀ x ∈ members, s.contains x) (hstands : s.StandsFor kind members h) :
    t.StandsFor kind members h := by
  match members, hstands with
  | [], hstands => exact hstands
  | [only], hstands => exact hstands
  | x :: y :: rest, hstands =>
    obtain ⟨others, traits, hslot, hsame⟩ := hstands
    have hothers := hs.linked.contains_of_members hslot
    exact ⟨others, traits, hst.slots hslot, (hst.sameTypes_iff hs hothers hmembers).mpr hsame⟩

theorem Grows.isMadeOf (hst : s.Grows t) (hs : s.WellFormed) (htypes : ∀ p ∈ types, s.contains p)
    (hmade : s.IsMadeOf kind types h) : t.IsMadeOf kind types h := by
  rcases hmade with htop | ⟨htop, members, harranged, hstands⟩
  · exact .inl htop
  · have hmembers : ∀ x ∈ members, s.contains x := fun x hx =>
      hs.contains_of_flat htypes x (harranged.subset hx)
    exact .inr ⟨htop, members, hst.arranged_flat hs htypes harranged,
      hst.standsFor hs hmembers hstands⟩

/-- A set of types of the store can be made. -/
theorem WellFormed.make_returns (hs : s.WellFormed) (kind : SetKind)
    (htypes : ∀ p ∈ types, s.contains p) :
    Returns (kind.make types) s fun h t => s.Grows t ∧ t.contains h ∧ t.IsMadeOf kind types h := by
  rcases hs.make_run htypes kind with
    ⟨htop, hrun⟩ | ⟨htop, members, h, t, harranged, hrun, hmakes⟩
  · have hcontains := hs.contains_of_tupleFree hs.linked.tupleFree_top.1
    exact ⟨.top, s, hrun, .refl s, hcontains, .inl ⟨htop, rfl⟩⟩
  · have ht := hmakes.grows.wellFormed hs
    have hmembers : ∀ x ∈ members, t.contains x := fun x hx =>
      hmakes.grows.contains (hs.contains_of_flat htypes x (harranged.subset hx))
    have hstands := ht.standsFor_of_lookup hmembers hmakes.found
    exact ⟨h, t, hrun, hmakes.grows, ht.contains_of_standsFor hmembers hstands,
      .inr ⟨htop, members, hmakes.grows.arranged_flat hs htypes harranged, hstands⟩⟩

/-- What is made one after the other from lists of the same types is equal, and it is the same
handle if no tuple occurs in the types. -/
theorem WellFormed.makes_sameTypes {u : Store} {xs ys : List Handle} {a b : Handle}
    (hs : s.WellFormed) (hxs : ∀ x ∈ xs, s.contains x) (hys : ∀ y ∈ ys, s.contains y)
    (hsame : s.SameTypes xs ys) (harranged : s.Arranged xs members)
    (hmakes : s.Makes kind members a t) (harranged' : t.Arranged ys members')
    (hmakes' : t.Makes kind members' b u) :
    u.Same a b ∧ ((∀ x ∈ xs ++ ys, s.IsTupleFree x) → a = b) := by
  have ht := hmakes.grows.wellFormed hs
  have hsu : s.Grows u := hmakes.grows.trans hmakes'.grows
  have hu := hsu.wellFormed hs
  have hmembers : ∀ x ∈ members, s.contains x := fun x hx => hxs x (harranged.subset hx)
  have hmembers' : ∀ y ∈ members', s.contains y := fun y hy => hys y (harranged'.subset hy)
  -- both lists of members are arranged in the last store, and hold the same types there
  have hleft : u.Arranged xs members := hsu.arranged hs hxs harranged
  have hright : u.Arranged ys members' :=
    hmakes'.grows.arranged ht (fun y hy => hmakes.grows.contains (hys y hy)) harranged'
  have hkept : u.SameTypes members members' :=
    hu.sameTypes_of_arranged (fun x hx => hsu.contains (hxs x hx))
      (fun y hy => hsu.contains (hys y hy)) hleft hright ((hsu.sameTypes_iff hs hxs hys).mpr hsame)
  constructor
  · have hfound : u.lookup kind members = .ok (some a) :=
      hmakes'.grows.lookup_found ht (fun x hx => hmakes.grows.contains (hmembers x hx))
        hmakes.found
    have hvalid : ∀ x ∈ members, u.contains x := fun x hx => hsu.contains (hmembers x hx)
    have hvalid' : ∀ y ∈ members', u.contains y := fun y hy => hsu.contains (hmembers' y hy)
    exact hu.same_of_standsFor hvalid hvalid' hleft.unequal hright.unequal hkept
      (hu.standsFor_of_lookup hvalid hfound) (hu.standsFor_of_lookup hvalid' hmakes'.found)
  · intro hfree
    have hperm : members.Perm members' := by
      apply hs.perm_of_sameTypes
      · exact fun x hx => hfree x (List.mem_append_left _ (harranged.subset hx))
      · exact fun y hy => hfree y (List.mem_append_right _ (harranged'.subset hy))
      · exact nodup_of_unequal hleft.unequal
      · exact nodup_of_unequal hright.unequal
      · exact (hsu.sameTypes_iff hs hmembers hmembers').mp hkept
    have hagain := ht.lookup_perm (fun x hx => hmakes.grows.contains (hmembers x hx)) hperm
      hmakes.found
    exact (hmakes'.again hagain).1.symm

end Lookup

end Store

/-- In a reachable store the order of the arguments makes no difference to a union or an
intersection: whatever tuples they hold and whichever of them were promoted, asking again with the
arguments in another order returns the same handle and leaves the store as it is. -/
theorem Reachable.make_perm {s : Store} {kind : SetKind} {xs ys : List Handle} (hs : Reachable s)
    (hxs : ∀ x ∈ xs, s.contains x) (hperm : xs.Perm ys) :
    ∃ a t, kind.make xs s = .ok a t ∧
      ((∃ members, t.node a = .ok (kind.node members)) → kind.make ys t = .ok a t) := by
  have hwf := hs.wellFormed
  rcases hwf.make_run hxs kind with
    ⟨⟨rfl, -⟩, hrun⟩ | ⟨htop, members, a, t, harranged, hrun, hmakes⟩
  · refine ⟨.top, s, hrun, ?_⟩
    rintro ⟨members, hnode⟩
    have hslot : s.slot? .top = some ⟨.top, .none⟩ := hwf.linked.builtin .top (by decide)
    rw [Store.node_of_slot hslot] at hnode
    cases hnode
  · refine ⟨a, t, hrun, ?_⟩
    rintro ⟨others, hnode⟩
    have ht := hmakes.grows.wellFormed hwf
    have hys : ∀ y ∈ ys, s.contains y := fun y hy => hxs y (hperm.mem_iff.mpr hy)
    have hvalid : ∀ x ∈ s.flat kind xs, s.contains x := hwf.contains_of_flat hxs
    rcases ht.make_run (fun y hy => hmakes.grows.contains (hys y hy)) kind with
      ⟨⟨rfl, htop'⟩, -⟩ | ⟨-, members', b, u, harranged', hrun', hmakes'⟩
    · exact absurd (hperm.mem_iff.mpr htop') (htop rfl)
    · rw [hmakes.grows.flat_eq hys] at harranged'
      have htwo : 2 ≤ members.length := by
        obtain ⟨traits, hslot⟩ := Store.exists_slot_of_node hnode
        refine ht.two_le_of_lookup (fun x hx => ?_) hmakes.found hslot
        obtain ⟨slot, hslot, hmember, -⟩ := hwf.plain_of_flat hxs x (harranged.subset hx)
        exact ⟨slot, hmakes.grows.slots hslot, hmember⟩
      have hfound := ht.lookup_of_mem_iff (fun x hx => hmakes.grows.contains (hvalid x hx))
        (fun _ => (Store.flat_perm hperm).mem_iff) (hmakes.grows.arranged hwf hvalid harranged)
        harranged' htwo hmakes.found
      obtain ⟨rfl, rfl⟩ := hmakes'.again hfound
      exact hrun'

/-- Two promoted tuples with the same elements: either may be the one that is kept, depending on
which comes first, and the union is the same. -/
theorem pairStore_make_perm :
    let s := (Operation.promote ⟨7⟩).apply pairStore
    Reachable s ∧ s.arrange [⟨8⟩, ⟨11⟩, ⟨7⟩] = .ok [⟨11⟩, ⟨8⟩] ∧
      s.arrange [⟨7⟩, ⟨8⟩, ⟨11⟩] = .ok [⟨11⟩, ⟨7⟩] ∧
      ∃ a t, SetKind.make .union [⟨8⟩, ⟨11⟩, ⟨7⟩] s = .ok a t ∧
        SetKind.make .union [⟨7⟩, ⟨8⟩, ⟨11⟩] t = .ok a t := by
  intro s
  have hs : Reachable s := .step (.promote ⟨7⟩) reachable_pairStore trivial
  have hvalid : ∀ x ∈ [(⟨8⟩ : Handle), ⟨11⟩, ⟨7⟩], s.contains x := by decide +kernel
  have hperm : [(⟨8⟩ : Handle), ⟨11⟩, ⟨7⟩].Perm [⟨7⟩, ⟨8⟩, ⟨11⟩] := by decide
  obtain ⟨a, t, hrun, hagain⟩ := @Reachable.make_perm s .union _ _ hs hvalid hperm
  have hmade : (match SetKind.make .union [⟨8⟩, ⟨11⟩, ⟨7⟩] s with
      | .ok a t => t.node a
      | .error e _ => .error e) = .ok (.union [⟨11⟩, ⟨8⟩]) := by
    decide +kernel
  rw [hrun] at hmade
  exact ⟨hs, by decide +kernel, by decide +kernel, a, t, hrun, hagain ⟨_, hmade⟩⟩

/-- In a reachable store a union or an intersection depends only on the types that are left after
nested sets were opened and nil was dropped, and on these only up to equality. Two lists of which
the same types are left make equal types, one after the other, and the same handle if no tuple
occurs in what is left. -/
theorem Reachable.make_sameTypes {s : Store} {kind : SetKind} {xs ys : List Handle}
    (hs : Reachable s) (hxs : ∀ x ∈ xs, s.contains x) (hys : ∀ y ∈ ys, s.contains y)
    (hsame : s.SameTypes (s.flat kind xs) (s.flat kind ys)) :
    ∃ a t b u, kind.make xs s = .ok a t ∧ kind.make ys t = .ok b u ∧ u.equal a b = .ok true ∧
      ((∀ x ∈ s.flat kind xs ++ s.flat kind ys, s.IsTupleFree x) → a = b) := by
  have hwf := hs.wellFormed
  rcases hwf.make_run hxs kind with
    ⟨⟨rfl, htop⟩, hrun⟩ | ⟨htop, members, a, t, harranged, hrun, hmakes⟩
  · rcases hwf.make_run hys .union with ⟨-, hrun'⟩ | ⟨htop', -⟩
    · exact ⟨.top, s, .top, s, hrun, hrun', s.equal_self .top, fun _ => rfl⟩
    · exact absurd (hwf.top_mem_of_sameTypes hys hsame htop) (htop' rfl)
  · have ht := hmakes.grows.wellFormed hwf
    rcases ht.make_run (fun y hy => hmakes.grows.contains (hys y hy)) kind with
      ⟨⟨rfl, htop'⟩, -⟩ | ⟨-, members', b, u, harranged', hrun', hmakes'⟩
    · exact absurd (hwf.top_mem_of_sameTypes hxs hsame.symm htop') (htop rfl)
    rw [hmakes.grows.flat_eq hys] at harranged'
    obtain ⟨hequal, hhandle⟩ := hwf.makes_sameTypes (hwf.contains_of_flat hxs)
      (hwf.contains_of_flat hys) hsame harranged hmakes harranged' hmakes'
    exact ⟨a, t, b, u, hrun, hrun', hequal, hhandle⟩

/-- A nested union and a promoted tuple against the members of the union, repeated and with nil, and
the array type that the tuple stands for. Without the tuple the handle is the same. -/
theorem pairStore_make_sameTypes :
    let s := (Operation.promote ⟨7⟩).apply pairStore
    Reachable s ∧ s.flat .union [⟨9⟩, ⟨7⟩] = [⟨5⟩, ⟨6⟩, ⟨7⟩] ∧
      s.flat .union [⟨10⟩, .nil, ⟨6⟩, ⟨5⟩, ⟨6⟩] = [⟨10⟩, ⟨6⟩, ⟨5⟩, ⟨6⟩] ∧
      (∃ a t b u, SetKind.make .union [⟨9⟩, ⟨7⟩] s = .ok a t ∧
        SetKind.make .union [⟨10⟩, .nil, ⟨6⟩, ⟨5⟩, ⟨6⟩] t = .ok b u ∧ u.equal a b = .ok true) ∧
      ∃ a t u, SetKind.make .union [⟨9⟩, ⟨10⟩] s = .ok a t ∧
        SetKind.make .union [⟨10⟩, .nil, ⟨6⟩, ⟨5⟩, ⟨6⟩] t = .ok a u := by
  intro s
  have hs : Reachable s := .step (.promote ⟨7⟩) reachable_pairStore trivial
  have hnested : ∀ x ∈ [(⟨9⟩ : Handle), ⟨7⟩], s.contains x := by decide +kernel
  have harray : ∀ x ∈ [(⟨9⟩ : Handle), ⟨10⟩], s.contains x := by decide +kernel
  have hspread : ∀ y ∈ [(⟨10⟩ : Handle), .nil, ⟨6⟩, ⟨5⟩, ⟨6⟩], s.contains y := by decide +kernel
  have hsame : s.SameTypes (s.flat .union [⟨9⟩, ⟨7⟩])
      (s.flat .union [⟨10⟩, .nil, ⟨6⟩, ⟨5⟩, ⟨6⟩]) := by
    decide +kernel
  have hsame' : s.SameTypes (s.flat .union [⟨9⟩, ⟨10⟩])
      (s.flat .union [⟨10⟩, .nil, ⟨6⟩, ⟨5⟩, ⟨6⟩]) := by
    decide +kernel
  obtain ⟨a, t, b, u, hrun, hrun', hequal, -⟩ := Reachable.make_sameTypes hs hnested hspread hsame
  obtain ⟨a', t', b', u', hfirst, hsecond, -, hhandle⟩ :=
    Reachable.make_sameTypes hs harray hspread hsame'
  obtain rfl : a' = b' := hhandle (by decide +kernel)
  exact ⟨hs, by decide +kernel, by decide +kernel, ⟨a, t, b, u, hrun, hrun', hequal⟩,
    a', t', u', hfirst, hsecond⟩

end GradualTypes
