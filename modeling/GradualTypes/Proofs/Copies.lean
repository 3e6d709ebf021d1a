import GradualTypes.Proofs.Composition
import GradualTypes.Proofs.Sharing
import GradualTypes.Proofs.TupleStates

/-!
Copies of tuples. Substitution forms every tuple of a type again, and the copy is new and has no
bounds. The copies that are put in a union or an intersection are not always the ones that the
result holds: a set that is equal to an older one is that older one, with the tuples it was made of.
So a tuple in an instance is a copy or stands in a set that was there before. Above the sets there
are copies only.
-/

namespace GradualTypes

namespace Store

variable {s t u : Store} {a b c h r x y z : Handle} {types : List Handle} {kind : SetKind}
  {subst : Substitution}

section Occurrence

/-- `b` is `a` itself or is found below it without entering a union or an intersection. -/
inductive OccursPlainly (s : Store) : Handle → Handle → Prop where
  | self (a : Handle) : OccursPlainly s a a
  | part {a b c : Handle} (hpart : s.HasPart a b)
      (hplain : ∀ kind members, s.node a ≠ .ok (SetKind.node kind members))
      (hrest : OccursPlainly s b c) : OccursPlainly s a c

def InSet (s : Store) (x : Handle) : Prop :=
  ∃ h kind members, s.node h = .ok (SetKind.node kind members) ∧ s.Occurs h x

theorem OccursPlainly.occurs (hab : s.OccursPlainly a b) : s.Occurs a b := by
  induction hab with
  | self a => exact .self a
  | part hpart _ _ ih => exact .part hpart ih

private theorem IsTuple.kind_eq {slot : Slot} (htuple : s.IsTuple h)
    (hslot : s.slot? h = some slot) : slot.node.kind = .tuple := by
  obtain ⟨params, digest, entry, traits, htuple⟩ := htuple
  rw [hslot] at htuple
  cases htuple
  rfl

/-- No tuple occurs in a type without tuples. -/
theorem WellFormed.not_isTuple_of_occurs (hs : s.WellFormed) (ha : s.IsTupleFree a)
    (hab : s.Occurs a b) : ¬ s.IsTuple b := by
  induction hab with
  | self a =>
    rintro ⟨params, digest, entry, traits, htuple⟩
    obtain ⟨slot, hslot, hentry, -⟩ := hs.slot_of_tupleFree ha
    rw [htuple] at hslot
    cases hslot
    cases hentry
  | part hpart _ ih =>
    obtain ⟨slot, hslot, -, hparts⟩ := hs.slot_of_tupleFree ha
    obtain ⟨node, hnode, hb⟩ := hpart
    rw [node_of_slot hslot] at hnode
    cases hnode
    exact ih (hparts _ hb)

section Growth

variable (hst : s.Retains t) (hs : s.Linked)
include hst hs

private theorem hasPart_before (ha : s.contains a) (hab : t.HasPart a b) :
    s.HasPart a b ∧ s.contains b := by
  obtain ⟨slot, hslot⟩ := exists_slot ha
  obtain ⟨node, hnode, hb⟩ := hab
  rw [node_of_slot (hst.slots hslot)] at hnode
  cases hnode
  exact ⟨⟨_, node_of_slot hslot, hb⟩,
    hs.contains_of_refs hslot (mem_refs_of_mem_parts hb)⟩

/-- What occurs in an old type occurred in it before. -/
private theorem occurs_before (ha : s.contains a) (hab : t.Occurs a b) : s.Occurs a b := by
  induction hab with
  | self a => exact .self a
  | part hpart _ ih =>
    obtain ⟨hpart, hb⟩ := hasPart_before hst hs ha hpart
    exact .part hpart (ih hb)

private theorem occursPlainly_before (ha : s.contains a) (hab : t.OccursPlainly a b) :
    s.OccursPlainly a b := by
  induction hab with
  | self a => exact .self a
  | part hpart hplain _ ih =>
    obtain ⟨hpart, hb⟩ := hasPart_before hst hs ha hpart
    exact .part hpart (fun kind members hnode => hplain kind members (hst.node_eq hnode)) (ih hb)

omit hs in
private theorem isTuple_before (ha : s.contains a) (htuple : t.IsTuple a) : s.IsTuple a := by
  obtain ⟨slot, hslot⟩ := exists_slot ha
  obtain ⟨params, digest, entry, traits, htuple⟩ := htuple
  rw [hst.slots hslot] at htuple
  cases htuple
  exact ⟨params, digest, entry, traits, hslot⟩

end Growth

end Occurrence

section Copies

/-- All old tuples that occur in a type stand in old sets. -/
def Borrows (s t : Store) (y : Handle) : Prop :=
  ∀ x, t.Occurs y x → t.IsTuple x → s.contains x → s.InSet x

/-- All new types borrow old tuples from old sets only. -/
def Clean (s t : Store) : Prop :=
  ∀ y, t.contains y → ¬ s.contains y → s.Borrows t y

/-- What substitution makes of a type: old tuples stand in old sets, and above sets there are none.
A set of tuples has two members that are not equal, so it does not collapse to one of them. -/
structure Copies (s t : Store) (y : Handle) : Prop where
  contains : t.contains y
  borrows : s.Borrows t y
  fresh : ∀ x, t.OccursPlainly y x → t.IsTuple x → ¬ s.contains x
  varied : ∀ {kind members}, t.node y = .ok (SetKind.node kind members) →
    t.IsTupleFree y ∨ ∃ a ∈ members, ∃ b ∈ members, t.equal a b = .ok false

section Rules

private theorem Borrows.grows (hst : t.Grows u) (ht : t.WellFormed) (hy : t.contains y)
    (hborrows : s.Borrows t y) : s.Borrows u y := by
  intro x hx htuple hold
  have hx' := occurs_before hst.toRetains ht.linked hy hx
  exact hborrows x hx' (isTuple_before hst.toRetains (hx'.contains ht.linked hy) htuple) hold

/-- While the store grows an instance stays as it is. -/
theorem Copies.grows (hst : t.Grows u) (ht : t.WellFormed) (hy : s.Copies t y) :
    s.Copies u y := by
  refine ⟨hst.contains hy.contains, hy.borrows.grows hst ht hy.contains, fun x hx htuple => ?_,
    fun {kind members} hnode => ?_⟩
  · have hx' := occursPlainly_before hst.toRetains ht.linked hy.contains hx
    exact hy.fresh x hx' (isTuple_before hst.toRetains
      (hx'.occurs.contains ht.linked hy.contains) htuple)
  · obtain ⟨⟨node, traits⟩, hslot⟩ := exists_slot hy.contains
    rw [node_of_slot (hst.slots hslot)] at hnode
    cases hnode
    refine (hy.varied (node_of_slot hslot)).imp hst.toRetains.isTupleFree ?_
    rintro ⟨a, ha, b, hb, hne⟩
    have hmembers := ht.linked.contains_of_members hslot
    exact ⟨a, ha, b, hb, (hst.equal_eq ht (hmembers a ha) (hmembers b hb)).trans hne⟩

/-- A type without tuples has nothing to copy. -/
theorem Copies.of_tupleFree (ht : t.WellFormed) (hy : t.IsTupleFree y) : s.Copies t y where
  contains := ht.contains_of_tupleFree hy
  borrows _ hx htuple := absurd htuple (ht.not_isTuple_of_occurs hy hx)
  fresh _ hx htuple := absurd htuple (ht.not_isTuple_of_occurs hy hx.occurs)
  varied _ := .inl hy

/-- A type that is no set is a copy if its parts are, and it is new if it is a tuple. -/
private theorem Copies.of_parts {node : Node} {traits : Traits}
    (hslot : t.slot? y = some ⟨node, traits⟩)
    (hset : ∀ kind members, node ≠ SetKind.node kind members) (hself : t.IsTuple y → ¬ s.contains y)
    (hparts : ∀ z ∈ node.parts, s.Copies t z) : s.Copies t y := by
  have hpart : ∀ {z}, t.HasPart y z → s.Copies t z := by
    rintro z ⟨node', hnode, hz⟩
    rw [node_of_slot hslot] at hnode
    cases hnode
    exact hparts z hz
  refine ⟨contains_of_slot hslot, fun x hx htuple hold => ?_, fun x hx htuple => ?_,
    fun {kind members} hnode => ?_⟩
  · cases hx with
    | self => exact absurd hold (hself htuple)
    | part hz hx => exact (hpart hz).borrows x hx htuple hold
  · cases hx with
    | self => exact hself htuple
    | part hz _ hx => exact (hpart hz).fresh x hx htuple
  · rw [node_of_slot hslot] at hnode
    cases hnode
    exact absurd rfl (hset kind members)

private theorem Copies.of_leaf {slot : Slot} (hslot : t.slot? y = some slot)
    (hleaf : slot.node.kind.isLeaf) : s.Copies t y := by
  obtain ⟨node, traits⟩ := slot
  refine .of_parts hslot ?_ ?_ ?_
  · rintro (_ | _) members rfl <;> cases hleaf
  · intro htuple
    rw [htuple.kind_eq hslot] at hleaf
    cases hleaf
  · cases node <;> first | exact fun z hz => absurd hz List.not_mem_nil | cases hleaf

end Rules

section Sets

variable (ht : t.WellFormed) (htypes : ∀ z ∈ types, s.Copies t z)
include ht htypes

/-- What types contribute to a set borrows as they do. -/
private theorem borrows_of_flat (hx : x ∈ t.flat kind types) : s.Borrows t x := by
  have hvalid : ∀ z ∈ types, t.contains z := fun z hz => (htypes z hz).contains
  obtain ⟨z, hz, -, hspread⟩ := (ht.mem_flat_iff hvalid).mp hx
  rcases spread_cases kind (hvalid z hz) with ⟨members, traits, hslot, hmembers⟩ | hself
  · have hpart : t.HasPart z x := by
      refine ⟨_, node_of_slot hslot, ?_⟩
      rw [hmembers] at hspread
      cases kind <;> exact hspread
    exact fun w hw => (htypes z hz).borrows w (.part hpart hw)
  · rw [hself] at hspread
    rw [List.mem_singleton.mp hspread]
    exact (htypes z hz).borrows

/-- If only one type is left of copies in a set, it is a copy itself. -/
private theorem copies_of_single (harranged : t.Arranged (t.flat kind types) [x]) :
    s.Copies t x := by
  have hvalid : ∀ z ∈ types, t.contains z := fun z hz => (htypes z hz).contains
  have hflat : ∀ z ∈ t.flat kind types, t.contains z := ht.contains_of_flat hvalid
  obtain ⟨z, hz, hnil, hspread⟩ :=
    (ht.mem_flat_iff hvalid).mp (harranged.subset List.mem_cons_self)
  rcases spread_cases kind (hvalid z hz) with ⟨members, traits, hslot, hmembers⟩ | hself
  · rw [hmembers] at hspread
    rcases (htypes z hz).varied (node_of_slot hslot) with hfree | ⟨a, ha, b, hb, hne⟩
    · have hpart : x ∈ (kind.node members).parts := by cases kind <;> exact hspread
      obtain ⟨slot, hslot', -, hparts⟩ := ht.slot_of_tupleFree hfree
      rw [hslot] at hslot'
      cases hslot'
      exact .of_tupleFree ht (hparts x hpart)
    · -- both members are left, so they are equal to the one type and to each other
      have hsame : ∀ {w}, w ∈ members → t.contains w ∧ t.Same x w := by
        intro w hw
        have hw' : w ∈ t.flat kind types :=
          (ht.mem_flat_iff hvalid).mpr ⟨z, hz, hnil, hmembers ▸ hw⟩
        obtain ⟨y, hy, hyw, -⟩ := harranged.first w hw'
        rw [List.mem_singleton.mp hy] at hyw
        exact ⟨hflat w hw', hyw⟩
      have hx := hflat x (harranged.subset List.mem_cons_self)
      obtain ⟨ha, hxa⟩ := hsame ha
      obtain ⟨hb, hxb⟩ := hsame hb
      have hab := ht.same_trans ha hx hb (ht.same_symm hx ha hxa) hxb
      rw [Same, hne] at hab
      cases hab
  · rw [hself] at hspread
    rw [List.mem_singleton.mp hspread]
    exact htypes z hz

omit htypes in
/-- A set of the same types as two that are not equal has two members that are not equal. -/
private theorem unequal_of_sameTypes {members others : List Handle} (hx : x ∈ members)
    (hy : y ∈ members) (hne : t.equal x y = .ok false) (hmembers : ∀ z ∈ members, t.contains z)
    (hothers : ∀ z ∈ others, t.contains z) (hsame : t.SameTypes others members) :
    ∃ a ∈ others, ∃ b ∈ others, t.equal a b = .ok false := by
  obtain ⟨a, ha, hxa⟩ := hsame.2 x hx
  obtain ⟨b, hb, hyb⟩ := hsame.2 y hy
  obtain ⟨answer, hanswer⟩ := equal_answered ht.linked ht.acyclic (hothers a ha) (hothers b hb)
  cases answer with
  | false => exact ⟨a, ha, b, hb, hanswer⟩
  | true =>
    have hxb := ht.same_trans (hmembers x hx) (hothers a ha) (hothers b hb) hxa hanswer
    have hby := ht.same_symm (hmembers y hy) (hothers b hb) hyb
    have hxy := ht.same_trans (hmembers x hx) (hothers b hb) (hmembers y hy) hxb hby
    rw [Same, hne] at hxy
    cases hxy

/-- A set that is made of copies is a copy: what it borrows it has from an old set. -/
theorem Copies.of_isMadeOf (hst : s.Grows t) (hs : s.WellFormed) (hclean : s.Clean t)
    (hmade : t.IsMadeOf kind types y) : s.Copies t y := by
  have hvalid : ∀ z ∈ types, t.contains z := fun z hz => (htypes z hz).contains
  rcases hmade with ⟨-, rfl⟩ | ⟨-, members, harranged, hstands⟩
  · exact .of_tupleFree ht ht.linked.tupleFree_top.1
  have hmembers : ∀ z ∈ members, t.contains z := fun z hz =>
    ht.contains_of_flat hvalid z (harranged.subset hz)
  rcases members with _ | ⟨x, _ | ⟨x', rest⟩⟩
  · rw [show y = .nil from hstands]
    exact .of_tupleFree ht ht.linked.tupleFree_nil.1
  · rw [show y = x from hstands]
    exact copies_of_single ht htypes harranged
  obtain ⟨others, traits, hslot, hsame⟩ := hstands
  have hy := contains_of_slot hslot
  refine ⟨hy, ?_, fun z hz htuple => ?_, fun {kind' members'} hnode => .inr ?_⟩
  · by_cases hold : s.contains y
    · intro z hz htuple _
      obtain ⟨slot, hslot'⟩ := exists_slot hold
      have hsame := hst.slots hslot'
      rw [hslot] at hsame
      cases hsame
      exact ⟨y, kind, others, node_of_slot hslot', occurs_before hst.toRetains hs.linked hold hz⟩
    · exact hclean y hy hold
  · cases hz with
    | self =>
      have hkind := htuple.kind_eq hslot
      cases kind <;> cases hkind
    | part _ hplain _ => exact absurd (node_of_slot hslot) (hplain kind others)
  · have hunequal : t.equal x x' = .ok false :=
      List.rel_of_pairwise_cons harranged.unequal List.mem_cons_self
    have hothers : others = members' := by
      rw [node_of_slot hslot] at hnode
      cases kind <;> cases kind' <;> cases hnode <;> rfl
    rw [← hothers]
    exact unequal_of_sameTypes ht List.mem_cons_self (List.mem_cons_of_mem _ List.mem_cons_self)
      hunequal hmembers (ht.linked.contains_of_members hslot) hsame

end Sets

section Store

def AddsOver (s : Store) (parts : List Handle) (t : Store) : Prop :=
  t = s ∨ ∃ node traits digest, node.parts ⊆ parts ∧ t = s.allocate node traits digest

private theorem Formed.addsOver {node : Node} (hformed : Formed t node y u) :
    t.AddsOver node.parts u :=
  hformed.grown.imp_right fun ⟨traits, digest, _, hu⟩ =>
    ⟨node, traits, digest, List.Subset.refl _, hu⟩

section Formation

variable (ht : t.WellFormed) (htypes : ∀ z ∈ types, t.contains z)
include ht htypes

private theorem WellFormed.formSet_addsOver (hrun : formSet kind types t = .ok y u) :
    t.AddsOver (t.flat kind types) u := by
  obtain ⟨parts, hparts, hflat⟩ := ht.setParts_eq kind htypes
  have hvalid : ∀ z ∈ t.flat kind types, t.contains z := ht.contains_of_flat htypes
  obtain ⟨members, harrange, harranged⟩ := exists_arranged ht.linked ht.named ht.acyclic hvalid
  rw [← hflat] at harrange
  rw [formSet, bind_run (ask_run hparts), bind_run (ask_run harrange)] at hrun
  have hmembers : ∀ z ∈ members, t.contains z := fun z hz => hvalid z (harranged.subset hz)
  rcases members with _ | ⟨x, _ | ⟨x', rest⟩⟩
  · cases hrun
    exact .inl rfl
  · cases hrun
    exact .inl rfl
  · change internSet kind (x :: x' :: rest) t = .ok y u at hrun
    rcases internSet_run kind ht hmembers with ⟨_, -, hrun'⟩ | ⟨digest, traits, -, -, -, hrun'⟩
    · rw [hrun] at hrun'
      cases hrun'
      exact .inl rfl
    · rw [hrun] at hrun'
      cases hrun'
      refine .inr ⟨_, traits, digest, fun z hz => harranged.subset ?_, rfl⟩
      cases kind <;> exact hz

/-- Forming a set adds at most a set of what the types contribute. -/
theorem WellFormed.make_addsOver (hrun : kind.make types t = .ok y u) :
    t.AddsOver (t.flat kind types) u := by
  cases kind with
  | intersection => exact ht.formSet_addsOver htypes ((intersection_run htypes).symm.trans hrun)
  | union =>
    obtain ⟨answer, hanswer, -⟩ := ht.anyTop_decides_mem htypes
    have hform := (union_run htypes).symm.trans hrun
    rw [formUnion, bind_run (ask_run hanswer)] at hform
    cases answer with
    | true =>
      cases hform
      exact .inl rfl
    | false => exact ht.formSet_addsOver htypes hform

end Formation

/-- A type whose parts borrow from old sets only leaves the store clean. -/
theorem Clean.addsOver {parts : List Handle} (hclean : s.Clean t) (ht : t.WellFormed)
    (htu : t.Grows u) (hparts : ∀ z ∈ parts, t.contains z ∧ s.Borrows t z)
    (hadds : t.AddsOver parts u) : s.Clean u := by
  intro y hy hnew
  by_cases hy' : t.contains y
  · exact (hclean y hy' hnew).grows htu ht hy'
  rcases hadds with rfl | ⟨node, traits, digest, hsubset, rfl⟩
  · exact absurd hy hy'
  obtain ⟨slot, hslot⟩ := exists_slot hy
  obtain hold | ⟨-, rfl⟩ := slot_of_slot_allocate hslot
  · exact absurd (contains_of_slot hold) hy'
  intro x hx htuple hold
  cases hx with
  | self => exact absurd hold hnew
  | part hpart hx =>
    obtain ⟨node', hnode', hz⟩ := hpart
    rw [node_of_slot hslot] at hnode'
    cases hnode'
    obtain ⟨hcontains, hborrows⟩ := hparts _ (hsubset hz)
    exact hborrows.grows htu ht hcontains x hx htuple hold

end Store

section Substitution

/-- Forming a type again from copies of its arguments gives a copy and leaves the store clean. -/
theorem copies_of_reform {shape : Shape} (hs : s.WellFormed) (hst : s.Grows t)
    (hsubst : ∀ z ∈ subst.types, s.IsTupleFree z) (hclean : s.Clean t)
    (hshape : s.shape h = .ok shape) (hlength : types.length = shape.arguments.length)
    (htypes : ∀ z ∈ types, s.Copies t z) (hrun : reform subst h shape types t = .ok y u)
    (htu : t.Grows u) : s.Clean u ∧ s.Copies u y := by
  have ht := hst.wellFormed hs
  have hu := htu.wellFormed ht
  have hvalid : ∀ z ∈ types, t.contains z := fun z hz => (htypes z hz).contains
  have htypes' : ∀ z ∈ types, s.Copies u z := fun z hz => (htypes z hz).grows htu ht
  have hnode : ∀ {node}, Formed t node y u → node.parts = types →
      (∀ kind members, node ≠ SetKind.node kind members) → (u.IsTuple y → ¬ s.contains y) →
        s.Clean u ∧ s.Copies u y := by
    rintro node hformed rfl hset hself
    obtain ⟨traits, hslot⟩ := hformed.slot
    refine ⟨hclean.addsOver ht htu (fun z hz => ?_) hformed.addsOver,
      .of_parts hslot hset hself htypes'⟩
    exact ⟨hvalid z hz, (htypes z hz).borrows⟩
  have hset : ∀ kind : SetKind, kind.make types t = .ok y u → s.Clean u ∧ s.Copies u y := by
    intro kind hrun
    obtain ⟨-, -, hmade⟩ := (ht.make_returns kind hvalid).of_run hrun
    have hclean' : s.Clean u := hclean.addsOver ht htu
      (fun z hz => ⟨ht.contains_of_flat hvalid z hz, borrows_of_flat ht htypes hz⟩)
      (ht.make_addsOver hvalid hrun)
    exact ⟨hclean', .of_isMadeOf hu htypes' (hst.trans htu) hs hclean' hmade⟩
  cases shape with
  | var name =>
    cases hrun
    refine ⟨hclean, ?_⟩
    cases hfind : subst.find? name with
    | some x =>
      exact .of_tupleFree ht (hst.toRetains.isTupleFree (hsubst x (find?_mem_types hfind)))
    | none =>
      obtain ⟨traits, hslot⟩ := slot_of_shape hshape rfl
      exact .of_leaf (hst.slots hslot) rfl
  | generic base params =>
    have hformed := (formGeneric_again hs hst hshape hvalid).of_run hrun
    obtain ⟨traits, hslot⟩ := hformed.slot
    refine hnode hformed rfl (by rintro (_ | _) members <;> simp [SetKind.node]) fun htuple => ?_
    cases htuple.kind_eq hslot
  | promoted array =>
    obtain ⟨x, rfl⟩ := List.length_eq_one_iff.mp hlength
    cases hrun
    exact ⟨hclean, htypes x List.mem_cons_self⟩
  | tuple params =>
    obtain ⟨rfl, digest, hformed⟩ := (formTuple_returns ht hvalid).of_run hrun
    refine hnode hformed rfl (by rintro (_ | _) members <;> simp [SetKind.node]) fun _ hold => ?_
    have hlt := contains_iff.mp hold
    have hle := hst.toRetains.size_le
    exact absurd hlt (Nat.not_lt.mpr hle)
  | union members => exact hset .union ((union_run hvalid).trans hrun)
  | intersection members => exact hset .intersection ((intersection_run hvalid).trans hrun)
  | annotated label inner =>
    obtain ⟨x, rfl⟩ := List.length_eq_one_iff.mp hlength
    have hformed := (formAnnotated_again hs hst hshape (hvalid x List.mem_cons_self)).of_run hrun
    obtain ⟨traits, hslot⟩ := hformed.slot
    refine hnode hformed rfl (by rintro (_ | _) members <;> simp [SetKind.node]) fun htuple => ?_
    cases htuple.kind_eq hslot
  | _ =>
    cases hrun
    obtain ⟨traits, hslot⟩ := slot_of_shape hshape rfl
    exact ⟨hclean, .of_leaf (hst.slots hslot) rfl⟩

/-- A new tuple of a grown store has no bounds. -/
theorem Grows.unbounded_of_new (hst : s.Grows t) (hs : s.WellFormed) (htuple : t.IsTuple x)
    (hnew : ¬ s.contains x) : t.tupleState? x = some .unbounded := by
  have hadded := hst.added
  clear hst
  induction hadded with
  | refl =>
    obtain ⟨_, _, _, _, hslot⟩ := htuple
    exact absurd (contains_of_slot hslot) hnew
  | @tail u t hsu hadds ih =>
    have hforms : Forms s u := hsu.lift id fun _ _ => .inl
    have hu := hforms.steps.evolves.wellFormed hs
    obtain ⟨node, traits, digest, hadmits, rfl⟩ := hadds
    obtain ⟨params, own, entry, traits', hslot⟩ := htuple
    rw [hu.linked.tupleState?_allocate hadmits]
    rcases slot_of_slot_allocate hslot with hold | ⟨rfl, hnode⟩
    · have hne : x ≠ ⟨u.size⟩ := by
        rintro rfl
        exact lt_irrefl _ (contains_iff.mp (contains_of_slot hold))
      rw [if_neg hne]
      exact ih ⟨params, own, entry, traits', hold⟩
    · cases hnode
      rw [if_pos rfl]
      rfl

/-- Substitution copies the tuples of a type. -/
theorem WellFormed.instantiate_copies (hs : s.WellFormed) (hh : s.contains h)
    (hsubst : ∀ z ∈ subst.types, s.IsTupleFree z) :
    Returns (instantiate h subst) s fun r t => s.Grows t ∧ s.Copies t r := by
  have hvalid : ∀ z ∈ subst.types, s.contains z := fun z hz =>
    hs.contains_of_tupleFree (hsubst z hz)
  have hrank := hs.linked.rank_le_size h
  have hclean : s.Clean s := fun y hy hnew => absurd hy hnew
  rw [Returns, instantiate_run hh hvalid]
  refine (@instantiateWithin_invariant s s subst h (fun _ _ y t => s.Copies t y) s.Clean hs hvalid
    ?_ ?_ ?_ _ (.refl s) hclean hh (by omega)).mono fun r t hpost => ⟨hpost.1, hpost.2.2.2⟩
  · intro _ _ y t u hst htu _ hy
    exact hy.grows htu (hst.wellFormed hs)
  · intro _ x t hst _ _ hinert
    exact .of_tupleFree (hst.wellFormed hs) (hst.toRetains.isTupleFree hinert.isTupleFree)
  · intro _ x shape types y t u hst hclean hshape _ harguments hrun htu _
    refine copies_of_reform hs hst hsubst hclean hshape harguments.length_eq.symm ?_ hrun htu
    intro z hz
    obtain ⟨_, -, hcopies⟩ := exists_mem_of_forall₂ harguments.flip hz
    exact hcopies

end Substitution

end Copies

end Store

open Store in
/-- In a reachable store types without tuples can be substituted in every type, and the instance
shows it with their views in the place of variables. Every tuple that occurs in the instance is one
that substitution has just made, and has no bounds, or it stands in a union or an intersection that
was there before. Those that are found without entering a set are all new. -/
theorem Reachable.instantiate_tuples {s : Store} {h : Handle} {subst : Substitution}
    (hs : Reachable s) (hh : s.contains h) (hsubst : ∀ z ∈ subst.types, s.IsTupleFree z) :
    Returns (instantiate h subst) s fun r t =>
      t.view r = (s.view h).substitute (s.bound subst) ∧
      (∀ x, t.Occurs r x → t.IsTuple x →
        ¬ s.contains x ∧ t.tupleState? x = some .unbounded ∨ s.InSet x) ∧
      ∀ x, t.OccursPlainly r x → t.IsTuple x →
        ¬ s.contains x ∧ t.tupleState? x = some .unbounded := by
  have hwf := hs.wellFormed
  obtain ⟨r, t, hrun, hst, hcopies⟩ := hwf.instantiate_copies hh hsubst
  obtain ⟨-, -, hview⟩ := (hwf.instantiate_view hh fun z hz =>
    hwf.contains_of_tupleFree (hsubst z hz)).of_run hrun
  refine ⟨r, t, hrun, hview, fun x hx htuple => ?_, fun x hx htuple => ?_⟩
  · by_cases hold : s.contains x
    · exact .inr (hcopies.borrows x hx htuple hold)
    · exact .inl ⟨hold, hst.unbounded_of_new hwf htuple hold⟩
  · have hnew := hcopies.fresh x hx htuple
    exact ⟨hnew, hst.unbounded_of_new hwf htuple hnew⟩

/-- Two tuples of integers of which one was found below the other, its union with a class, and a
pair of a variable and that union. -/
def lentStore : Store :=
  .after [.nominal "Integer", .nominal "String", .tuple [⟨5⟩], .tuple [⟨5⟩], .subtype ⟨7⟩ ⟨8⟩,
    .union [⟨7⟩, ⟨6⟩], .var "T", .tuple [⟨10⟩, ⟨9⟩]]

/-- The instance of the pair is a new tuple without bounds. The old tuple that occurs in it stands
in the union, which was there before. -/
theorem lentStore_instantiate_tuples :
    let subst : Substitution := ⟨[(⟨4, 0⟩, ⟨5⟩)]⟩
    let t := (Operation.instantiate ⟨11⟩ subst).apply lentStore
    lentStore.names.find? "T" = some ⟨4, 0⟩ ∧ lentStore.contains ⟨11⟩ ∧
      (∀ z ∈ subst.types, lentStore.IsTupleFree z) ∧
      Store.instantiate ⟨11⟩ subst lentStore = .ok ⟨13⟩ t ∧
      (¬ lentStore.contains ⟨13⟩ ∧ t.tupleState? ⟨13⟩ = some .unbounded) ∧
      t.Occurs ⟨13⟩ ⟨7⟩ ∧ lentStore.contains ⟨7⟩ ∧ lentStore.InSet ⟨7⟩ := by
  intro subst t
  have hs : Reachable lentStore := .after (by decide)
  have hvalid : lentStore.contains ⟨11⟩ := by decide +kernel
  have hfree : ∀ z ∈ subst.types, lentStore.IsTupleFree z := by decide +kernel
  have hold : lentStore.contains ⟨7⟩ := by decide +kernel
  have hrun : Store.instantiate ⟨11⟩ subst lentStore = .ok ⟨13⟩ t :=
    Operation.run_eq_apply rfl (by decide +kernel)
  have htuples : t.IsTuple ⟨13⟩ ∧ t.IsTuple ⟨7⟩ := by
    constructor <;> apply Store.IsFixed.isTuple <;> decide +kernel
  have hunion : t.HasPart ⟨13⟩ ⟨9⟩ := ⟨t.nodeAt ⟨13⟩, by decide +kernel, by decide +kernel⟩
  have hmember : t.HasPart ⟨9⟩ ⟨7⟩ := ⟨t.nodeAt ⟨9⟩, by decide +kernel, by decide +kernel⟩
  have hoccurs : t.Occurs ⟨13⟩ ⟨7⟩ := .part hunion (.part hmember (.self _))
  obtain ⟨-, hall, hplain⟩ :=
    (Reachable.instantiate_tuples hs hvalid hfree).of_run hrun
  refine ⟨by decide +kernel, hvalid, hfree, hrun, hplain _ (.self _) htuples.1, hoccurs, hold, ?_⟩
  exact (hall _ hoccurs htuples.2).resolve_left fun hnew => hnew.1 hold

/-- The union is its own instance by the empty substitution: the copy of its tuple is equal to the
tuple, so the union is found again. The tuple in it is old and has a bound. -/
theorem lentStore_union_lends :
    let t := (Operation.instantiate ⟨9⟩ .empty).apply lentStore
    Reachable lentStore ∧ Store.instantiate ⟨9⟩ .empty lentStore = .ok ⟨9⟩ t ∧
      t.Occurs ⟨9⟩ ⟨7⟩ ∧ t.IsTuple ⟨7⟩ ∧ lentStore.contains ⟨7⟩ ∧
      t.tupleState? ⟨7⟩ = some (.fixed [⟨8⟩] []) := by
  intro t
  have hmember : t.HasPart ⟨9⟩ ⟨7⟩ := ⟨t.nodeAt ⟨9⟩, by decide +kernel, by decide +kernel⟩
  have htuple : t.IsTuple ⟨7⟩ := Store.IsFixed.isTuple (by decide +kernel)
  exact ⟨.after (by decide), Operation.run_eq_apply rfl (by decide +kernel),
    .part hmember (.self _), htuple, by decide +kernel, by decide +kernel⟩

end GradualTypes
