import GradualTypes.Proofs.Restoration

/-!
Tuples that are compared by their elements. A fixed tuple whose elements hold no tuples is below
another one exactly if it is so element by element, and all that changes is that both remember it.
It is below an array type exactly if its own array type is, to which it is promoted first: an array
type is below another if their elements are below each other, so each element of the tuple has to be
below that of the array type, and this one below the union of the elements. Types without tuples are
compared alike in all stores in between, since these have the same classes.
-/

namespace GradualTypes

namespace Store

variable {s t : Store} {a b h : Handle} {left right shape : Shape}

section Kept

variable (hs : s.WellFormed) (hst : s.Retains t)
include hs hst

/-- A type without tuples keeps its shape. -/
theorem WellFormed.shape_of_retained (ha : s.IsTupleFree a) (hshape : s.shape a = .ok shape) :
    t.shape a = .ok shape := by
  obtain ⟨slot, hslot, hentry, -⟩ := hs.slot_of_tupleFree ha
  obtain ⟨slot', hslot', hof⟩ := shape_eq_ok_iff.mp hshape
  rw [hslot] at hslot'
  cases hslot'
  rw [Node.shape?_eq_some_iff hentry] at hof
  exact shape_eq_ok_iff.mpr ⟨slot, hst.slots hslot, (Node.shape?_eq_some_iff hentry).mpr hof⟩

theorem WellFormed.belowClass_of_retained (hhierarchy : t.hierarchy = s.hierarchy)
    (hleft : s.shape a = .ok left) (ancestor : Name) :
    t.belowClass left ancestor = s.belowClass left ancestor := by
  have hclass : t.classOf? left = s.classOf? left := by
    cases left with
    | generic base params =>
      obtain ⟨slot, hslot⟩ := exists_slot (hs.descends hleft List.mem_cons_self).1
      rw [classOf?, classOf?, node_of_slot hslot, node_of_slot (hst.slots hslot)]
    | _ => rfl
  rw [belowClass, belowClass, hclass, hhierarchy]

omit hs hst in
private theorem directFinding_nominal {yes no : Handle → Handle → Prop} {ancestor : Name}
    {answer : Bool} : s.DirectFinding yes no left (.nominal ancestor) answer ↔
      s.belowClass left ancestor = .ok answer := by
  cases left <;> rfl

omit hs hst in
private theorem directFinding_congr {yes yes' no no' : Handle → Handle → Prop}
    (hclass : ∀ ancestor, t.belowClass left ancestor = s.belowClass left ancestor)
    (hyes : ∀ x ∈ left.parts, ∀ y ∈ right.parts,
      (yes' x y ↔ yes x y) ∧ (yes' y x ↔ yes y x)) :
    t.DirectFinding yes' no' left right true ↔ s.DirectFinding yes no left right true := by
  cases right with
  | nominal ancestor => rw [directFinding_nominal, directFinding_nominal, hclass]
  | generic base' bs =>
    cases left with
    | generic base as =>
      -- the bases are the first parts, and the parameters are compared both ways
      have hboth : ∀ x ∈ as, ∀ y ∈ bs, (yes' x y ↔ yes x y) ∧ (yes' y x ↔ yes y x) :=
        fun x hx y hy =>
          hyes x (List.mem_cons_of_mem base hx) y (List.mem_cons_of_mem base' hy)
      refine and_congr_right fun _ => ⟨fun h => ?_, fun h => ?_⟩
      · exact forall₂_imp_of_mem h fun x hx y hy hxy =>
          hxy.imp (hboth x hx y hy).1.mp (hboth x hx y hy).2.mp
      · exact forall₂_imp_of_mem h fun x hx y hy hxy =>
          hxy.imp (hboth x hx y hy).1.mpr (hboth x hx y hy).2.mpr
    | _ => rfl
  | _ => cases left <;> rfl

omit hs hst in
/-- What a rule asks for is the same in two stores if its questions are answered alike. -/
private theorem belowBy_congr (rule : Rule) (hleft : s.shape a = .ok left)
    (hright : s.shape b = .ok right)
    (hclass : ∀ ancestor, t.belowClass left ancestor = s.belowClass left ancestor)
    (hasks : ∀ {x y}, s.Asks a b x y → (t.Below x y ↔ s.Below x y)) :
    t.BelowBy rule a left b right ↔ s.BelowBy rule a left b right := by
  have hl : ∀ x ∈ left.parts, s.RefersTo a x := fun x hx => ⟨left, hleft, hx⟩
  have hr : ∀ y ∈ right.parts, s.RefersTo b y := fun y hy => ⟨right, hright, hy⟩
  cases rule with
  | allLeft => exact forall₂_congr fun x hx => hasks (.left (hl x hx))
  | allRight => exact forall₂_congr fun y hy => hasks (.right (hr y hy))
  | anyRight => exact exists_congr fun y => and_congr_right fun hy => hasks (.right (hr y hy))
  | anyLeft => exact exists_congr fun x => and_congr_right fun hx => hasks (.left (hl x hx))
  | direct =>
    rw [BelowBy, BelowBy]
    exact directFinding_congr hclass fun x hx y hy =>
      ⟨hasks (.both (hl x hx) (hr y hy)), hasks (.swapped (hl x hx) (hr y hy))⟩

/-- Types without tuples are compared alike in a later store with the same classes. -/
theorem WellFormed.below_of_retained (ht : t.WellFormed) (hhierarchy : t.hierarchy = s.hierarchy)
    (ha : s.IsTupleFree a) (hb : s.IsTupleFree b) : t.Below a b ↔ s.Below a b := by
  induction hn : a.index + b.index using Nat.strong_induction_on generalizing a b with
  | _ n ih =>
    obtain ⟨left, hleft, -⟩ := hs.shape_of_tupleFree ha
    obtain ⟨right, hright, -⟩ := hs.shape_of_tupleFree hb
    rw [ht.below_iff (hst.isTupleFree ha) (hst.isTupleFree hb) (hs.shape_of_retained hst ha hleft)
      (hs.shape_of_retained hst hb hright), hs.below_iff ha hb hleft hright]
    refine or_congr_right (belowBy_congr _ hleft hright
      (hs.belowClass_of_retained hst hhierarchy hleft) fun {x y} hxy => ?_)
    obtain ⟨hx, hy, hlt⟩ := hs.tupleFree_of_asks ha hb hxy
    exact ih _ (by omega) hx hy rfl

end Kept

section Recording

private theorem withState_frame (s : Store) (h : Handle) (change : TupleState → TupleState) :
    s.withState h change = { s with states := (s.withState h change).states } ∧
      (s.withState h change).states.size = s.states.size := by
  rcases withState_cases s h change with heq | ⟨slot, entry, -, -, heq⟩
  · rw [heq]
    exact ⟨rfl, rfl⟩
  · rw [heq]
    exact ⟨rfl, Array.size_modify⟩

/-- Recording a bound changes nothing but the states of tuples. -/
private theorem recorded_frame (s : Store) (lower upper : Handle) :
    s.recorded lower upper = { s with states := (s.recorded lower upper).states } ∧
      (s.recorded lower upper).states.size = s.states.size := by
  obtain ⟨hlower, hsize⟩ := withState_frame s lower (·.addUpper upper)
  obtain ⟨hupper, hsize'⟩ := withState_frame (s.withState lower (·.addUpper upper)) upper
    (·.addLower lower)
  refine ⟨?_, hsize'.trans hsize⟩
  calc s.recorded lower upper
      = { s.withState lower (·.addUpper upper) with
          states := (s.recorded lower upper).states } := hupper
    _ = { s with states := (s.recorded lower upper).states } := by rw [hlower]

end Recording

section Arrays

variable {base base' tuple element array : Handle} {params others : List Handle} {u : Store}
  (hs : s.WellFormed)
include hs

/-- Generic types without tuples are compared by their bases and both ways by their parameters. -/
theorem WellFormed.below_generic_iff (ha : s.IsTupleFree a) (hb : s.IsTupleFree b)
    (hleft : s.shape a = .ok (.generic base params))
    (hright : s.shape b = .ok (.generic base' others)) :
    s.Below a b ↔
      base = base' ∧ List.Forall₂ (fun x y => s.Below x y ∧ s.Below y x) params others := by
  rw [hs.below_iff ha hb hleft hright]
  refine ⟨?_, .inr⟩
  rintro ((rfl | htop | hnil) | hby)
  · rw [hleft] at hright
    cases hright
    refine ⟨rfl, List.forall₂_same.mpr fun x hx => ?_⟩
    have hx := hs.below_refl
      (hs.tupleFree_of_refersTo ha ⟨_, hleft, List.mem_cons_of_mem base hx⟩).1
    exact ⟨hx, hx⟩
  · obtain ⟨_, hslot⟩ := slot_of_shape hright rfl
    cases (hs.linked.special_iff hslot).1.mpr htop
  · obtain ⟨_, hslot⟩ := slot_of_shape hleft rfl
    cases (hs.linked.special_iff hslot).2.mpr hnil
  · exact hby

private theorem WellFormed.depth_lt_generic (hshape : s.shape a = .ok (.generic base params))
    (hb : b ∈ params) : s.depth b < s.depth a := by
  rw [depth_eq hs.linked hs.acyclic hshape]
  exact lt_deepest (List.mem_cons_of_mem base hb)

private theorem WellFormed.tupleFree_of_generic (hshape : s.shape a = .ok (.generic base params))
    (hparams : ∀ p ∈ params, s.IsTupleFree p) : s.IsTupleFree a := by
  obtain ⟨_, hslot⟩ := slot_of_shape hshape rfl
  exact (hs.flagged.isTupleFree_iff hslot).mpr ⟨Traits.hasTuple_none, hparams⟩

omit hs in
private theorem array_run (helement : s.contains element) :
    Store.array element s = formArray element s := by
  rw [Store.array, bind_run (ask_run (checkParam_eq_ok_iff.mpr helement))]

/-- A tuple without bounds that is compared with an array type is promoted, and then its own array
type is compared with the other. -/
theorem WellFormed.subtype_array_run {v : Store} {answer : Bool}
    (hshape : s.shape tuple = .ok (.tuple params)) (hlower : s.lowerBounds tuple = [])
    (hupper : s.upperBounds tuple = []) (hunion : formUnion params s = .ok element t)
    (harray : formArray element t = .ok array u) (ha : s.shape a = .ok (.generic .arrayClass [b]))
    (hrun : Store.subtype array a (u.promotedTo tuple array) = .ok answer v) :
    Store.subtype tuple a s = .ok answer v := by
  set m := u.promotedTo tuple array
  have hmove : Moves s m := .single (.promotion hshape hunion harray)
  have hm := hmove.settles hs
  have hcontains := Linked.contains_of_shape ha
  obtain ⟨_, hslot⟩ := slot_of_shape ha rfl
  have hpromote : promoteBy (subtypeWithin m.searchDepth) tuple s = .ok true m := by
    rw [promoteBy_run _ hshape hunion harray, hlower, hupper]
    rfl
  have hbelow : subtypeWithin m.searchDepth tuple a m = .ok answer v := by
    obtain ⟨answer', v', htuple, harray'⟩ := (hm.wellFormed.subtype_promoted
      (shape_of_promotion hs hshape hunion harray).1 (hm.contains hcontains)).1
    rw [← subtype_run, htuple, ← harray', hrun]
  have hwithin : subtypeWithin (m.searchDepth + 1) tuple a s = .ok answer v := by
    rw [subtypeWithin, belowStep_of_tuple hshape (canonical_of_shape ha (by simp)),
      hs.linked.belowTuple_of_array hslot, bind_run hpromote, bind_run hbelow, Bool.and_true]
    rfl
  exact subtype_eq_of_within hs (Linked.contains_of_shape hshape) hcontains hwithin

end Arrays

section Promotion

variable {tuple element array : Handle} {params : List Handle} {u : Store} (hs : s.WellFormed)
  (hnone : ∀ x array, s.shape x ≠ .ok (.promoted array))
  (hshape : s.shape tuple = .ok (.tuple params)) (hparams : ∀ p ∈ params, s.IsTupleFree p)
  (hunion : formUnion params s = .ok element t) (harray : formArray element t = .ok array u)
include hs hnone hparams hunion

/-- As long as no tuple is promoted, the union of elements without tuples holds none either. -/
theorem WellFormed.element_tupleFree :
    s.Grows t ∧ t.IsMadeOf .union params element ∧ t.IsTupleFree element := by
  have hcontains : ∀ p ∈ params, s.contains p := fun p hp => hs.contains_of_tupleFree (hparams p hp)
  obtain ⟨hst, -, hmade⟩ :=
    (hs.make_returns .union hcontains).of_run ((union_run hcontains).trans hunion)
  refine ⟨hst, hmade, (hst.wellFormed hs).tupleFree_of_isMadeOf
    (fun p hp => hst.toRetains.isTupleFree (hparams p hp)) (fun x array hpromoted => ?_) hmade⟩
  exact hnone x array (hst.promoted_before hs hpromoted)

include hshape harray

omit hnone hparams in
private theorem WellFormed.promotedTo_kept : (u.promotedTo tuple array).WellFormed ∧
    t.Retains (u.promotedTo tuple array) ∧
      (u.promotedTo tuple array).hierarchy = t.hierarchy := by
  obtain ⟨_, -, -, hformed⟩ := promotion_formed hs hshape hunion harray
  refine ⟨(Moves.settles (.single (.promotion hshape hunion harray)) hs).wellFormed,
    hformed.grows.toRetains.trans (retains_promotedTo u tuple array), ?_⟩
  exact (hierarchy_withState _).trans hformed.grows.hierarchy_eq

/-- The tuple is the only one that is promoted then. -/
theorem WellFormed.eq_of_promotedTo {x other : Handle}
    (hpromoted : (u.promotedTo tuple array).shape x = .ok (.promoted other)) : other = array := by
  obtain ⟨hst, -, -⟩ := hs.element_tupleFree hnone hparams hunion
  obtain ⟨_, -, -, hformed⟩ := promotion_formed hs hshape hunion harray
  have hsu := hst.trans hformed.grows
  by_cases hx : x = tuple
  · rw [hx, (shapes_promotedTo hs hshape hunion harray).1] at hpromoted
    cases hpromoted
    rfl
  · have hold : (u.promotedTo tuple array).shape x = u.shape x :=
      shape_withState (hsu.wellFormed hs).linked (.inl hx)
    rw [hold] at hpromoted
    exact absurd (hsu.promoted_before hs hpromoted) (hnone x other)

/-- The union of the elements and the array type of it are found again after the promotion. -/
theorem WellFormed.union_array_promotedTo :
    Store.union params (u.promotedTo tuple array) = .ok element (u.promotedTo tuple array) ∧
      Store.array element (u.promotedTo tuple array) = .ok array (u.promotedTo tuple array) := by
  obtain ⟨hst, hmade, hfree⟩ := hs.element_tupleFree hnone hparams hunion
  obtain ⟨hm, htm, -⟩ := hs.promotedTo_kept hshape hunion harray
  have hgeneric := (shapes_promotedTo hs hshape hunion harray).2
  constructor
  · refine (hst.wellFormed hs).make_found hm htm
      (fun p hp => hst.toRetains.isTupleFree (hparams p hp)) hfree hmade fun x other hpromoted => ?_
    rw [hs.eq_of_promotedTo hnone hshape hparams hunion harray hpromoted]
    exact hm.depth_lt_generic hgeneric List.mem_cons_self
  · rw [array_run (htm.contains ((hst.wellFormed hs).contains_of_tupleFree hfree))]
    exact hm.formGeneric_found hgeneric

/-- The tuple is found below an array type exactly if its elements are below the element of that
type, and this one below their union. Whatever is found, nothing happens beyond the promotion. -/
theorem WellFormed.subtype_array_iff (hlower : s.lowerBounds tuple = [])
    (hupper : s.upperBounds tuple = []) (ha : s.shape a = .ok (.generic .arrayClass [b]))
    (hb : s.IsTupleFree b) :
    ∃ answer, Store.subtype tuple a s = .ok answer (u.promotedTo tuple array) ∧
      (answer = true ↔ (∀ p ∈ params, s.Below p b) ∧ t.Below b element) := by
  obtain ⟨hst, hmade, hfree⟩ := hs.element_tupleFree hnone hparams hunion
  obtain ⟨hm, htm, hhierarchy⟩ := hs.promotedTo_kept hshape hunion harray
  have ht := hst.wellFormed hs
  have hown := (shapes_promotedTo hs hshape hunion harray).2
  have hown' := hm.tupleFree_of_generic hown (List.forall_mem_singleton.mpr (htm.isTupleFree hfree))
  have ha' := hs.tupleFree_of_generic ha (List.forall_mem_singleton.mpr hb)
  have hb' := hst.toRetains.isTupleFree hb
  have hsm := hst.toRetains.trans htm
  obtain ⟨answer, hrun⟩ := hm.subtype_quiet hown' (hsm.isTupleFree ha')
  have hanswer : answer = true ↔ (u.promotedTo tuple array).Below array a := by
    rw [Below, hrun]
    simp
  refine ⟨answer, hs.subtype_array_run hshape hlower hupper hunion harray ha hrun, ?_⟩
  rw [hanswer, hm.below_generic_iff hown' (hsm.isTupleFree ha') hown
    (hs.shape_of_retained hsm ha' ha)]
  have hall : (∀ p ∈ params, t.Below p b) ↔ ∀ p ∈ params, s.Below p b :=
    forall₂_congr fun p hp =>
      hs.below_of_retained hst.toRetains ht hst.hierarchy_eq (hparams p hp) hb
  have hparams' : ∀ p ∈ params, t.IsTupleFree p := fun p hp =>
    hst.toRetains.isTupleFree (hparams p hp)
  rw [← hall, ← ht.below_isMadeOf_iff hparams' hfree hmade hb',
    ← ht.below_of_retained htm hm hhierarchy hfree hb',
    ← ht.below_of_retained htm hm hhierarchy hb' hfree]
  simp

end Promotion

end Store

open Store in
/-- In a reachable store a fixed tuple whose elements hold no tuples is found below another one, or
below itself, exactly if both have as many elements and each is below the one in its place. Then the
two are recorded as bounds of each other, unless they were, and nothing else changes. A tuple that
is not found below the other leaves the store as it is. -/
theorem Reachable.subtype_pointwise {s : Store} {lower upper : Handle} {params others : List Handle}
    (hs : Reachable s) (hlower : s.shape lower = .ok (.tuple params))
    (hupper : s.shape upper = .ok (.tuple others)) (hparams : ∀ p ∈ params, s.IsTupleFree p)
    (hothers : ∀ p ∈ others, s.IsTupleFree p) :
    ∃ answer t, Store.subtype lower upper s = .ok answer t ∧
      (answer = true ↔ params.length = others.length ∧
        ∀ pair ∈ params.zip others, Store.subtype pair.1 pair.2 s = .ok true s) ∧
      (answer = true → t = { s with states := t.states } ∧ t.states.size = s.states.size ∧
        ∀ x, t.shape x = s.shape x ∧
          t.upperBounds x = (if x = lower then enter (s.upperBounds x) upper
            else s.upperBounds x) ∧
          t.lowerBounds x = if x = upper then enter (s.lowerBounds x) lower
            else s.lowerBounds x) ∧
      (answer = false → t = s) := by
  have hwf := hs.wellFormed
  obtain ⟨answer, hrun, hanswer⟩ := hwf.subtype_tuples hlower hparams hupper hothers
  refine ⟨answer, _, hrun, ?_, ?_, ?_⟩
  · rw [hanswer, List.forall₂_iff_zip]
    exact and_congr_right fun _ => ⟨fun h pair hpair => h hpair, fun h x y hxy => h (x, y) hxy⟩
  · rintro rfl
    obtain ⟨hframe, hsize⟩ := recorded_frame s lower upper
    -- both tuples are fixed, so each of them takes the other one in
    have hfixed : ∀ {x y : Handle} {elements : List Handle}, s.shape y = .ok (.tuple elements) →
        (x = y ∧ s.IsFixed x ↔ x = y) := fun hy =>
      and_iff_left_of_imp fun hx => hx ▸ isFixed_of_shape hy
    refine ⟨hframe, hsize, fun x => ⟨(alike_recorded s lower upper).shape_eq x, ?_, ?_⟩⟩
    · exact hwf.linked.upperBounds_recorded.trans (if_congr (hfixed hlower) rfl rfl)
    · exact hwf.linked.lowerBounds_recorded.trans (if_congr (hfixed hupper) rfl rfl)
  · rintro rfl
    rfl

/-- A class, its superclass and a third class, a pair of the first and the third, of the second and
the third, and of the third and the first, the union of the first and the third, and that union
under an annotation. The first pair was compared with itself. -/
def rowStore : Store :=
  .after [.declareSuperclass "Integer" "Number", .nominal "Integer", .nominal "Number",
    .nominal "String", .tuple [⟨5⟩, ⟨7⟩], .tuple [⟨6⟩, ⟨7⟩], .tuple [⟨7⟩, ⟨5⟩],
    .union [⟨5⟩, ⟨7⟩], .annotated "either" ⟨11⟩, .subtype ⟨8⟩ ⟨8⟩]

/-- The pair of the class is below that of its superclass, which is recorded, and not the other way
round. -/
theorem rowStore_subtype_pointwise :
    rowStore.shape ⟨8⟩ = .ok (.tuple [⟨5⟩, ⟨7⟩]) ∧ rowStore.shape ⟨9⟩ = .ok (.tuple [⟨6⟩, ⟨7⟩]) ∧
      (∀ p ∈ [⟨5⟩, ⟨6⟩, ⟨7⟩], rowStore.IsTupleFree p) ∧
      (∃ t, Store.subtype ⟨8⟩ ⟨9⟩ rowStore = .ok true t ∧ t.upperBounds ⟨8⟩ = [⟨8⟩, ⟨9⟩] ∧
        t.lowerBounds ⟨8⟩ = [⟨8⟩] ∧ t.lowerBounds ⟨9⟩ = [⟨8⟩]) ∧
      Store.subtype ⟨9⟩ ⟨8⟩ rowStore = .ok false rowStore := by
  have hs : Reachable rowStore := .after (by decide)
  have hlower : rowStore.shape ⟨8⟩ = .ok (.tuple [⟨5⟩, ⟨7⟩]) := by decide +kernel
  have hupper : rowStore.shape ⟨9⟩ = .ok (.tuple [⟨6⟩, ⟨7⟩]) := by decide +kernel
  have hfree : ∀ p ∈ [⟨5⟩, ⟨6⟩, ⟨7⟩], rowStore.IsTupleFree p := by decide +kernel
  have hparams : ∀ p ∈ [⟨5⟩, ⟨7⟩], rowStore.IsTupleFree p := fun p hp => hfree p (by grind)
  have hothers : ∀ p ∈ [⟨6⟩, ⟨7⟩], rowStore.IsTupleFree p := fun p hp => hfree p (by grind)
  obtain ⟨yes, t, hrun, -, hchange, -⟩ :=
    Reachable.subtype_pointwise hs hlower hupper hparams hothers
  obtain rfl : yes = true := eq_of_run' hrun (by decide +kernel)
  obtain ⟨-, -, hbounds⟩ := hchange rfl
  obtain ⟨no, u, hrun', -, -, hsame⟩ :=
    Reachable.subtype_pointwise hs hupper hlower hothers hparams
  obtain rfl : no = false := eq_of_run' hrun' (by decide +kernel)
  rw [hsame rfl] at hrun'
  refine ⟨hlower, hupper, hfree, ⟨t, hrun, ?_, ?_, ?_⟩, hrun'⟩
  · rw [(hbounds ⟨8⟩).2.1]
    decide +kernel
  · rw [(hbounds ⟨8⟩).2.2]
    decide +kernel
  · rw [(hbounds ⟨9⟩).2.2]
    decide +kernel

open Store in
/-- In a reachable store in which no tuple is promoted, a fixed tuple without bounds whose elements
hold no tuples is found below an array type without tuples exactly if each element is below the
element of the array type, and this one is below the union of the elements. In any case the tuple
stands for the array type of that union afterwards, and all other tuples are left as they were. -/
theorem Reachable.subtype_array {s : Store} {tuple element : Handle} {params : List Handle}
    (hs : Reachable s) (hnone : ∀ h, s.isPromoted h ≠ .ok true)
    (hshape : s.shape tuple = .ok (.tuple params)) (hparams : ∀ p ∈ params, s.IsTupleFree p)
    (hlower : s.lowerBounds tuple = []) (hupper : s.upperBounds tuple = [])
    (helement : s.IsTupleFree element) :
    ∃ array s₁ union s₂ own s₃ answer t,
      Store.array element s = .ok array s₁ ∧ Store.union params s₁ = .ok union s₂ ∧
      Store.array union s₂ = .ok own s₃ ∧ Store.subtype tuple array s₁ = .ok answer t ∧
      (answer = true ↔ (∀ p ∈ params, Store.subtype p element s = .ok true s) ∧
        Store.subtype element union s₂ = .ok true s₂) ∧
      t.canonical tuple = .ok own ∧ Store.union params t = .ok union t ∧
      Store.array union t = .ok own t ∧ ∀ h, h ≠ tuple → t.tupleState? h = s.tupleState? h := by
  have hwf := hs.wellFormed
  have hcontains := hwf.contains_of_tupleFree helement
  obtain ⟨array, s₁, harray, hformed⟩ := formArray_returns hwf hcontains
  have hgrows := hformed.grows
  have hwf₁ := hgrows.wellFormed hwf
  obtain ⟨_, hslot⟩ := hformed.slot
  have hstates := hformed.tupleState?_eq rfl
  have hshape₁ := hgrows.shape_eq hshape
  have hparams₁ : ∀ p ∈ params, s₁.IsTupleFree p := fun p hp =>
    hgrows.toRetains.isTupleFree (hparams p hp)
  have hnone₁ := hgrows.unpromoted hwf hnone
  obtain ⟨union, s₂, own, s₃, hunion, hown⟩ := exists_promotion hwf₁ hshape₁
  obtain ⟨hgrows₂, -, hfree⟩ := hwf₁.element_tupleFree hnone₁ hparams₁ hunion
  have hwf₂ := hgrows₂.wellFormed hwf₁
  obtain ⟨answer, hrun, hanswer⟩ := hwf₁.subtype_array_iff hnone₁ hshape₁ hparams₁ hunion hown
    (by rwa [Store.lowerBounds, hstates]) (by rwa [Store.upperBounds, hstates])
    (shape_eq_ok_iff.mpr ⟨_, hslot, rfl⟩) (hgrows.toRetains.isTupleFree helement)
  obtain ⟨hunion', hown'⟩ := hwf₁.union_array_promotedTo hnone₁ hshape₁ hparams₁ hunion hown
  refine ⟨array, s₁, union, s₂, own, s₃, answer, _, (array_run hcontains).trans harray,
    (union_run fun p hp => hwf₁.contains_of_tupleFree (hparams₁ p hp)).trans hunion,
    (array_run (hwf₂.contains_of_tupleFree hfree)).trans hown, hrun, ?_,
    canonical_of_promoted (shapes_promotedTo hwf₁ hshape₁ hunion hown).1, hunion', hown', ?_⟩
  · rw [hanswer]
    refine and_congr_left fun _ => forall₂_congr fun p hp => ?_
    exact hwf.below_of_retained hgrows.toRetains hwf₁ hgrows.hierarchy_eq (hparams p hp) helement
  · intro h hne
    rw [tupleState?_promotedTo hwf₁ hshape₁ hunion hown, if_neg hne, hstates]

/-- The last pair is below the array type of the annotated union, which is below the union of its
elements and above each of them. -/
theorem rowStore_subtype_array :
    (∀ h, rowStore.isPromoted h ≠ .ok true) ∧ rowStore.shape ⟨10⟩ = .ok (.tuple [⟨7⟩, ⟨5⟩]) ∧
      (∀ p ∈ [⟨7⟩, ⟨5⟩], rowStore.IsTupleFree p) ∧ rowStore.lowerBounds ⟨10⟩ = [] ∧
      rowStore.upperBounds ⟨10⟩ = [] ∧ rowStore.IsTupleFree ⟨12⟩ ∧
      ∃ s t, Store.array ⟨12⟩ rowStore = .ok ⟨13⟩ s ∧ Store.subtype ⟨10⟩ ⟨13⟩ s = .ok true t ∧
        (∀ p ∈ [⟨7⟩, ⟨5⟩], Store.subtype p ⟨12⟩ rowStore = .ok true rowStore) ∧
        Store.union [⟨7⟩, ⟨5⟩] t = .ok ⟨11⟩ t ∧ Store.array ⟨11⟩ t = .ok ⟨14⟩ t ∧
        t.canonical ⟨10⟩ = .ok ⟨14⟩ ∧ t.tupleState? ⟨8⟩ = rowStore.tupleState? ⟨8⟩ := by
  have hs : Reachable rowStore := .after (by decide)
  have hnone := hs.wellFormed.unpromoted_of_handles (by decide +kernel)
  have hshape : rowStore.shape ⟨10⟩ = .ok (.tuple [⟨7⟩, ⟨5⟩]) := by decide +kernel
  have hparams : ∀ p ∈ [⟨7⟩, ⟨5⟩], rowStore.IsTupleFree p := by decide +kernel
  have hlower : rowStore.lowerBounds ⟨10⟩ = [] := by decide +kernel
  have hupper : rowStore.upperBounds ⟨10⟩ = [] := by decide +kernel
  have hfree : rowStore.IsTupleFree ⟨12⟩ := by decide +kernel
  obtain ⟨array, s, union, s₂, own, s₃, answer, t, harray, hunion, hown, hrun, hanswer, hcanonical,
      hunion', hown', hstates⟩ :=
    Reachable.subtype_array hs hnone hshape hparams hlower hupper hfree
  obtain rfl : array = ⟨13⟩ := eq_of_run' harray (by decide +kernel)
  obtain rfl : (Operation.array ⟨12⟩).apply rowStore = s :=
    Operation.apply_of_run (.array ⟨12⟩) rfl harray
  obtain rfl : union = ⟨11⟩ := eq_of_run' hunion (by decide +kernel)
  obtain rfl : answer = true := eq_of_run' hrun (by decide +kernel)
  obtain rfl : (Operation.union [⟨7⟩, ⟨5⟩]).apply _ = s₂ :=
    Operation.apply_of_run (.union _) rfl hunion
  obtain rfl : own = ⟨14⟩ := eq_of_run' hown (by decide +kernel)
  exact ⟨hnone, hshape, hparams, hlower, hupper, hfree, _, t, harray, hrun, (hanswer.mp rfl).1,
    hunion', hown', hcanonical, hstates ⟨8⟩ (by decide)⟩

end GradualTypes
