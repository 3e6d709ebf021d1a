import GradualTypes.Proofs.Delegation
import GradualTypes.Proofs.Reordering
import GradualTypes.Proofs.Widening

/-!
What tuples share. Each tuple has a state of its own, but a union is found again when it is asked
for with equal types, and then it holds the tuples it was made with and not those it was asked for
with. So the promotion of one tuple may show in a union that was made from another. It does so only
through the tuples that stand in the union for the other one: as long as these are fixed, the union
has the values it had. If the union is new, the tuple stands in it for itself.
-/

namespace GradualTypes

namespace Store

variable {s t u : Store} {a c d h x : Handle} {ys types : List Handle}

section Kept

theorem Retains.isTupleFree (hst : s.Retains t) (hh : s.IsTupleFree h) : t.IsTupleFree h := by
  obtain ⟨traits, htraits, hfree⟩ := hh
  exact ⟨traits, hst.traits_eq htraits, hfree⟩

private theorem Grows.isPlainTuple (hst : s.Grows t) (hc : s.IsPlainTuple c) :
    t.IsPlainTuple c := by
  obtain ⟨params, hshape, hparams⟩ := hc
  exact ⟨params, hst.shape_eq hshape, fun p hp => hst.toRetains.isTupleFree (hparams p hp)⟩

theorem not_isFixed_of_promoted {array : Handle} (hshape : s.shape h = .ok (.promoted array)) :
    ¬ s.IsFixed h := by
  obtain ⟨⟨node, traits⟩, hslot, hof⟩ := shape_eq_ok_iff.mp hshape
  cases node with
  | tuple params digest entry =>
    rw [Node.shape?] at hof
    split at hof
    next => cases hof
    next hstate => simp [IsFixed, tupleState?, hslot, Node.entry?, hstate, TupleState.array?]
    next => cases hof
  | _ => cases hof

/-- A tuple that is still fixed has the elements that it had. -/
theorem Retains.shape_of_isFixed {params : List Handle} (hst : s.Retains t) (ht : t.Linked)
    (hshape : s.shape h = .ok (.tuple params)) (hfixed : t.IsFixed h) :
    t.shape h = .ok (.tuple params) := by
  obtain ⟨digest, entry, traits, -, -, hslot, -⟩ := slot_of_shape_tuple hshape
  refine (ht.shape_of_tuple (hst.slots hslot)).resolve_right ?_
  rintro ⟨array, hpromoted⟩
  exact not_isFixed_of_promoted hpromoted hfixed

end Kept

section StandIns

/-- The types that stand in a union for a type: the union itself or its members, as far as they are
equal to the type. -/
def standIns (s : Store) (h c : Handle) : List Handle :=
  (h :: (s.nodeAt h).members).filter fun d => s.Same d c

private theorem mem_standIns :
    d ∈ s.standIns h c ↔ (d = h ∨ d ∈ (s.nodeAt h).members) ∧ s.Same d c := by
  simp [standIns]

/-- Nothing in a type can be promoted but what stands in it for another. -/
def IsSettledBut (s : Store) (h c : Handle) : Prop :=
  s.IsSettled h ∨ h = c ∨
    ∃ members, s.shape h = .ok (.union members) ∧ ∀ x ∈ members, s.IsSettled x ∨ s.Same x c

variable (hs : s.WellFormed) (hc : s.IsPlainTuple c)
include hs hc

/-- What is equal to a plain tuple is a fixed tuple, and nothing in its elements can be promoted. -/
theorem WellFormed.elements_of_same (hd : s.contains d) (hdc : s.Same d c) :
    ∃ params, s.shape d = .ok (.tuple params) ∧ ∀ p ∈ params, s.IsSettled p := by
  obtain ⟨others, hothers, hfree⟩ := hc
  obtain ⟨left, hleft⟩ := hs.linked.exists_shape hd
  have hsettled : ∀ q ∈ others, s.IsSettled q := fun q hq => .of_tupleFree hs (hfree q hq)
  rcases (hs.same_iff hleft hothers).mp hdc with rfl | hsame
  · exact ⟨others, hothers, hsettled⟩
  cases left with
  | tuple params =>
    refine ⟨params, hleft, fun p hp => ?_⟩
    obtain ⟨q, hq, hpq⟩ := exists_mem_of_forall₂ hsame hp
    exact .of_same hs (hs.descends hleft hp).1 (hs.descends hothers hq).1 hpq (hsettled q hq)
  | promoted array =>
    -- an array type is not equal to a fixed tuple
    obtain ⟨element, harray⟩ := hs.shape_of_array hleft
    rcases (hs.same_iff harray hothers).mp hsame with rfl | hnone
    · rw [harray] at hothers
      cases hothers
    · exact hnone.elim
  | _ => exact hsame.elim

private theorem WellFormed.contains_of_plain (hys : ∀ y ∈ ys, s.IsTupleFree y) :
    ∀ p ∈ c :: ys, s.contains p :=
  List.forall_mem_cons.mpr ⟨hc.contains, fun y hy => hs.contains_of_tupleFree (hys y hy)⟩

/-- The tuple is the only one among the types that are left of those a union is asked for with. -/
theorem WellFormed.eq_or_tupleFree_of_flat (hys : ∀ y ∈ ys, s.IsTupleFree y)
    (hx : x ∈ s.flat .union (c :: ys)) : x = c ∨ s.IsTupleFree x := by
  have htypes := hs.contains_of_plain hc hys
  obtain ⟨p, hp, -, hspread⟩ := (hs.mem_flat_iff htypes).mp hx
  rcases List.mem_cons.mp hp with rfl | hp
  · obtain ⟨params, hshape, -⟩ := hc
    obtain ⟨digest, entry, traits, -, -, hslot, -⟩ := slot_of_shape_tuple hshape
    have hself : s.spread .union p = [p] := spread_of_ne hslot (by simp [SetKind.node])
    rw [hself] at hspread
    exact .inl (List.mem_singleton.mp hspread)
  · rcases spread_cases .union (htypes p (List.mem_cons_of_mem c hp)) with
      ⟨members, traits, hslot, hmembers⟩ | hself
    · have hshape : s.shape p = .ok (.union members) := shape_eq_ok_iff.mpr ⟨_, hslot, rfl⟩
      rw [hmembers] at hspread
      exact .inr (hs.tupleFree_of_refersTo (hys p hp) ⟨_, hshape, hspread⟩).1
    · rw [hself] at hspread
      rw [List.mem_singleton.mp hspread]
      exact .inr (hys p hp)

omit hc in
/-- A union that is new holds types that it was asked for with. -/
theorem WellFormed.formUnion_new (htypes : ∀ p ∈ types, s.contains p)
    (hrun : formUnion types s = .ok h t) (hnew : ¬ s.contains h) :
    ∃ members traits, t.slot? h = some ⟨.union members, traits⟩ ∧
      members ⊆ s.flat .union types := by
  have hvalid : ∀ x ∈ s.flat .union types, s.contains x := hs.contains_of_flat htypes
  obtain ⟨top, htop, -⟩ := hs.anyTop_decides_mem htypes
  rw [formUnion, bind_run (ask_run htop)] at hrun
  cases top with
  | true =>
    cases hrun
    exact absurd hs.linked.contains_top hnew
  | false =>
    obtain ⟨parts, hparts, hflat⟩ := hs.setParts_eq .union htypes
    obtain ⟨members, harrange, harranged⟩ := exists_arranged hs.linked hs.named hs.acyclic hvalid
    rw [← hflat] at harrange
    change formSet .union types s = _ at hrun
    rw [formSet, bind_run (ask_run hparts), bind_run (ask_run harrange)] at hrun
    rcases members with _ | ⟨x, _ | ⟨y, rest⟩⟩
    · cases hrun
      exact absurd hs.linked.contains_nil hnew
    · cases hrun
      exact absurd (hvalid _ (harranged.subset List.mem_cons_self)) hnew
    · have hmembers : ∀ z ∈ x :: y :: rest, s.contains z := fun z hz =>
        hvalid z (harranged.subset hz)
      rcases internSet_run .union hs hmembers with
        ⟨found, hfound, hrun'⟩ | ⟨digest, traits, -, -, -, hrun'⟩
      · cases hrun.symm.trans hrun'
        obtain ⟨others, traits, hslot, -⟩ := findSet_some hs hmembers hfound
        exact absurd (contains_of_slot hslot) hnew
      · cases hrun.symm.trans hrun'
        exact ⟨_, traits, slot?_allocate_new, harranged.subset⟩

end StandIns

section Union

variable (hs : s.WellFormed) (hc : s.IsPlainTuple c) (hys : ∀ y ∈ ys, s.IsTupleFree y)
  (hrun : formUnion (c :: ys) s = .ok h t)
include hs hc hys hrun

/-- In the union nothing can be promoted but the tuples that stand in it for the given one. -/
theorem WellFormed.union_settled : s.Grows t ∧ t.contains h ∧ t.IsSettledBut h c := by
  have htypes := hs.contains_of_plain hc hys
  obtain ⟨parts, hparts, hset⟩ := (formUnion_returns hs htypes).of_run hrun
  obtain ⟨parts', hparts', hflat⟩ := hs.setParts_eq .union htypes
  rw [hparts] at hparts'
  cases hparts'
  rw [hflat] at hset
  have ht := hset.grows.wellFormed hs
  refine ⟨hset.grows, hset.contains hs.linked (hs.contains_of_flat htypes), ?_⟩
  cases hset with
  | top _ => exact .inl (.of_tupleFree hs hs.linked.tupleFree_top.1)
  | nil => exact .inl (.of_tupleFree hs hs.linked.tupleFree_nil.1)
  | part hpart =>
    rcases hs.eq_or_tupleFree_of_flat hc hys hpart with heq | hfree
    · exact .inr (.inl heq)
    · exact .inl (.of_tupleFree hs hfree)
  | @set _ _ members hformed hequal =>
    obtain ⟨traits, hslot⟩ := hformed.slot
    have hshape : t.shape h = .ok (.union members) := shape_eq_ok_iff.mpr ⟨_, hslot, rfl⟩
    refine .inr (.inr ⟨members, hshape, fun x hx => ?_⟩)
    obtain ⟨y, hy, hxy⟩ := hequal x hx
    rcases hs.eq_or_tupleFree_of_flat hc hys hy with rfl | hfree
    · exact .inr hxy
    · have hfree := hformed.grows.toRetains.isTupleFree hfree
      exact .inl (.of_same ht (ht.descends hshape hx).1 (ht.contains_of_tupleFree hfree) hxy
        (.of_tupleFree ht hfree))

/-- In a union that is new, or that is the tuple itself, only the tuple stands for itself. -/
theorem WellFormed.eq_of_standIn (hown : ¬ s.contains h ∨ h = c) (hd : d ∈ t.standIns h c) :
    d = c := by
  have htypes := hs.contains_of_plain hc hys
  have hgrows := (hs.union_settled hc hys hrun).1
  have ht := hgrows.wellFormed hs
  have hplain := hgrows.isPlainTuple hc
  obtain ⟨hmem, hdc⟩ := mem_standIns.mp hd
  rcases hown with hnew | rfl
  · obtain ⟨members, traits, hslot, hsubset⟩ := hs.formUnion_new htypes hrun hnew
    have hunion : t.shape h = .ok (.union members) := shape_eq_ok_iff.mpr ⟨_, hslot, rfl⟩
    rw [nodeAt_of_slot hslot] at hmem
    rcases hmem with rfl | hmem
    · obtain ⟨params, hparams, -⟩ := ht.elements_of_same hplain (contains_of_slot hslot) hdc
      rw [hunion] at hparams
      cases hparams
    · rcases hs.eq_or_tupleFree_of_flat hc hys (hsubset hmem) with heq | hfree
      · exact heq
      · have hfree := hgrows.toRetains.isTupleFree hfree
        obtain ⟨params, hparams, -⟩ :=
          ht.elements_of_same hplain (ht.contains_of_tupleFree hfree) hdc
        exact absurd hparams (IsSettled.of_tupleFree ht hfree d .refl params)
  · obtain ⟨params, hshape, -⟩ := hplain
    obtain ⟨digest, entry, traits, -, -, hslot, -⟩ := slot_of_shape_tuple hshape
    rw [nodeAt_of_slot hslot] at hmem
    exact hmem.resolve_right List.not_mem_nil

end Union

section Separate

variable {shape : Shape} (hst : Shifts s t) (hs : s.WellFormed)
include hst hs

/-- A search leaves a type as it is in which nothing can be promoted. -/
theorem Shifts.shape_of_settled (hx : s.IsSettled x) (hshape : s.shape x = .ok shape) :
    t.shape x = .ok shape ∧ ∀ y ∈ shape.parts, s.IsSettled y := by
  refine ⟨hst.shape_eq hs hshape fun params heq => ?_, fun y hy => hx.of_part hshape hy⟩
  rw [heq] at hshape
  exact hx x .refl params hshape

/-- It also leaves as it is what is equal to a plain tuple, as long as it is fixed. -/
theorem Shifts.shape_of_same (hc : s.IsPlainTuple c) (hxc : s.Same x c) (hfixed : t.IsFixed x)
    (hshape : s.shape x = .ok shape) :
    t.shape x = .ok shape ∧ ∀ y ∈ shape.parts, s.IsSettled y := by
  have hsettles := hst.settles hs
  obtain ⟨params, hparams, hsettled⟩ :=
    hs.elements_of_same hc (Linked.contains_of_shape hshape) hxc
  rw [hparams] at hshape
  cases hshape
  exact ⟨hsettles.shape_of_isFixed hsettles.wellFormed.linked hparams hfixed, hsettled⟩

/-- A union has the values it had if all that could be promoted in it are tuples that stand in it
for a plain tuple, and these are still fixed. -/
theorem Shifts.member_separate (hc : s.IsPlainTuple c) (hh : s.contains h)
    (hsettled : s.IsSettledBut h c) (hfixed : ∀ d ∈ s.standIns h c, t.IsFixed d) (v : Value) :
    SameAnswer (s.member h v) (t.member h v) := by
  have hsettles := hst.settles hs
  have ht := hsettles.wellFormed
  have hiff : t.Belongs h v ↔ s.Belongs h v := by
    refine belongs_iff_of_kept (fun x => s.IsSettled x ∨ x ∈ s.standIns h c ∨ x = h) hs ht
      hsettles.toRetains (hst.hierarchy_eq hs) (fun x shape hx hshape => ?_) hh (.inr (.inr rfl))
    have hkept : (t.shape x = .ok shape ∧ ∀ y ∈ shape.parts, s.IsSettled y) →
        t.shape x = .ok shape ∧
          ∀ y ∈ shape.parts, s.IsSettled y ∨ y ∈ s.standIns h c ∨ y = h :=
      fun hboth => ⟨hboth.1, fun y hy => .inl (hboth.2 y hy)⟩
    have hstand : x ∈ s.standIns h c → _ := fun hx =>
      hkept (hst.shape_of_same hs hc (mem_standIns.mp hx).2 (hfixed x hx) hshape)
    rcases hx with hx | hx | rfl
    · exact hkept (hst.shape_of_settled hs hx hshape)
    · exact hstand hx
    · rcases hsettled with hx | rfl | ⟨members, hunion, hmembers⟩
      · exact hkept (hst.shape_of_settled hs hx hshape)
      · exact hstand (mem_standIns.mpr ⟨.inl rfl, s.same_refl x⟩)
      · rw [hunion] at hshape
        cases hshape
        obtain ⟨traits, hslot⟩ := slot_of_shape hunion rfl
        refine ⟨hst.shape_eq hs hunion (by simp), fun y hy => ?_⟩
        refine (hmembers y hy).imp_right fun hyc => .inl (mem_standIns.mpr ⟨.inr ?_, hyc⟩)
        rw [nodeAt_of_slot hslot]
        exact hy
  exact .of_iff hiff.symm (member_answered hs hh v)
    (member_answered ht (hsettles.contains hh) v)

end Separate

end Store

open Store in
/-- In a reachable store a union of a plain tuple and of types without tuples keeps its values while
any type is promoted, as long as the tuples that stand in the union for the plain one stay fixed. If
the union is new, or the tuple itself, these are the plain tuple alone. -/
theorem Reachable.member_union_separate {s : Store} {c : Handle} {ys : List Handle}
    (hs : Reachable s) (hc : s.IsPlainTuple c) (hys : ∀ y ∈ ys, s.IsTupleFree y) :
    ∃ h t, Store.union (c :: ys) s = .ok h t ∧
      (¬ s.contains h ∨ h = c → ∀ d ∈ t.standIns h c, d = c) ∧
      ∀ a, t.contains a → ∃ consistent u, Store.promote a t = .ok consistent u ∧
        ((∀ d ∈ t.standIns h c, u.IsFixed d) → ∀ v, SameAnswer (t.member h v) (u.member h v)) := by
  have hwf := hs.wellFormed
  have htypes := hwf.contains_of_plain hc hys
  obtain ⟨h, t, hrun, -⟩ := formUnion_returns hwf htypes
  obtain ⟨hgrows, hcontains, hsettled⟩ := hwf.union_settled hc hys hrun
  have ht := hgrows.wellFormed hwf
  refine ⟨h, t, (union_run htypes).trans hrun, fun hown d hd => ?_, fun a ha => ?_⟩
  · exact hwf.eq_of_standIn hc hys hrun hown hd
  · obtain ⟨consistent, u, hpromote, hst⟩ := promote_returns ht ha
    exact ⟨consistent, u, hpromote, fun hfixed =>
      hst.member_separate ht (hgrows.isPlainTuple hc) hcontains hsettled hfixed⟩

/-- Two tuples of an integer, of which the first is in a union with the class of strings, and a
tuple of a string. -/
def sharedStore : Store :=
  .after [.nominal "Integer", .nominal "String", .tuple [⟨5⟩], .union [⟨7⟩, ⟨6⟩], .tuple [⟨5⟩],
    .tuple [⟨6⟩]]

private theorem sharedStore_plain :
    sharedStore.IsPlainTuple ⟨9⟩ ∧ ∀ y ∈ [⟨6⟩], sharedStore.IsTupleFree y := by
  have hshape : sharedStore.shape ⟨9⟩ = .ok (.tuple [⟨5⟩]) := by decide +kernel
  have hfree : ∀ p ∈ [⟨5⟩], sharedStore.IsTupleFree p := by decide +kernel
  exact ⟨⟨[⟨5⟩], hshape, hfree⟩, by decide +kernel⟩

/-- The union of the second tuple and the class of strings is the older one, in which the first
tuple stands for the second. The promotion of the last tuple leaves the first one fixed, so the
union keeps its values. -/
theorem sharedStore_union_separate :
    Reachable sharedStore ∧ sharedStore.IsPlainTuple ⟨9⟩ ∧
      (∀ y ∈ [⟨6⟩], sharedStore.IsTupleFree y) ∧
      ∃ t u, Store.union [⟨9⟩, ⟨6⟩] sharedStore = .ok ⟨8⟩ t ∧ t.standIns ⟨8⟩ ⟨9⟩ = [⟨7⟩] ∧
        Store.promote ⟨10⟩ t = .ok true u ∧ u.IsFixed ⟨7⟩ ∧
        ∀ v, SameAnswer (t.member ⟨8⟩ v) (u.member ⟨8⟩ v) := by
  have hs : Reachable sharedStore := .after (by decide)
  obtain ⟨hplain, hfree⟩ := sharedStore_plain
  obtain ⟨h, t, hunion, -, hpromote⟩ :=
    Reachable.member_union_separate hs hplain hfree
  have hfound : (Store.union [⟨9⟩, ⟨6⟩]).run' sharedStore = some ⟨8⟩ := by decide +kernel
  obtain ⟨t', hunion'⟩ := exists_run_of_run' hfound
  cases hunion.symm.trans hunion'
  obtain rfl := Operation.apply_of_run (.union [⟨9⟩, ⟨6⟩]) rfl hunion
  obtain ⟨consistent, u, hrun, hkeeps⟩ := hpromote ⟨10⟩ (by decide +kernel)
  have hanswer : (Store.promote ⟨10⟩).run' ((Operation.union [⟨9⟩, ⟨6⟩]).apply sharedStore) =
      some true := by decide +kernel
  obtain ⟨u', hrun'⟩ := exists_run_of_run' hanswer
  cases hrun.symm.trans hrun'
  obtain rfl := Store.apply_promote hrun
  refine ⟨hs, hplain, hfree, _, _, hunion, ?_, hrun, ?_, hkeeps ?_⟩
  · decide +kernel
  · decide +kernel
  · decide +kernel

/-- The promotion of the first tuple leaves the second one fixed, and yet it shows in the union of
the second tuple and the class of strings: arrays of two integers belong to it from then on. -/
theorem sharedStore_member_changes :
    let v := Value.array [.int 1, .int 2]
    Reachable sharedStore ∧ sharedStore.IsPlainTuple ⟨9⟩ ∧
      (∀ y ∈ [⟨6⟩], sharedStore.IsTupleFree y) ∧
      ∃ t u, Store.union [⟨9⟩, ⟨6⟩] sharedStore = .ok ⟨8⟩ t ∧ t.IsFixed ⟨7⟩ ∧
        Store.promote ⟨7⟩ t = .ok true u ∧ u.IsFixed ⟨9⟩ ∧
        t.member ⟨8⟩ v = .ok false ∧ u.member ⟨8⟩ v = .ok true := by
  intro v
  have hfound : (Store.union [⟨9⟩, ⟨6⟩]).run' sharedStore = some ⟨8⟩ := by decide +kernel
  obtain ⟨t, hunion⟩ := exists_run_of_run' hfound
  obtain rfl := Operation.apply_of_run (.union [⟨9⟩, ⟨6⟩]) rfl hunion
  have hanswer : (Store.promote ⟨7⟩).run' ((Operation.union [⟨9⟩, ⟨6⟩]).apply sharedStore) =
      some true := by decide +kernel
  obtain ⟨u, hpromote⟩ := exists_run_of_run' hanswer
  obtain rfl := Store.apply_promote hpromote
  refine ⟨.after (by decide), sharedStore_plain.1, sharedStore_plain.2, _, _, hunion, ?_,
    hpromote, ?_, ?_, ?_⟩
  · decide +kernel
  · decide +kernel
  · decide +kernel
  · decide +kernel

end GradualTypes
