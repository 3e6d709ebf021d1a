import GradualTypes.Proofs.Bounds
import GradualTypes.Proofs.Mirroring
import GradualTypes.Proofs.Settled
import GradualTypes.Proofs.Replay

/-!
The order in which subtype questions are asked. Fixed tuples are recorded below one another in the
order of the questions, and a promotion checks the bounds in the order of recording, the lower ones
first, up to the first that fails. A lower bound that holds may promote the tuple below it, so the
order of the lower bounds decides which tuples are promoted, and what the answer is. The order of
the upper bounds does not matter if the tuples hold no tuples: when they are checked, the tuple is
promoted already and its comparison with another changes nothing.
-/

namespace GradualTypes

namespace Store

variable {s s' t t' u u' : Store} {a b h x : Handle} {depth limit : Nat} {answer : Bool}

section Questions

variable {α : Type} {xs xs' : List α}

/-- Questions that leave the store alone are answered together. -/
private theorem allM_run {f : α → StoreM Bool} {g : α → Bool} (hf : ∀ x ∈ xs, f x s = .ok (g x) s) :
    xs.allM f s = .ok (xs.all g) s := by
  induction xs with
  | nil => rfl
  | cons x xs ih =>
    rw [List.allM_cons, bind_run (hf x List.mem_cons_self), List.all_cons]
    cases g x with
    | true => exact ih fun y hy => hf y (List.mem_cons_of_mem x hy)
    | false => rfl

private theorem allM_inv {f : α → StoreM Bool}
    (hquiet : ∀ x ∈ xs, ∀ answer u, f x s = .ok answer u → u = s)
    (hrun : xs.allM f s = .ok answer t) :
    t = s ∧ if answer then ∀ x ∈ xs, f x s = .ok true s else ∃ x ∈ xs, f x s = .ok false s := by
  induction xs with
  | nil =>
    cases hrun
    exact ⟨rfl, by simp⟩
  | cons x xs ih =>
    rw [List.allM_cons] at hrun
    obtain ⟨first, u, hfirst, hrest⟩ := bind_run_eq_ok_iff.mp hrun
    obtain rfl := hquiet x List.mem_cons_self first u hfirst
    cases first with
    | false =>
      cases hrest
      exact ⟨rfl, x, List.mem_cons_self, hfirst⟩
    | true =>
      obtain ⟨rfl, hanswer⟩ := ih (fun y hy => hquiet y (List.mem_cons_of_mem x hy)) hrest
      refine ⟨rfl, ?_⟩
      cases answer with
      | true => exact List.forall_mem_cons.mpr ⟨hfirst, hanswer⟩
      | false =>
        obtain ⟨y, hy, hfalse⟩ := hanswer
        exact ⟨y, List.mem_cons_of_mem x hy, hfalse⟩

private theorem allM_append (f : α → StoreM Bool) (xs ys : List α) :
    (xs ++ ys).allM f = (do if ← xs.allM f then ys.allM f else pure false) := by
  induction xs with
  | nil => simp
  | cons x xs ih =>
    rw [List.cons_append, List.allM_cons, List.allM_cons, ih, bind_assoc]
    congr 1
    funext answer
    cases answer <;> simp

variable {R lost : Store → Store → Prop} {f f' : α → StoreM Bool}

/-- Questions that leave both stores alone may be asked in another order. The second run may come to
questions that the first did not ask because it ended before them, so all of them need an answer in
the second store. -/
private theorem Tracks.allM_perm (hR : R s s') (hperm : xs.Perm xs')
    (hquiet : ∀ x ∈ xs, ∀ answer t, f x s = .ok answer t → t = s ∧ f' x s' = .ok answer s')
    (hanswered : ∀ x ∈ xs, ∃ answer, f' x s' = .ok answer s') :
    Tracks R lost (xs.allM f) (xs'.allM f') s s' := by
  intro answer t hrun
  obtain ⟨rfl, hanswer⟩ := allM_inv (fun x hx answer t hx' => (hquiet x hx answer t hx').1) hrun
  refine ⟨.refl, .inr ⟨s', ?_, hR⟩⟩
  have hchoice : ∀ x, ∃ answer, x ∈ xs → f' x s' = .ok answer s' := by
    intro x
    by_cases hx : x ∈ xs
    · obtain ⟨answer, hx'⟩ := hanswered x hx
      exact ⟨answer, fun _ => hx'⟩
    · exact ⟨true, fun hx' => absurd hx' hx⟩
  choose g hg using hchoice
  rw [allM_run fun x hx => hg x (hperm.mem_iff.mpr hx)]
  have hagree : ∀ x ∈ xs, ∀ answer, f x t = .ok answer t → g x = answer := by
    intro x hx answer hx'
    have hx'' := (hquiet x hx answer t hx').2
    rw [hg x hx] at hx''
    cases hx''
    rfl
  cases answer with
  | true =>
    rw [List.all_eq_true.mpr fun x hx =>
      hagree x (hperm.mem_iff.mpr hx) true (hanswer x (hperm.mem_iff.mpr hx))]
  | false =>
    obtain ⟨x, hx, hfalse⟩ := hanswer
    rw [List.all_eq_false.mpr ⟨x, hperm.mem_iff.mp hx, by simp [hagree x hx false hfalse]⟩]

end Questions

private theorem Alike.isSettled (halike : s.Alike s') (hh : s.IsSettled h) : s'.IsSettled h := by
  have hrefers : s'.RefersTo = s.RefersTo := by
    funext x y
    simp only [RefersTo, halike.shape_eq]
  intro x hx params
  rw [hrefers] at hx
  rw [halike.shape_eq]
  exact hh x hx params

private theorem Alike.isFlat (halike : s.Alike s') (hh : s.IsFlat h) : s'.IsFlat h := by
  obtain ⟨params, digest, entry, traits, hslot, hparams⟩ := hh.elements
  refine ⟨⟨params, digest, entry, traits, (halike.slot?_eq h).trans hslot, fun p hp =>
    halike.isSettled (hparams p hp)⟩, fun array harray => ?_⟩
  rw [halike.shape_eq] at harray
  exact halike.isSettled (hh.array array harray)

/-- The stores are alike, and the bounds recorded in them differ only in the order of upper bounds
between flat tuples. The limit holds for the sizes of all stores that a search leads to, and so
tells how deep a search must be allowed to nest to answer every question about flat tuples. -/
structure Reordered (limit : Nat) (s s' : Store) : Prop where
  wellFormed : s.WellFormed
  wellFormed' : s'.WellFormed
  alike : s.Alike s'
  lower : ∀ h, s'.lowerBounds h = s.lowerBounds h
  upper : ∀ h, Rearranged (fun x => s.IsFlat h ∧ s.IsFlat x) (s.upperBounds h) (s'.upperBounds h)
  size_le : s.size + 2 * s.fixedCount ≤ limit

private theorem IsFlat.rearranged_shifts {xs ys : List Handle} (hst : Shifts s t)
    (hs : s.WellFormed) (h : Rearranged (fun x => s.IsFlat a ∧ s.IsFlat x) xs ys) :
    Rearranged (fun x => t.IsFlat a ∧ t.IsFlat x) xs ys :=
  h.mono fun _ hflat => ⟨hflat.1.shifts hst hs, hflat.2.shifts hst hs⟩

namespace Reordered

theorem refl (hs : s.WellFormed) (hlimit : s.size + 2 * s.fixedCount ≤ limit) :
    Reordered limit s s :=
  ⟨hs, hs, .refl s, fun _ => rfl, fun _ => .refl _, hlimit⟩

/-- The same change in both stores, which keeps the bounds in step. -/
theorem shift (hR : Reordered limit s s') (hst : Shifts s t) (hst' : Shifts s' t')
    (halike : t.Alike t') (hlower : ∀ h, t'.lowerBounds h = t.lowerBounds h)
    (hupper : ∀ h, Rearranged (fun x => s.IsFlat h ∧ s.IsFlat x) (t.upperBounds h)
      (t'.upperBounds h)) : Reordered limit t t' :=
  have hsettles := hst.settles hR.wellFormed
  { wellFormed := hsettles.wellFormed
    wellFormed' := (hst'.settles hR.wellFormed').wellFormed
    alike := halike
    lower := hlower
    upper := fun h => IsFlat.rearranged_shifts hst hR.wellFormed (hupper h)
    size_le := hsettles.size_add_le.trans hR.size_le }

theorem reported (hR : Reordered limit s s') (event : Event) :
    Reordered limit (s.reported event) (s'.reported event) := by
  refine hR.shift (.single (.report event)) (.single (.report event)) ?_ hR.lower hR.upper
  obtain ⟨states, journal, rfl, hstates⟩ := hR.alike
  exact ⟨states, journal.push event, rfl, hstates⟩

theorem recorded (hR : Reordered limit s s') (ha : s.IsTuple a) (hb : s.IsTuple b) :
    Reordered limit (s.recorded a b) (s'.recorded a b) := by
  have htuple : ∀ {h}, s.IsTuple h → s'.IsTuple h := by
    rintro h ⟨params, digest, entry, traits, hslot⟩
    exact ⟨params, digest, entry, traits, (hR.alike.slot?_eq h).trans hslot⟩
  refine hR.shift (.single (.bound ha hb)) (.single (.bound (htuple ha) (htuple hb)))
    (hR.alike.recorded a b) (fun h => ?_) fun h => ?_
  · rw [hR.wellFormed.linked.lowerBounds_recorded, hR.wellFormed'.linked.lowerBounds_recorded,
      hR.lower]
    simp only [hR.alike.isFixed_iff]
  · rw [hR.wellFormed.linked.upperBounds_recorded, hR.wellFormed'.linked.upperBounds_recorded]
    simp only [hR.alike.isFixed_iff]
    split
    · exact (hR.upper h).enter b
    · exact hR.upper h

end Reordered

/-- Stores whose bounds are reordered stay so, and no run is lost. -/
theorem reordering (limit : Nat) : Pairing (Reordered limit) fun _ _ => False where
  wellFormed hR := hR.wellFormed
  alike hR := hR.alike
  self hR hst := .refl hst.wellFormed (hst.size_add_le.trans hR.size_le)
  lost_before hlost _ := hlost
  lost_after _ hlost := hlost
  record hR := hR.recorded

/-- If the first operation returns, the second returns the same from a store whose bounds are
reordered. -/
abbrev Follows (limit : Nat) {α : Type} (op op' : StoreM α) (s s' : Store) : Prop :=
  Tracks (Reordered limit) (fun _ _ => False) op op' s s'

section Promotion

variable {tuple element array : Handle} {params : List Handle}

private theorem Alike.promotedTo (halike : u.Alike u') (tuple array : Handle) :
    (u.promotedTo tuple array).Alike (u'.promotedTo tuple array) := by
  obtain ⟨states, journal, rfl, hstates⟩ := halike
  have hslot : ({ u with states, journal } : Store).slot? tuple = u.slot? tuple := rfl
  rw [Store.promotedTo, Store.promotedTo, withState, withState, hslot]
  cases (u.slot? tuple).bind fun slot => slot.node.entry? with
  | none => exact ⟨states, _, rfl, hstates⟩
  | some entry =>
    refine ⟨states.modify entry fun _ => .promoted array, _, rfl, ?_⟩
    change (states.modify entry fun _ => .promoted array).map TupleState.array? =
      (u.states.modify entry fun _ => .promoted array).map TupleState.array?
    apply Array.ext_getElem?
    intro i
    have hread := congrArg (·[i]?) hstates
    simp only [Array.getElem?_map] at hread
    simp only [Array.getElem?_map, Array.getElem?_modify]
    split
    · cases hold : u.states[i]? <;> cases hnew : states[i]? <;> simp_all
    · exact hread

/-- Promotion reads and changes the same in both stores until it checks the bounds. -/
theorem Reordered.promotion (hR : Reordered limit s s')
    (hshape : s.shape tuple = .ok (.tuple params))
    (hunion : formUnion params s = .ok element t) (harray : formArray element t = .ok array u) :
    ∃ t' u', formUnion params s' = .ok element t' ∧ formArray element t' = .ok array u' ∧
      Reordered limit (u.promotedTo tuple array) (u'.promotedTo tuple array) := by
  have hshape' := (hR.alike.shape_eq tuple).trans hshape
  obtain ⟨hstates, hunion'⟩ := formUnion_mirrors params hR.alike hunion
  have halike := hR.alike.boundedAs hstates
  obtain ⟨hstates', harray'⟩ := formArray_mirrors element halike harray
  refine ⟨_, _, hunion', harray', hR.shift (shifts_promotedTo hshape hunion harray)
    (shifts_promotedTo hshape' hunion' harray') ?_ (fun h => ?_) fun h => ?_⟩
  · exact (halike.boundedAs hstates').promotedTo tuple array
  · rw [(bounds_promotedTo hR.wellFormed hshape hunion harray h).2,
      (bounds_promotedTo hR.wellFormed' hshape' hunion' harray' h).2, hR.lower]
  · rw [(bounds_promotedTo hR.wellFormed hshape hunion harray h).1,
      (bounds_promotedTo hR.wellFormed' hshape' hunion' harray' h).1]
    split
    · exact .refl []
    · exact hR.upper h

/-- What is checked last is checked in the same way in both stores if the lists of upper bounds
differ only in the order of flat tuples. -/
private theorem upper_tracks {below below' : Handle → Handle → StoreM Bool}
    (hbelow : ∀ x y s s', Reordered limit s s' →
      Follows limit (below x y) (below' x y) s s')
    (hquiet : ∀ {x t t'}, Reordered limit t t' → t.IsFlat tuple → t.IsFlat x →
      t.shape tuple = .ok (.promoted array) →
        (∀ answer u, below tuple x t = .ok answer u → u = t) ∧
          ∃ answer, below' tuple x t' = .ok answer t')
    (hR : Reordered limit s s') (hshape : s.shape tuple = .ok (.promoted array))
    {upper upper' : List Handle}
    (hupper : Rearranged (fun x => s.IsFlat tuple ∧ s.IsFlat x) upper upper') :
    Follows limit (upper.allM fun bound => below tuple bound)
      (upper'.allM fun bound => below' tuple bound) s s' := by
  have hp := reordering limit
  obtain ⟨before, moved, moved', after, rfl, rfl, hperm, hflat⟩ := hupper
  have hplain : ∀ (bounds : List Handle) t t', Reordered limit t t' →
      Follows limit (bounds.allM fun bound => below tuple bound)
        (bounds.allM fun bound => below' tuple bound) t t' :=
    fun bounds t t' hRt => .allM hp hRt fun x _ u u' _ => hbelow tuple x u u'
  -- only here the two runs ask different questions at a time
  have hmoved : ∀ t t', Shifts s t → Reordered limit t t' →
      Follows limit (moved.allM fun bound => below tuple bound)
        (moved'.allM fun bound => below' tuple bound) t t' := by
    intro t t' hst hRt
    have hshape' := hst.shape_eq hR.wellFormed hshape nofun
    have hboth : ∀ x ∈ moved, t.IsFlat tuple ∧ t.IsFlat x := fun x hx =>
      ⟨(hflat x hx).1.shifts hst hR.wellFormed, (hflat x hx).2.shifts hst hR.wellFormed⟩
    refine .allM_perm hRt hperm (fun x hx answer u hrun => ?_) fun x hx => ?_
    · obtain ⟨hold, answer', hanswer'⟩ := hquiet hRt (hboth x hx).1 (hboth x hx).2 hshape'
      obtain ⟨-, hlost | ⟨u', hrun', -⟩⟩ := hbelow tuple x t t' hRt hrun
      · exact hlost.elim
      · rw [hanswer'] at hrun'
        cases hrun'
        exact ⟨hold answer u hrun, hanswer'⟩
    · exact (hquiet hRt (hboth x hx).1 (hboth x hx).2 hshape').2
  rw [allM_append, allM_append, allM_append, allM_append]
  refine .and_then hp hR (hplain before s s' hR) fun t t' hst hRt => ?_
  exact .and_then hp hRt (hmoved t t' hst hRt) fun u u' _ hRu => hplain after u u' hRu

/-- A flat tuple that is promoted is compared with another flat tuple without a change to the
store, and in the second store the search may nest deep enough to find the answer. -/
theorem Reordered.quiet (hR : Reordered limit s s') (ha : s.IsFlat a) (hb : s.IsFlat b)
    (hshape : s.shape a = .ok (.promoted array)) (depth : Nat) :
    (∀ answer t, subtypeWithin depth a b s = .ok answer t → t = s) ∧
      ∃ answer, subtypeWithin (depth + (2 * limit + 2)) a b s' = .ok answer s' := by
  refine ⟨fun answer t hrun => hR.wellFormed.eq_of_subtypeWithin_flat ha hb hshape hrun, ?_⟩
  refine hR.wellFormed'.subtypeWithin_flat (hR.alike.isFlat ha) (hR.alike.isFlat hb)
    ((hR.alike.shape_eq a).trans hshape) ?_
  have hsize := hR.size_le
  rw [hR.alike.size_eq]
  omega

private theorem recheck_tracks {below below' : Handle → Handle → StoreM Bool}
    {lower lower' upper upper' : List Handle} (hR : Reordered limit s s')
    (hbounds : Follows limit (boundsHold below tuple lower upper)
      (boundsHold below' tuple lower' upper') s s') :
    Follows limit (recheck below tuple lower upper) (recheck below' tuple lower' upper') s s' := by
  refine .bind (reordering limit) hR hbounds fun holds t t' _ hRt => ?_
  cases holds with
  | true => exact .pure hRt true
  | false =>
    rintro _ _ ⟨⟩
    exact ⟨.single (.report _), .inr ⟨_, rfl, hRt.reported _⟩⟩

/-- The promotion of a fixed tuple gives the same answer in both stores. -/
theorem promoteBy_tracks
    (hbelow : ∀ x y s s', Reordered limit s s' →
      Follows limit (subtypeWithin depth x y) (subtypeWithin (depth + (2 * limit + 2)) x y) s s')
    (hR : Reordered limit s s') (hshape : s.shape tuple = .ok (.tuple params)) :
    Follows limit (promoteBy (subtypeWithin depth) tuple)
      (promoteBy (subtypeWithin (depth + (2 * limit + 2))) tuple) s s' := by
  have hp := reordering limit
  obtain ⟨element, t, array, u, hunion, harray⟩ := exists_promotion hR.wellFormed hshape
  obtain ⟨t', u', hunion', harray', hRu⟩ := hR.promotion hshape hunion harray
  have hshifts := shifts_promotedTo hshape hunion harray
  have hpromoted : (u.promotedTo tuple array).shape tuple = .ok (.promoted array) :=
    (shape_of_promotion hR.wellFormed hshape hunion harray).1
  have hbounds : Follows limit
      (boundsHold (subtypeWithin depth) tuple (s.lowerBounds tuple) (s.upperBounds tuple))
      (boundsHold (subtypeWithin (depth + (2 * limit + 2))) tuple (s'.lowerBounds tuple)
        (s'.upperBounds tuple)) (u.promotedTo tuple array) (u'.promotedTo tuple array) := by
    rw [hR.lower]
    refine .and_then hp hRu (.allM hp hRu fun x _ v v' _ => hbelow x tuple v v') ?_
    intro v v' huv hRv
    -- the lower bounds may have promoted other tuples, but flat tuples are still flat
    refine upper_tracks hbelow (fun hRt ha hb hshape => hRt.quiet ha hb hshape depth) hRv
      (huv.shape_eq hRu.wellFormed hpromoted nofun) ?_
    exact IsFlat.rearranged_shifts (hshifts.trans huv) hR.wellFormed (hR.upper tuple)
  intro answer v hrun
  rw [promoteBy_run _ hshape hunion harray] at hrun
  rw [promoteBy_run _ ((hR.alike.shape_eq tuple).trans hshape) hunion' harray']
  obtain ⟨hshift, hend⟩ := recheck_tracks hRu hbounds hrun
  exact ⟨hshifts.trans hshift, hend⟩

/-- So does the promotion of any type. -/
theorem Reordered.promote_eq (hR : Reordered limit s s') (hx : s.contains x) :
    ∃ answer t t', promote x s = .ok answer t ∧ promote x s' = .ok answer t' ∧ t.Alike t' := by
  have hsearch := subtypeWithin_tracks (reordering limit) (2 * limit + 2)
    (fun _ hbelow _ _ _ _ => promoteBy_tracks hbelow) s.searchDepth
  obtain ⟨shape, hshape⟩ := hR.wellFormed.linked.exists_shape hx
  have htracks : Follows limit (promoteBy (subtypeWithin s.searchDepth) x)
      (promoteBy (subtypeWithin (s.searchDepth + (2 * limit + 2))) x) s s' := by
    cases shape with
    | tuple params => exact promoteBy_tracks hsearch hR hshape
    | _ =>
      refine .ask_bind (hR.alike.shape_eq x) fun shape' hshape' => ?_
      rw [hshape] at hshape'
      cases hshape'
      exact .pure hR true
  obtain ⟨answer, t, hrun, -⟩ := promote_returns hR.wellFormed hx
  rw [promote_run] at hrun
  obtain ⟨-, hlost | ⟨t', hrun', hRt⟩⟩ := htracks hrun
  · exact hlost.elim
  · have hx' : s'.contains x := Linked.contains_of_shape ((hR.alike.shape_eq x).trans hshape)
    exact ⟨answer, t, t', (promote_run s x).trans hrun,
      promote_eq_of_within hR.wellFormed' hx' hrun', hRt.alike⟩

end Promotion

section Plain

def IsPlainTuple (s : Store) (h : Handle) : Prop :=
  ∃ params, s.shape h = .ok (.tuple params) ∧ ∀ p ∈ params, s.IsTupleFree p

theorem IsPlainTuple.contains (hh : s.IsPlainTuple h) : s.contains h := by
  obtain ⟨params, hshape, -⟩ := hh
  exact Linked.contains_of_shape hshape

private theorem IsPlainTuple.isFixed (hh : s.IsPlainTuple h) : s.IsFixed h := by
  obtain ⟨params, hshape, -⟩ := hh
  exact isFixed_of_shape hshape

private theorem IsPlainTuple.isFlat (hs : s.WellFormed) (hh : s.IsPlainTuple h) : s.IsFlat h := by
  obtain ⟨params, hshape, hparams⟩ := hh
  exact .of_fixed hs hshape hparams

/-- Two fixed tuples whose elements hold no tuples are compared element by element without a
promotion, and recorded if the first is found below the second. -/
theorem WellFormed.subtype_tuples (hs : s.WellFormed) {params others : List Handle}
    (hshape : s.shape a = .ok (.tuple params)) (hparams : ∀ p ∈ params, s.IsTupleFree p)
    (hshape' : s.shape b = .ok (.tuple others)) (hothers : ∀ p ∈ others, s.IsTupleFree p) :
    ∃ answer, Store.subtype a b s = .ok answer (if answer then s.recorded a b else s) ∧
      (answer = true ↔ List.Forall₂ s.Below params others) := by
  have hcanonical : s.canonical b = .ok b := by rw [canonical, hshape']; rfl
  obtain ⟨depth, hdepth⟩ : ∃ depth, s.searchDepth = depth + 1 + 2 * s.size :=
    ⟨6 * s.size * s.size + 6 * s.size + 1, by rw [searchDepth]; ring⟩
  have hlt : ∀ {p}, s.IsTupleFree p → p.index < s.size := fun hp =>
    contains_iff.mp (hs.contains_of_tupleFree hp)
  have helement : ∀ p ∈ params, ∀ q ∈ others, ∀ t, s = t →
      Returns (subtypeWithin (depth + 2 * s.size) p q) t fun answer u =>
        t = u ∧ if answer then s.Below p q else ¬ s.Below p q := by
    rintro p hp q hq t rfl
    have hp' := hlt (hparams p hp)
    have hq' := hlt (hothers q hq)
    obtain ⟨answer, hrun⟩ := hs.subtype_quiet (hparams p hp) (hothers q hq)
    refine ⟨answer, s, ?_, rfl, ?_⟩
    · rw [hs.subtypeWithin_eq _ (hparams p hp) (hothers q hq) (by omega), hrun]
    · cases answer <;> simp [Below, hrun]
  obtain ⟨answer, _, hrun, rfl, hanswer⟩ := Returns.pointwise helement
  obtain ⟨digest, entry, traits, upper, lower, hslot, -⟩ := slot_of_shape_tuple hshape'
  refine ⟨answer, ?_, ?_⟩
  · rw [subtype_run, hdepth, Nat.add_right_comm, subtypeWithin,
      belowStep_of_tuple hshape hcanonical, hs.linked.belowTuple_of_tuple hslot, bind_run hrun]
    cases answer with
    | true => rfl
    | false => rfl
  · cases answer with
    | true => exact ⟨fun _ => hanswer, fun _ => rfl⟩
    | false =>
      refine ⟨fun hfalse => absurd hfalse Bool.false_ne_true, fun hbelow => ?_⟩
      obtain ⟨hlength, hpairs⟩ := List.forall₂_iff_zip.mp hbelow
      rcases hanswer with hne | ⟨pair, hpair, hno⟩
      · exact absurd hlength hne
      · exact absurd (hpairs hpair) hno

/-- Two plain tuples are compared without a promotion, and recorded if the first is found below the
second. -/
theorem WellFormed.subtype_plain (hs : s.WellFormed) (ha : s.IsPlainTuple a)
    (hb : s.IsPlainTuple b) :
    ∃ answer, Store.subtype a b s = .ok answer (if answer then s.recorded a b else s) := by
  obtain ⟨params, hshape, hparams⟩ := ha
  obtain ⟨others, hshape', hothers⟩ := hb
  obtain ⟨answer, hrun, -⟩ := hs.subtype_tuples hshape hparams hshape' hothers
  exact ⟨answer, hrun⟩

variable {pairs pairs' : List (Handle × Handle)}

private theorem Alike.isPlainTuple (halike : s.Alike s') (hh : s.IsPlainTuple h) :
    s'.IsPlainTuple h := by
  obtain ⟨params, hshape, hparams⟩ := hh
  refine ⟨params, (halike.shape_eq h).trans hshape, fun p hp => ?_⟩
  obtain ⟨states, journal, rfl, -⟩ := halike
  exact hparams p hp

/-- The comparison has the same answer in every store that is alike. -/
theorem WellFormed.subtype_plain_alike (hs : s.WellFormed) (hs' : s'.WellFormed)
    (halike : s.Alike s') (ha : s.IsPlainTuple a) (hb : s.IsPlainTuple b) :
    ∃ answer, Store.subtype a b s = .ok answer (if answer then s.recorded a b else s) ∧
      Store.subtype a b s' = .ok answer (if answer then s'.recorded a b else s') := by
  obtain ⟨answer, hrun⟩ := hs.subtype_plain ha hb
  have hfixed : (if answer then s.recorded a b else s).fixedCount = s.fixedCount := by
    split
    · exact (alike_recorded s a b).fixedCount_eq
    · rfl
  rw [subtype_run] at hrun
  obtain ⟨t', hreplay, -⟩ := hs.subtypeWithin_replay halike hrun hfixed
  have ha' := halike.isPlainTuple ha
  have hb' := halike.isPlainTuple hb
  have hreplay' := subtype_eq_of_within hs' ha'.contains hb'.contains hreplay
  obtain ⟨answer', hrun'⟩ := hs'.subtype_plain ha' hb'
  rw [hrun'] at hreplay'
  cases hreplay'
  exact ⟨answer, (subtype_run s a b).trans hrun, hrun'⟩

/-- Whether all questions about plain tuples are answered with yes does not depend on what was
recorded before, and so it does not depend on their order. -/
theorem WellFormed.allM_subtype_iff (hs : s.WellFormed) (hs' : s'.WellFormed)
    (halike : s.Alike s')
    (hplain : ∀ pair ∈ pairs, s.IsPlainTuple pair.1 ∧ s.IsPlainTuple pair.2) :
    pairs.allM (fun pair => Store.subtype pair.1 pair.2) s' = .ok true t ↔
      (∀ pair ∈ pairs, ∃ u, Store.subtype pair.1 pair.2 s = .ok true u) ∧
        t = s'.recordedAll pairs := by
  induction pairs generalizing s' with
  | nil =>
    refine ⟨fun hrun => ?_, fun ⟨_, ht⟩ => by rw [ht]; rfl⟩
    cases hrun
    exact ⟨by simp, rfl⟩
  | cons pair pairs ih =>
    obtain ⟨ha, hb⟩ := hplain pair List.mem_cons_self
    obtain ⟨answer, hrun, hrun'⟩ := hs.subtype_plain_alike hs' halike ha hb
    have ha' := (halike.isPlainTuple ha).isFixed.isTuple
    have hb' := (halike.isPlainTuple hb).isFixed.isTuple
    have hrest := ih (settles_recorded hs' ha' hb').wellFormed
      (halike.trans (alike_recorded s' pair.1 pair.2))
      fun pair' hpair => hplain pair' (List.mem_cons_of_mem pair hpair)
    rw [List.allM_cons, bind_run hrun', List.forall_mem_cons]
    cases answer with
    | true =>
      refine hrest.trans (and_congr_left fun _ => ?_)
      exact ⟨fun hall => ⟨⟨_, hrun⟩, hall⟩, fun hall => hall.2⟩
    | false =>
      refine ⟨fun hfalse => ?_, fun ⟨⟨⟨u, htrue⟩, _⟩, _⟩ => ?_⟩
      · cases hfalse
      · rw [hrun] at htrue
        cases htrue

/-- What is recorded in another order, as long as the lower bounds of each tuple come in the same
order. -/
theorem WellFormed.reordered_recordedAll (hs : s.WellFormed)
    (hplain : ∀ pair ∈ pairs, s.IsPlainTuple pair.1 ∧ s.IsPlainTuple pair.2)
    (hperm : pairs.Perm pairs')
    (hlower : ∀ h, (s.recordedAll pairs').lowerBounds h = (s.recordedAll pairs).lowerBounds h) :
    ∃ limit, Reordered limit (s.recordedAll pairs) (s.recordedAll pairs') := by
  have hfixed : ∀ pair ∈ pairs, s.IsFixed pair.1 ∧ s.IsFixed pair.2 := fun pair hpair =>
    ⟨(hplain pair hpair).1.isFixed, (hplain pair hpair).2.isFixed⟩
  have hfixed' : ∀ pair ∈ pairs', s.IsFixed pair.1 ∧ s.IsFixed pair.2 := fun pair hpair =>
    hfixed pair (hperm.mem_iff.mpr hpair)
  have hshifts := shifts_recordedAll hs hfixed
  refine ⟨_, (Reordered.refl hs le_rfl).shift hshifts (shifts_recordedAll hs hfixed') ?_ hlower ?_⟩
  · exact (alike_recordedAll s pairs).symm.trans (alike_recordedAll s pairs')
  · intro h
    rw [(hs.bounds_recordedAll hfixed h).1, (hs.bounds_recordedAll hfixed' h).1]
    obtain ⟨added, added', heq, heq', hadded, hmem⟩ := enterFrom_perm h (s.upperBounds h) hperm
    refine ⟨s.upperBounds h, added, added', [], by simpa using heq, by simpa using heq', hadded, ?_⟩
    intro x hx
    obtain ⟨pair, hpair, rfl, rfl⟩ := hmem x hx
    exact ⟨(hplain pair hpair).1.isFlat hs, (hplain pair hpair).2.isFlat hs⟩

end Plain

end Store

/-- In a reachable store, questions about plain tuples that are all answered with yes are answered
so in any order, and the same bounds are recorded up to their order. The lower bounds of a tuple are
recorded in the same order if the questions with that tuple on the right are asked in the same
order. If all lower bounds are, every promotion gives the same answer and leaves the same tuples
promoted, whatever the order of the upper bounds. -/
theorem Reachable.promote_reordered {s t : Store} {queries reordered : List (Handle × Handle)}
    (hs : Reachable s) (hplain : ∀ q ∈ queries, s.IsPlainTuple q.1 ∧ s.IsPlainTuple q.2)
    (hperm : queries.Perm reordered)
    (hall : queries.allM (fun q => Store.subtype q.1 q.2) s = .ok true t) :
    ∃ t', reordered.allM (fun q => Store.subtype q.1 q.2) s = .ok true t' ∧
      (∀ h, (t.upperBounds h).Perm (t'.upperBounds h) ∧
        (t.lowerBounds h).Perm (t'.lowerBounds h)) ∧
      (∀ h, reordered.filter (·.2 = h) = queries.filter (·.2 = h) →
        t'.lowerBounds h = t.lowerBounds h) ∧
      ((∀ h, t'.lowerBounds h = t.lowerBounds h) → ∀ x, s.contains x →
        ∃ consistent u u', Store.promote x t = .ok consistent u ∧
          Store.promote x t' = .ok consistent u' ∧ ∀ h, u'.isPromoted h = u.isPromoted h) := by
  have hwf := hs.wellFormed
  have hplain' : ∀ q ∈ reordered, s.IsPlainTuple q.1 ∧ s.IsPlainTuple q.2 := fun q hq =>
    hplain q (hperm.mem_iff.mpr hq)
  have hfixed : ∀ q ∈ queries, s.IsFixed q.1 ∧ s.IsFixed q.2 := fun q hq =>
    ⟨(hplain q hq).1.isFixed, (hplain q hq).2.isFixed⟩
  have hfixed' : ∀ q ∈ reordered, s.IsFixed q.1 ∧ s.IsFixed q.2 := fun q hq =>
    hfixed q (hperm.mem_iff.mpr hq)
  obtain ⟨htrue, rfl⟩ := (hwf.allM_subtype_iff hwf (.refl s) hplain).mp hall
  refine ⟨s.recordedAll reordered, (hwf.allM_subtype_iff hwf (.refl s) hplain').mpr
    ⟨fun q hq => htrue q (hperm.mem_iff.mpr hq), rfl⟩, fun h => ?_, fun h hfilter => ?_,
    fun hlower x hx => ?_⟩
  · obtain ⟨hupper, hlower⟩ := hwf.bounds_recordedAll hfixed h
    obtain ⟨hupper', hlower'⟩ := hwf.bounds_recordedAll hfixed' h
    rw [hupper, hlower, hupper', hlower']
    exact ⟨perm_enterFrom h _ hperm, perm_enterFrom h _ hperm⟩
  · rw [(hwf.bounds_recordedAll hfixed h).2, (hwf.bounds_recordedAll hfixed' h).2, enterFrom,
      enterFrom, hfilter]
  · obtain ⟨limit, hR⟩ := hwf.reordered_recordedAll hplain hperm hlower
    have hx' := ((Store.shifts_recordedAll hwf hfixed).settles hwf).contains hx
    obtain ⟨consistent, u, u', hrun, hrun', halike⟩ := hR.promote_eq hx'
    exact ⟨consistent, u, u', hrun, hrun', halike.isPromoted_eq⟩

def triangleStore : Store :=
  .after [.nominal "Integer", .tuple [⟨5⟩], .tuple [⟨5⟩], .tuple [⟨5⟩]]

def triangleQueries : List (Handle × Handle) :=
  [(⟨7⟩, ⟨6⟩), (⟨8⟩, ⟨6⟩), (⟨8⟩, ⟨7⟩)]

private theorem triangleQueries_plain :
    ∀ q ∈ triangleQueries, triangleStore.IsPlainTuple q.1 ∧ triangleStore.IsPlainTuple q.2 := by
  have hshape : ∀ q ∈ triangleQueries, triangleStore.shape q.1 = .ok (.tuple [⟨5⟩]) ∧
      triangleStore.shape q.2 = .ok (.tuple [⟨5⟩]) := by decide +kernel
  have hfree : ∀ p ∈ [⟨5⟩], triangleStore.IsTupleFree p := by decide +kernel
  exact fun q hq => ⟨⟨[⟨5⟩], (hshape q hq).1, hfree⟩, ⟨[⟨5⟩], (hshape q hq).2, hfree⟩⟩

/-- The last question may as well be asked first: the upper bounds of the last tuple are then
recorded in another order, but all lower bounds in the same. -/
theorem triangleStore_reordered :
    let reordered : List (Handle × Handle) := [(⟨8⟩, ⟨7⟩), (⟨7⟩, ⟨6⟩), (⟨8⟩, ⟨6⟩)]
    Reachable triangleStore ∧ triangleQueries.Perm reordered ∧
      ∃ t t', triangleQueries.allM (fun q => Store.subtype q.1 q.2) triangleStore = .ok true t ∧
        reordered.allM (fun q => Store.subtype q.1 q.2) triangleStore = .ok true t' ∧
        ∃ consistent u u', Store.promote ⟨6⟩ t = .ok consistent u ∧
          Store.promote ⟨6⟩ t' = .ok consistent u' ∧ ∀ h, u'.isPromoted h = u.isPromoted h := by
  intro reordered
  have hs : Reachable triangleStore := .after (by decide)
  have hperm : triangleQueries.Perm reordered := by decide
  have hfilter : ∀ h, reordered.filter (·.2 = h) = triangleQueries.filter (·.2 = h) := by
    intro h
    by_cases hfirst : (⟨6⟩ : Handle) = h <;> by_cases hsecond : (⟨7⟩ : Handle) = h <;>
      grind [triangleQueries]
  have hanswer : (triangleQueries.allM fun q => Store.subtype q.1 q.2).run' triangleStore =
      some true := by decide +kernel
  obtain ⟨t, hall⟩ := exists_run_of_run' hanswer
  obtain ⟨t', hall', -, hlower, hpromote⟩ :=
    Reachable.promote_reordered hs triangleQueries_plain hperm hall
  exact ⟨hs, hperm, t, t', hall, hall',
    hpromote (fun h => hlower h (hfilter h)) ⟨6⟩ (by decide +kernel)⟩

def triangleSession (queries : List (Handle × Handle)) : StoreM (Bool × Bool × Bool) := do
  let all ← queries.allM fun q => Store.subtype q.1 q.2
  let consistent ← Store.promote ⟨6⟩
  return (all, consistent, ← Store.ask (·.isPromoted ⟨7⟩))

/-- If the lower bounds of the first tuple are recorded in another order, the promotion of that
tuple gives another answer and promotes other tuples. In the first order the second tuple is
promoted before the last, which is found below it. In the other order the last tuple is promoted
while the second is still fixed, and then it is not found below it any more. -/
theorem triangleStore_promote_differs :
    let reordered : List (Handle × Handle) := [(⟨8⟩, ⟨6⟩), (⟨7⟩, ⟨6⟩), (⟨8⟩, ⟨7⟩)]
    Reachable triangleStore ∧
      (∀ q ∈ triangleQueries, triangleStore.IsPlainTuple q.1 ∧ triangleStore.IsPlainTuple q.2) ∧
      triangleQueries.Perm reordered ∧
      ∃ t t' u u',
        triangleQueries.allM (fun q => Store.subtype q.1 q.2) triangleStore = .ok true t ∧
        reordered.allM (fun q => Store.subtype q.1 q.2) triangleStore = .ok true t' ∧
        Store.promote ⟨6⟩ t = .ok true u ∧ u.isPromoted ⟨7⟩ = .ok true ∧
        Store.promote ⟨6⟩ t' = .ok false u' ∧ u'.isPromoted ⟨7⟩ = .ok false := by
  intro reordered
  have hparts : ∀ {queries all consistent promoted},
      (triangleSession queries).run' triangleStore = some (all, consistent, promoted) →
        ∃ t u, queries.allM (fun q => Store.subtype q.1 q.2) triangleStore = .ok all t ∧
          Store.promote ⟨6⟩ t = .ok consistent u ∧ u.isPromoted ⟨7⟩ = .ok promoted := by
    intro queries all consistent promoted hsession
    obtain ⟨_, hrun⟩ := exists_run_of_run' hsession
    obtain ⟨all', t, hall, hrest⟩ := bind_run_eq_ok_iff.mp hrun
    obtain ⟨consistent', u, hpromote, hrest⟩ := bind_run_eq_ok_iff.mp hrest
    obtain ⟨promoted', _, hask, hend⟩ := bind_run_eq_ok_iff.mp hrest
    cases hend
    exact ⟨t, u, hall, hpromote, (ask_run_eq_ok_iff.mp hask).1⟩
  have hfirst : (triangleSession triangleQueries).run' triangleStore = some (true, true, true) := by
    decide +kernel
  have hsecond : (triangleSession reordered).run' triangleStore = some (true, false, false) := by
    decide +kernel
  obtain ⟨t, u, hall, hpromote, hpromoted⟩ := hparts hfirst
  obtain ⟨t', u', hall', hpromote', hpromoted'⟩ := hparts hsecond
  exact ⟨.after (by decide), triangleQueries_plain, by decide, t, t', u, u', hall, hall',
    hpromote, hpromoted, hpromote', hpromoted'⟩

end GradualTypes
