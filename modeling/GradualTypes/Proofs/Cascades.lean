import GradualTypes.Proofs.Sharing
import GradualTypes.Proofs.Transparency

/-!
What a promotion does to the tuples next to the promoted one. A fixed tuple is compared with the
array type of a promoted tuple only after it was promoted too, and an array type is never below a
fixed tuple. So a promotion that finds all recorded bounds still in place has promoted every bound
on its way, and whatever it finds, it has promoted the tuple itself for good.
-/

namespace GradualTypes

namespace Store

variable {s t : Store} {a b h tuple array : Handle} {answer : Bool}

section Loops

/-- A loop that answers yes at its end has answered yes for each of its elements. What is reached at
one of them is still so at the end if no later step undoes it. -/
private theorem allM_run_true {f : Handle → StoreM Bool} {types : List Handle} {inv : Store → Prop}
    {reached : Store → Handle → Prop}
    (hstep : ∀ x ∈ types, ∀ {u v}, inv u → f x u = .ok true v →
      inv v ∧ reached v x ∧ ∀ y, reached u y → reached v y)
    (hs : inv s) (hrun : types.allM f s = .ok true t) :
    inv t ∧ (∀ x ∈ types, reached t x) ∧ ∀ y, reached s y → reached t y := by
  induction types generalizing s with
  | nil =>
    obtain ⟨-, rfl⟩ := EStateM.Result.ok.inj hrun
    exact ⟨hs, by simp, fun _ hy => hy⟩
  | cons x rest ih =>
    rw [List.allM_cons] at hrun
    obtain ⟨answer, u, hhead, htail⟩ := bind_run_eq_ok_iff.mp hrun
    cases answer with
    | false => cases htail
    | true =>
      obtain ⟨hu, hx, hkept⟩ := hstep x List.mem_cons_self hs hhead
      obtain ⟨ht, hrest, hkept'⟩ :=
        ih (fun y hy => hstep y (List.mem_cons_of_mem x hy)) hu htail
      exact ⟨ht, List.forall_mem_cons.mpr ⟨hkept' x hx, hrest⟩, fun y hy => hkept' y (hkept y hy)⟩

end Loops

section Steps

def IsPromoted (s : Store) (h : Handle) : Prop :=
  ∃ array, s.shape h = .ok (.promoted array)

theorem IsTuple.fixed_or_promoted (hh : s.IsTuple h) (hs : s.Linked) :
    (∃ params, s.shape h = .ok (.tuple params)) ∨ s.IsPromoted h := by
  obtain ⟨params, _, _, _, hslot⟩ := hh
  exact (hs.shape_of_tuple hslot).imp (fun hshape => ⟨params, hshape⟩) id

theorem Linked.shape_of_isFixed (hs : s.Linked) (hfixed : s.IsFixed h) :
    ∃ params, s.shape h = .ok (.tuple params) := by
  refine (hfixed.isTuple.fixed_or_promoted hs).resolve_right ?_
  rintro ⟨array, hpromoted⟩
  exact not_isFixed_of_promoted hpromoted hfixed

theorem IsPromoted.contains (hh : s.IsPromoted h) : s.contains h := by
  obtain ⟨array, hshape⟩ := hh
  exact Linked.contains_of_shape hshape

/-- A tuple that is promoted stays so. -/
theorem IsPromoted.moves (hh : s.IsPromoted h) (hs : s.WellFormed) (hst : Moves s t) :
    t.IsPromoted h := by
  obtain ⟨array, hshape⟩ := hh
  exact ⟨array, hst.shifts.shape_eq hs hshape (by simp)⟩

variable (hs : s.WellFormed)
include hs

/-- A comparison that a search makes after some moves is one of its own, and makes moves in turn. -/
theorem WellFormed.subtype_after {depth : Nat} {u : Store} (hst : Moves s t) (ha : s.contains a)
    (hb : s.contains b) (hrun : subtypeWithin depth a b t = .ok answer u) :
    Store.subtype a b t = .ok answer u ∧ Moves s u ∧ ∀ x, t.IsPromoted x → u.IsPromoted x := by
  have hsettles := hst.settles hs
  have ha := hsettles.contains ha
  have hb := hsettles.contains hb
  have hrun := subtype_eq_of_within hsettles.wellFormed ha hb hrun
  have htu := (subtype_moves hsettles.wellFormed ha hb).of_run hrun
  exact ⟨hrun, hst.trans htu, fun x hx => hx.moves hsettles.wellFormed htu⟩

/-- Promoting a tuple promotes it, whatever becomes of its bounds. -/
theorem WellFormed.isPromoted_of_promote (hh : s.IsTuple h)
    (hrun : Store.promote h s = .ok answer t) : t.IsPromoted h := by
  rcases hh.fixed_or_promoted hs.linked with ⟨params, hshape⟩ | hpromoted
  · obtain ⟨element, u, array, v, hunion, harray⟩ := exists_promotion hs hshape
    have hmove : Moves s (v.promotedTo h array) := .single (.promotion hshape hunion harray)
    have hpromoted : (v.promotedTo h array).IsPromoted h :=
      ⟨array, (shape_of_promotion hs hshape hunion harray).1⟩
    exact hpromoted.moves (hmove.settles hs).wellFormed
      ((promote_moves_of_tuple hs hshape hunion harray).of_run hrun)
  · exact hpromoted.moves hs ((promote_moves hs hh.contains).of_run hrun)

/-- A tuple that is found below a promoted one is promoted. -/
theorem WellFormed.isPromoted_of_below (ha : s.IsTuple a) (hb : s.IsPromoted b)
    (hrun : Store.subtype a b s = .ok true t) : t.IsPromoted a := by
  have hcontains := hb.contains
  obtain ⟨array, hshape⟩ := hb
  obtain ⟨element, traits, harray⟩ := hs.linked.slot_of_promoted hshape
  have harray' : s.isArrayType b = .ok true :=
    isArrayType_eq_true_iff.mpr ⟨array, element, traits, canonical_of_promoted hshape, harray⟩
  rcases ha.fixed_or_promoted hs.linked with ⟨params, hfixed⟩ | hpromoted
  · obtain ⟨m, hpromote, hrest⟩ := hs.subtype_of_promoted hcontains hfixed harray' hrun
    have hsm := ((promote_moves hs ha.contains).of_run hpromote).settles hs
    exact (hs.isPromoted_of_promote ha hpromote).moves hsm.wellFormed
      ((subtype_moves hsm.wellFormed (hsm.contains ha.contains)
        (hsm.contains hcontains)).of_run hrest)
  · exact hpromoted.moves hs ((subtype_moves hs ha.contains hcontains).of_run hrun)

/-- A generic type is not below a fixed tuple. -/
private theorem WellFormed.subtype_generic_tuple {base : Handle} {params others : List Handle}
    (ha : s.shape a = .ok (.generic base params)) (hb : s.shape b = .ok (.tuple others)) :
    Store.subtype a b s = .ok false s := by
  obtain ⟨_, hslot⟩ := slot_of_shape ha rfl
  obtain ⟨_, _, _, _, _, hslot', _⟩ := slot_of_shape_tuple hb
  have hevident : ¬ Evident a b := by
    rintro (rfl | htop | hnil)
    · rw [ha] at hb
      cases hb
    · cases (hs.linked.special_iff hslot').1.mpr htop
    · cases (hs.linked.special_iff hslot).2.mpr hnil
  have hstep : subtypeWithin 1 a b s = .ok false s := by
    rw [subtypeWithin, belowStep_of_plain ha (by simp) (by simp)
      (canonical_of_shape hb (by simp)) hb, if_neg hevident]
    rfl
  exact subtype_eq_of_within hs (Linked.contains_of_shape ha) (Linked.contains_of_shape hb) hstep

/-- A tuple that a promoted one is found below is promoted. -/
theorem WellFormed.isPromoted_of_above (ha : s.IsPromoted a) (hb : s.IsTuple b)
    (hrun : Store.subtype a b s = .ok true t) : t.IsPromoted b := by
  have hcontains := ha.contains
  obtain ⟨array, hshape⟩ := ha
  rcases hb.fixed_or_promoted hs.linked with ⟨params, hfixed⟩ | hpromoted
  · obtain ⟨element, harray⟩ := hs.shape_of_array hshape
    obtain ⟨answer, u, hrun', harray'⟩ := (hs.subtype_promoted hshape hb.contains).1
    rw [hs.subtype_generic_tuple harray hfixed] at harray'
    rw [hrun'] at hrun
    cases harray'
    cases hrun
  · exact hpromoted.moves hs ((subtype_moves hs hcontains hb.contains).of_run hrun)

/-- If the bounds of a promoted tuple hold, then all of them are promoted. -/
theorem WellFormed.isPromoted_of_boundsHold {depth : Nat} {lower upper : List Handle}
    (htuple : s.IsPromoted tuple) (hbounds : ∀ x ∈ lower ++ upper, s.IsTuple x)
    (hrun : boundsHold (subtypeWithin depth) tuple lower upper s = .ok true t) :
    ∀ x ∈ lower ++ upper, t.IsPromoted x := by
  have hcontains := htuple.contains
  -- each comparison starts from a store to which moves have led, where the tuple is still promoted
  have hlower : ∀ x ∈ lower, ∀ {u v}, Moves s u → subtypeWithin depth x tuple u = .ok true v →
      Moves s v ∧ v.IsPromoted x ∧ ∀ y, u.IsPromoted y → v.IsPromoted y := by
    intro x hx u v hsu hrun
    have hx' := hbounds x (List.mem_append_left upper hx)
    have hu := hsu.settles hs
    obtain ⟨hrun, hsv, hkept⟩ := hs.subtype_after hsu hx'.contains hcontains hrun
    exact ⟨hsv, hu.wellFormed.isPromoted_of_below (hu.isTuple hx') (htuple.moves hs hsu) hrun,
      hkept⟩
  have hupper : ∀ x ∈ upper, ∀ {u v}, Moves s u → subtypeWithin depth tuple x u = .ok true v →
      Moves s v ∧ v.IsPromoted x ∧ ∀ y, u.IsPromoted y → v.IsPromoted y := by
    intro x hx u v hsu hrun
    have hx' := hbounds x (List.mem_append_right lower hx)
    have hu := hsu.settles hs
    obtain ⟨hrun, hsv, hkept⟩ := hs.subtype_after hsu hcontains hx'.contains hrun
    exact ⟨hsv, hu.wellFormed.isPromoted_of_above (htuple.moves hs hsu) (hu.isTuple hx') hrun,
      hkept⟩
  rw [boundsHold] at hrun
  obtain ⟨answer, u, hfirst, hsecond⟩ := bind_run_eq_ok_iff.mp hrun
  cases answer with
  | false => cases hsecond
  | true =>
    obtain ⟨hsu, hbelow, -⟩ := allM_run_true hlower .refl hfirst
    obtain ⟨-, habove, hkept⟩ := allM_run_true hupper hsu hsecond
    intro x hx
    rcases List.mem_append.mp hx with hx | hx
    · exact hkept x (hbelow x hx)
    · exact habove x hx

/-- A promotion that finds all bounds in place has promoted them. -/
theorem WellFormed.isPromoted_of_consistent {params : List Handle}
    (hshape : s.shape tuple = .ok (.tuple params)) (hrun : Store.promote tuple s = .ok true t) :
    ∀ x ∈ s.lowerBounds tuple ++ s.upperBounds tuple, t.IsPromoted x := by
  obtain ⟨element, u, array, v, hunion, harray⟩ := exists_promotion hs hshape
  have hmove : Moves s (v.promotedTo tuple array) := .single (.promotion hshape hunion harray)
  have hm := hmove.settles hs
  rw [promote_run, promoteBy_run _ hshape hunion harray, recheck] at hrun
  obtain ⟨answer, w, hbounds, hend⟩ := bind_run_eq_ok_iff.mp hrun
  cases answer with
  | false =>
    obtain ⟨-, -, -, hend⟩ := bind_run_eq_ok_iff.mp hend
    cases hend
  | true =>
    obtain ⟨-, rfl⟩ := EStateM.Result.ok.inj hend
    exact hm.wellFormed.isPromoted_of_boundsHold
      ⟨array, (shape_of_promotion hs hshape hunion harray).1⟩
      (fun x hx => hm.isTuple (hs.linked.isTuple_bound hx)) hbounds

omit hs in
/-- There is nothing left to promote about a promoted tuple. -/
theorem IsPromoted.promote_again (hh : s.IsPromoted h) : Store.promote h s = .ok true s := by
  obtain ⟨array, hshape⟩ := hh
  rw [promote_run, promoteBy, bind_run (ask_run hshape)]
  rfl

end Steps

end Store

open Store in
/-- In a reachable store the promotion of a fixed tuple comes to an end. Whatever it answers, the
tuple is promoted, and promoting it a second time answers yes and changes nothing. If it answers
yes, then all tuples that were recorded as bounds of the tuple are promoted as well. -/
theorem Reachable.promote_neighbours {s : Store} {tuple : Handle} (hs : Reachable s)
    (hfixed : s.IsFixed tuple) :
    ∃ answer t, Store.promote tuple s = .ok answer t ∧ t.isPromoted tuple = .ok true ∧
      (answer = true → ∀ x ∈ s.lowerBounds tuple ++ s.upperBounds tuple,
        t.isPromoted x = .ok true) ∧
      Store.promote tuple t = .ok true t := by
  have hwf := hs.wellFormed
  have htuple := hfixed.isTuple
  obtain ⟨params, hshape⟩ := hwf.linked.shape_of_isFixed hfixed
  obtain ⟨answer, t, hrun, hmoves⟩ := promote_moves hwf htuple.contains
  have ht := (hmoves.settles hwf).wellFormed
  have hpromoted := hwf.isPromoted_of_promote htuple hrun
  refine ⟨answer, t, hrun, ht.isPromoted_iff.mpr hpromoted, ?_, hpromoted.promote_again⟩
  rintro rfl x hx
  exact ht.isPromoted_iff.mpr (hwf.isPromoted_of_consistent hshape hrun x hx)

/-- In `pairStore` the first tuple has the second one and itself as bounds on both sides, and both
are promoted at once. -/
theorem pairStore_promote_neighbours :
    pairStore.IsFixed ⟨7⟩ ∧ pairStore.lowerBounds ⟨7⟩ = [⟨8⟩, ⟨7⟩] ∧
      pairStore.upperBounds ⟨7⟩ = [⟨8⟩, ⟨7⟩] ∧
      ∃ t, Store.promote ⟨7⟩ pairStore = .ok true t ∧ t.isPromoted ⟨7⟩ = .ok true ∧
        t.isPromoted ⟨8⟩ = .ok true ∧ Store.promote ⟨7⟩ t = .ok true t := by
  have hfixed : pairStore.IsFixed ⟨7⟩ := by decide +kernel
  have hlower : pairStore.lowerBounds ⟨7⟩ = [⟨8⟩, ⟨7⟩] := by decide +kernel
  have hupper : pairStore.upperBounds ⟨7⟩ = [⟨8⟩, ⟨7⟩] := by decide +kernel
  obtain ⟨answer, t, hrun, hself, hbounds, hagain⟩ :=
    Reachable.promote_neighbours reachable_pairStore hfixed
  obtain rfl : answer = true := eq_of_run' hrun (by decide +kernel)
  exact ⟨hfixed, hlower, hupper, t, hrun, hself, hbounds rfl ⟨8⟩ (by simp [hlower]), hagain⟩

end GradualTypes
