import GradualTypes.Proofs.Simulation

/-!
Searches that are run again. A search that promotes no tuple gives the same answer in every store
that differs only in recorded bounds, which are not read on the way. The right type counts only for
what it stands for. A fixed tuple that is compared with an array type is promoted before anything is
compared, and then it is the array type of its elements that is compared.
-/

namespace GradualTypes

namespace Store

variable {s s' t m : Store} {a b c h : Handle} {depth : Nat} {answer : Bool}

section Replay

/-- The promotion of a fixed tuple leaves fewer fixed tuples, however deep its checks may nest. -/
private theorem promoteBy_shifts (hs : s.WellFormed) {params : List Handle}
    (hshape : s.shape a = .ok (.tuple params))
    (hrun : promoteBy (subtypeWithin depth) a s = .ok answer t) :
    Shifts s t ∧ t.fixedCount < s.fixedCount := by
  have hwork := effort_lt_searchDepth hs a a
  rw [effort] at hwork
  have hreturns := promoteBy_returns (subtypeWithin_ends _ s.searchDepth) hs le_rfl hshape
    (by omega)
  have hpromote := promote_eq_of_within hs (Linked.contains_of_shape hshape) hrun
  rw [promote_run] at hpromote
  obtain ⟨hmoves, hless⟩ := hreturns.of_run hpromote
  exact ⟨hmoves.shifts, hless⟩

/-- A run is followed in a store that is alike until it promotes a tuple. -/
theorem replaying : Pairing (fun s s' => s.WellFormed ∧ s.Alike s')
    (fun s t => t.fixedCount < s.fixedCount) where
  wellFormed hR := hR.1
  alike hR := hR.2
  self _ hst := ⟨hst.wellFormed, .refl _⟩
  lost_before hlost htu := by
    rcases htu.settled with hless | ⟨hsame, -⟩ <;> omega
  lost_after hst hlost := by
    rcases hst.settled with hless | ⟨hsame, -⟩ <;> omega
  record hR hlower hupper :=
    ⟨(settles_recorded hR.1 hlower hupper).wellFormed, hR.2.recorded _ _⟩

/-- A search that promotes no tuple gives the same answer in every store that is alike. -/
theorem WellFormed.subtypeWithin_replay (hs : s.WellFormed) (halike : s.Alike s')
    (hrun : subtypeWithin depth a b s = .ok answer t) (hfixed : t.fixedCount = s.fixedCount) :
    ∃ t', subtypeWithin depth a b s' = .ok answer t' ∧ t.Alike t' := by
  have htracks := subtypeWithin_tracks replaying 0
    (fun depth _ s s' tuple params hR hshape answer t hrun =>
      have hpromoted := promoteBy_shifts hR.1 hshape hrun
      ⟨hpromoted.1, .inl hpromoted.2⟩) depth a b s s' ⟨hs, halike⟩
  obtain ⟨-, hlost | ⟨t', hrun', -, halike'⟩⟩ := htracks hrun
  · omega
  · exact ⟨t', hrun', halike'⟩

end Replay

section Again

/-- What a type stands for is all that the search sees of it on the right. -/
theorem subtypeWithin_canonical (hcanonical : s.canonical b = s.canonical c) :
    subtypeWithin depth a b s = subtypeWithin depth a c s := by
  induction depth generalizing a with
  | zero => rfl
  | succ depth ih =>
    have hask : ∀ {β : Type} (f : Handle → StoreM β),
        (ask (·.canonical b) >>= f) s = (ask (·.canonical c) >>= f) s := by
      intro β f
      change EStateM.bind _ f s = EStateM.bind _ f s
      rw [EStateM.bind, EStateM.bind, ask, ask, hcanonical]
    rw [subtypeWithin, subtypeWithin, belowStep, belowStep]
    cases hshape : s.shape a with
    | error e => rw [bind_run_error (ask_run_error hshape), bind_run_error (ask_run_error hshape)]
    | ok left =>
      rw [bind_run (ask_run hshape), bind_run (ask_run hshape)]
      cases left with
      | promoted array => exact ih
      | _ => exact hask _

def isArrayType (s : Store) (h : Handle) : Except Error Bool := do
  return (← s.node (← s.canonical h)).isArray

theorem isArrayType_eq_true_iff :
    s.isArrayType h = .ok true ↔
      ∃ x element traits, s.canonical h = .ok x ∧
        s.slot? x = some ⟨.generic .arrayClass [element], traits⟩ := by
  rw [isArrayType, bind_eq_ok_iff]
  refine exists_congr fun x => ?_
  constructor
  · rintro ⟨hcanonical, hnode⟩
    obtain ⟨node, hnode, harray⟩ := bind_eq_ok_iff.mp hnode
    obtain ⟨traits, hslot⟩ := exists_slot_of_node hnode
    have harray : node.isArray = true := Except.ok.inj harray
    unfold Node.isArray at harray
    split at harray
    · rw [of_decide_eq_true harray] at hslot
      exact ⟨_, traits, hcanonical, hslot⟩
    · cases harray
  · rintro ⟨element, traits, hcanonical, hslot⟩
    exact ⟨hcanonical, by rw [node_of_slot hslot]; rfl⟩

section Runs

variable {below : Handle → Handle → StoreM Bool} {params : List Handle} {sup : Handle}

theorem belowStep_of_tuple (hshape : s.shape a = .ok (.tuple params))
    (hsup : s.canonical b = .ok sup) : belowStep below a b s = belowTuple below a params sup s := by
  rw [belowStep, bind_run (ask_run hshape)]
  exact bind_run (ask_run hsup)

theorem Linked.ne_top_of_slot (hs : s.Linked) {slot : Slot} (hslot : s.slot? h = some slot)
    (hnode : slot.node ≠ .top) : h ≠ .top :=
  mt (hs.special_iff hslot).1.mpr hnode

theorem Linked.belowTuple_of_tuple (hs : s.Linked) {others : List Handle} {digest : UInt64}
    {entry : Nat} {traits : Traits}
    (hslot : s.slot? sup = some ⟨.tuple others digest entry, traits⟩) :
    belowTuple below a params sup s =
      (do if ← Lifting.pointwise below params others then
            recordBound a sup
            return true
          else return false : StoreM Bool) s := by
  have htop := hs.ne_top_of_slot hslot (by simp)
  rw [belowTuple, if_neg htop, bind_run (ask_run (node_of_slot hslot))]

theorem Linked.belowTuple_of_array (hs : s.Linked) {element : Handle} {traits : Traits}
    (hslot : s.slot? sup = some ⟨.generic .arrayClass [element], traits⟩) :
    belowTuple below a params sup s =
      (do let consistent ← promoteBy below a
          let holds ← below a sup
          return holds && consistent : StoreM Bool) s := by
  have htop := hs.ne_top_of_slot hslot (by simp)
  rw [belowTuple, if_neg htop, bind_run (ask_run (node_of_slot hslot))]
  rfl

end Runs

/-- A fixed tuple that is found below an array type is promoted first, and then found below it. -/
theorem WellFormed.subtype_of_promoted (hs : s.WellFormed) (hb : s.contains b)
    {params : List Handle} (hshape : s.shape a = .ok (.tuple params))
    (harray : s.isArrayType b = .ok true) (hrun : Store.subtype a b s = .ok true t) :
    ∃ m, Store.promote a s = .ok true m ∧ Store.subtype a b m = .ok true t := by
  have ha := Linked.contains_of_shape hshape
  obtain ⟨sup, element, traits, hcanonical, hslot⟩ := isArrayType_eq_true_iff.mp harray
  have hsup : s.shape sup = .ok (.generic .arrayClass [element]) :=
    shape_eq_ok_iff.mpr ⟨_, hslot, rfl⟩
  obtain ⟨depth, hdepth⟩ : ∃ depth, s.searchDepth = depth + 1 :=
    Nat.exists_eq_succ_of_ne_zero (by simp [searchDepth])
  rw [subtype_run, hdepth, subtypeWithin, belowStep_of_tuple hshape hcanonical,
    hs.linked.belowTuple_of_array hslot] at hrun
  obtain ⟨consistent, m, hpromote, hrest⟩ := bind_run_eq_ok_iff.mp hrun
  obtain ⟨holds, u, hbelow, hend⟩ := bind_run_eq_ok_iff.mp hrest
  obtain ⟨hanswer, rfl⟩ := EStateM.Result.ok.inj hend
  obtain ⟨rfl, rfl⟩ := Bool.and_eq_true_iff.mp hanswer
  have hpromote' := promote_eq_of_within hs ha hpromote
  have hsm := (promote_returns hs ha).of_run hpromote'
  have hm := hsm.settles hs
  -- what the right type stands for is not touched by the promotion
  have hsame : m.canonical b = m.canonical sup := by
    have hsup' := hsm.shape_eq hs hsup (by simp)
    obtain ⟨right, hright, hof⟩ := bind_eq_ok_iff.mp hcanonical
    cases right with
    | promoted array =>
      cases hof
      rw [canonical, canonical, hsm.shape_eq hs hright (by simp), hsup']
      rfl
    | _ =>
      cases hof
      rfl
  rw [← subtypeWithin_canonical hsame] at hbelow
  exact ⟨m, hpromote', subtype_eq_of_within hm.wellFormed (hm.contains ha) (hm.contains hb) hbelow⟩

theorem apply_promote (hrun : Store.promote a s = .ok answer t) :
    (Operation.promote a).apply s = t :=
  Operation.apply_of_run _ rfl hrun

end Again

end Store

end GradualTypes
