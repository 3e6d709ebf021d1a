import GradualTypes.Proofs.Reachability
import GradualTypes.Proofs.Unpromoted

/-!
What the traits of a type tell. They are computed when a type is made, from the traits of its
components, and kept from then on. Components are older than what is made of them, so by induction
on the handles the traits of a type tell exactly whether a variable or a tuple occurs in it as it
was built. A tuple that is promoted still counts, though a type can be equal to it in which no tuple
occurs. What components pass on is masked, so the word of a type has no other bits.
-/

namespace GradualTypes

private theorem Node.hasVar_ownTraits {node : Node} :
    node.ownTraits.hasVar = true ↔ ∃ name, node = .var name := by
  cases node <;> simp [ownTraits]

private theorem Node.hasTuple_ownTraits {node : Node} :
    node.ownTraits.hasTuple = true ↔ ∃ params digest entry, node = .tuple params digest entry := by
  cases node <;> simp [ownTraits]

/-- What components pass on has no bit but those of a variable and a tuple. -/
private theorem Traits.bits_mergeAll_lt (parts : List Traits) : (mergeAll parts).bits < 2 ^ 2 := by
  have hnone : none.bits < 2 ^ 2 := by decide
  refine List.foldlRecOn (motive := (bits · < 2 ^ 2)) parts _ hnone fun sum hsum part _ => ?_
  rw [bits_merge, bits_passedOn]
  exact Nat.or_lt_two_pow hsum (Nat.and_lt_two_pow _ (by decide))

/-- A type adds no other bit itself. -/
private theorem Node.bits_ownTraits_lt (node : Node) : node.ownTraits.bits < 2 ^ 2 := by
  cases node <;> simp only [ownTraits] <;> decide

namespace Store

variable {s : Store} {h : Handle} {slot : Slot}

/-- What is passed on holds of a type exactly if it holds of what every type adds that occurs in
it. -/
theorem Linked.clear_iff_occurs (hs : s.Linked) (hflagged : s.Flagged) {clear : Traits → Bool}
    (hpassed : Traits.IsPassedOn clear) (hslot : s.slot? h = some slot) :
    clear slot.traits ↔ ∀ x node, s.Occurs h x → s.node x = .ok node → clear node.ownTraits := by
  constructor
  · intro hclear x node hx hnode
    -- Along an occurrence the traits stay clear, down to the type that occurs.
    induction hx generalizing slot with
    | self a =>
      rw [node_of_slot hslot] at hnode
      cases hnode
      exact ((hflagged.clear_iff hpassed hslot).mp hclear).1
    | part hpart _ ih =>
      obtain ⟨above, habove, hb⟩ := hpart
      rw [node_of_slot hslot] at habove
      cases habove
      obtain ⟨slot', hslot'⟩ :=
        exists_slot (hs.contains_of_refs hslot (mem_refs_of_mem_parts hb))
      obtain ⟨traits, htraits, hclear'⟩ :=
        ((hflagged.clear_iff hpassed hslot).mp hclear).2 _ hb
      rw [traits_of_slot hslot'] at htraits
      cases htraits
      exact ih hslot' hclear' hnode
  · intro hall
    induction hindex : h.index using Nat.strong_induction_on generalizing h slot with
    | _ n ih =>
      subst hindex
      refine (hflagged.clear_iff hpassed hslot).mpr
        ⟨hall h _ (.self h) (node_of_slot hslot), fun x hx => ?_⟩
      have href := mem_refs_of_mem_parts hx
      obtain ⟨slot', hslot'⟩ := exists_slot (hs.contains_of_refs hslot href)
      refine ⟨slot'.traits, traits_of_slot hslot', ?_⟩
      exact ih x.index (hs.refs_lt hslot x href) hslot'
        (fun y node hy => hall y node (.part ⟨_, node_of_slot hslot, hx⟩ hy)) rfl

/-- A trait that is passed on is had by a type exactly if a type that adds it occurs in it. -/
theorem WellFormed.flag_iff_occurs (hs : s.WellFormed) {flag : Traits → Bool}
    (hpassed : Traits.IsPassedOn (!flag ·)) (hslot : s.slot? h = some slot) :
    flag slot.traits = true ↔
      ∃ x node, s.Occurs h x ∧ s.node x = .ok node ∧ flag node.ownTraits = true := by
  have hclear := hs.linked.clear_iff_occurs hs.flagged hpassed hslot
  rw [← not_iff_not, Bool.not_eq_true, ← Bool.not_eq_true', hclear]
  simp only [Bool.not_eq_true', not_exists, not_and, Bool.not_eq_true]

private theorem isTuple_iff_node :
    s.IsTuple h ↔ ∃ params digest entry, s.node h = .ok (.tuple params digest entry) := by
  constructor
  · rintro ⟨params, digest, entry, traits, hslot⟩
    exact ⟨params, digest, entry, node_of_slot hslot⟩
  · rintro ⟨params, digest, entry, hnode⟩
    obtain ⟨traits, hslot⟩ := exists_slot_of_node hnode
    exact ⟨params, digest, entry, traits, hslot⟩

theorem WellFormed.hasVar_iff (hs : s.WellFormed) (hslot : s.slot? h = some slot) :
    slot.traits.hasVar = true ↔ ∃ x name, s.Occurs h x ∧ s.node x = .ok (.var name) := by
  rw [hs.flag_iff_occurs Traits.isPassedOn_var hslot]
  constructor
  · rintro ⟨x, node, hx, hnode, hown⟩
    obtain ⟨name, rfl⟩ := Node.hasVar_ownTraits.mp hown
    exact ⟨x, name, hx, hnode⟩
  · rintro ⟨x, name, hx, hnode⟩
    exact ⟨x, _, hx, hnode, Node.hasVar_ownTraits.mpr ⟨name, rfl⟩⟩

theorem WellFormed.hasTuple_iff (hs : s.WellFormed) (hslot : s.slot? h = some slot) :
    slot.traits.hasTuple = true ↔ ∃ x, s.Occurs h x ∧ s.IsTuple x := by
  rw [hs.flag_iff_occurs Traits.isPassedOn_tuple hslot]
  simp only [isTuple_iff_node]
  constructor
  · rintro ⟨x, node, hx, hnode, hown⟩
    obtain ⟨params, digest, entry, rfl⟩ := Node.hasTuple_ownTraits.mp hown
    exact ⟨x, hx, params, digest, entry, hnode⟩
  · rintro ⟨x, hx, params, digest, entry, hnode⟩
    exact ⟨x, _, hx, hnode, Node.hasTuple_ownTraits.mpr ⟨params, digest, entry, rfl⟩⟩

/-- The lowest bit tells a variable, the next one a tuple, and no type has another. -/
theorem WellFormed.testBit_traits (hs : s.WellFormed) (hslot : s.slot? h = some slot) (i : Nat) :
    slot.traits.bits.testBit i = true ↔
      i = 0 ∧ slot.traits.hasVar = true ∨ i = 1 ∧ slot.traits.hasTuple = true := by
  rcases i with _ | _ | i
  · simp [Traits.hasVar_eq]
  · simp [Traits.hasTuple_eq]
  · obtain ⟨part, hpart, htraits⟩ := traitsOf_eq_ok_iff.mp (hs.flagged hslot)
    obtain ⟨parts, -, rfl⟩ := traitsOfAll_eq_ok_iff.mp hpart
    have hsmall : slot.traits.bits < 2 ^ 2 := by
      rw [htraits, Traits.bits_merge]
      exact Nat.or_lt_two_pow (Traits.bits_mergeAll_lt parts) (Node.bits_ownTraits_lt _)
    have hclear : slot.traits.bits.testBit (i + 2) = false :=
      Nat.testBit_lt_two_pow (hsmall.trans_le (Nat.pow_le_pow_right (by decide) (by omega)))
    simp [hclear]

end Store

/-- The traits of a type are exact: it has the bit of a variable exactly if a variable occurs in it,
the bit of a tuple exactly if a tuple does, promoted or not, and no other bit. -/
theorem Reachable.traits_exact {s : Store} {h : Handle} (hs : Reachable s) (hh : s.contains h) :
    ∃ traits, s.traits h = .ok traits ∧
      (traits.hasVar = true ↔ ∃ x name, s.Occurs h x ∧ s.node x = .ok (.var name)) ∧
      (traits.hasTuple = true ↔ ∃ x, s.Occurs h x ∧ s.IsTuple x) ∧
      ∀ i, traits.bits.testBit i = true ↔
        (i = 0 ∧ ∃ x name, s.Occurs h x ∧ s.node x = .ok (.var name)) ∨
          (i = 1 ∧ ∃ x, s.Occurs h x ∧ s.IsTuple x) := by
  obtain ⟨slot, hslot⟩ := Store.exists_slot hh
  have hvar := hs.wellFormed.hasVar_iff hslot
  have htuple := hs.wellFormed.hasTuple_iff hslot
  refine ⟨slot.traits, Store.traits_of_slot hslot, hvar, htuple, fun i => ?_⟩
  rw [hs.wellFormed.testBit_traits hslot, hvar, htuple]

/-- A tuple of a variable and an integer that was promoted, and then was given a label. -/
def pointStore : Store :=
  .after [.nominal "Integer", .var "T", .tuple [⟨6⟩, ⟨5⟩], .promote ⟨7⟩, .annotated "point" ⟨7⟩]

/-- In `pointStore` a promoted tuple occurs in the labelled type, but none in the array type that
the tuple stands for. A variable occurs in both. -/
theorem pointStore_traits_exact :
    Reachable pointStore ∧ pointStore.contains ⟨10⟩ ∧ pointStore.contains ⟨9⟩ ∧
      pointStore.shape ⟨7⟩ = .ok (.promoted ⟨9⟩) ∧
      pointStore.traits ⟨10⟩ = .ok ⟨3⟩ ∧
      (∃ x name, pointStore.Occurs ⟨10⟩ x ∧ pointStore.node x = .ok (.var name)) ∧
      (∃ x, pointStore.Occurs ⟨10⟩ x ∧ pointStore.IsTuple x) ∧
      pointStore.traits ⟨9⟩ = .ok .var ∧
      (∃ x name, pointStore.Occurs ⟨9⟩ x ∧ pointStore.node x = .ok (.var name)) ∧
      ¬ ∃ x, pointStore.Occurs ⟨9⟩ x ∧ pointStore.IsTuple x := by
  have hs : Reachable pointStore := .after (by decide)
  have hlabelled : pointStore.contains ⟨10⟩ := by decide +kernel
  have harray : pointStore.contains ⟨9⟩ := by decide +kernel
  have htraits : pointStore.traits ⟨10⟩ = .ok ⟨3⟩ := by decide +kernel
  have htraits' : pointStore.traits ⟨9⟩ = .ok .var := by decide +kernel
  obtain ⟨traits, heq, hvar, htuple, -⟩ := Reachable.traits_exact hs hlabelled
  rw [htraits] at heq
  cases heq
  obtain ⟨traits, heq, hvar', htuple', -⟩ := Reachable.traits_exact hs harray
  rw [htraits'] at heq
  cases heq
  refine ⟨hs, hlabelled, harray, by decide +kernel, htraits, hvar.mp rfl,
    htuple.mp rfl, htraits', hvar'.mp rfl, fun hexists => ?_⟩
  cases htuple'.mpr hexists

end GradualTypes
