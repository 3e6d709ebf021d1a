import GradualTypes.Proofs.Reachability

/-!
Equality of types is an equivalence relation, also between promoted tuples and the array types they
stand for. The comparison treats its two sides differently: it replaces a promoted tuple on the left
first, and it looks at the members of a set in both directions. Neither shows in the answers. Types
are equal exactly if what they stand for is, and for types that stand for themselves one step of the
comparison can be turned round and composed, which is carried over to whole types by induction on
their ranks.
-/

namespace GradualTypes

/-- One step of the comparison of types that are not promoted can be turned round if this is so for
their components. -/
private theorem SameShapes.symm_of_parts {same : Handle → Handle → Prop} {a b : Handle}
    {left right : Shape} (hleft : ∀ array, left ≠ .promoted array)
    (hright : ∀ array, right ≠ .promoted array) (h : SameShapes same a left b right)
    (hsymm : ∀ x ∈ left.parts, ∀ y ∈ right.parts, same x y → same y x) :
    SameShapes same b right a left := by
  unfold SameShapes at h
  split at h
  · exact absurd rfl (hleft _)
  · exact absurd rfl (hright _)
  · exact forall₂_symm_of_mem h hsymm
  · next base as base' bs =>
    exact ⟨h.1.symm, forall₂_symm_of_mem h.2 fun x hx y hy =>
      hsymm x (List.mem_cons_of_mem base hx) y (List.mem_cons_of_mem base' hy)⟩
  · exact h.symm
  · exact h.symm
  · exact ⟨h.1.symm, hsymm _ List.mem_cons_self _ List.mem_cons_self h.2⟩
  · exact h.elim

/-- Two steps of the comparison of types that are not promoted make one if this is so for their
components, taken in either direction. -/
private theorem SameShapes.trans_of_parts {same : Handle → Handle → Prop} {a b c : Handle}
    {left middle right : Shape} (hleft : ∀ array, left ≠ .promoted array)
    (hmiddle : ∀ array, middle ≠ .promoted array) (hright : ∀ array, right ≠ .promoted array)
    (hab : SameShapes same a left b middle) (hbc : SameShapes same b middle c right)
    (htrans : ∀ x ∈ left.parts, ∀ y ∈ middle.parts, ∀ z ∈ right.parts,
      (same x y → same y z → same x z) ∧ (same z y → same y x → same z x)) :
    SameShapes same a left c right := by
  -- sets of types cover each other, so each direction goes through the set in the middle
  have hsets : ∀ {as bs cs : List Handle}, as ⊆ left.parts → bs ⊆ middle.parts →
      cs ⊆ right.parts →
      ((∀ x ∈ as, ∃ y ∈ bs, same x y) ∧ ∀ y ∈ bs, ∃ x ∈ as, same y x) →
      ((∀ y ∈ bs, ∃ z ∈ cs, same y z) ∧ ∀ z ∈ cs, ∃ y ∈ bs, same z y) →
      (∀ x ∈ as, ∃ z ∈ cs, same x z) ∧ ∀ z ∈ cs, ∃ x ∈ as, same z x := by
    intro as bs cs has hbs hcs hab hbc
    constructor
    · intro x hx
      obtain ⟨y, hy, hxy⟩ := hab.1 x hx
      obtain ⟨z, hz, hyz⟩ := hbc.1 y hy
      exact ⟨z, hz, (htrans x (has hx) y (hbs hy) z (hcs hz)).1 hxy hyz⟩
    · intro z hz
      obtain ⟨y, hy, hzy⟩ := hbc.2 z hz
      obtain ⟨x, hx, hyx⟩ := hab.2 y hy
      exact ⟨x, hx, (htrans x (has hx) y (hbs hy) z (hcs hz)).2 hzy hyx⟩
  have hlists : ∀ {as bs cs : List Handle}, as ⊆ left.parts → bs ⊆ middle.parts →
      cs ⊆ right.parts → List.Forall₂ same as bs → List.Forall₂ same bs cs →
      List.Forall₂ same as cs := fun has hbs hcs hab hbc =>
    forall₂_trans_of_mem hab hbc fun x hx y hy z hz =>
      (htrans x (has hx) y (hbs hy) z (hcs hz)).1
  unfold SameShapes at hab
  split at hab
  · exact absurd rfl (hleft _)
  · exact absurd rfl (hmiddle _)
  · cases right with
    | promoted array => exact absurd rfl (hright array)
    | tuple cs => exact hlists (fun _ => id) (fun _ => id) (fun _ => id) hab hbc
    | _ => exact hbc.elim
  · cases right with
    | promoted array => exact absurd rfl (hright array)
    | generic base cs =>
      exact ⟨hab.1.trans hbc.1, hlists (List.subset_cons_self _ _) (List.subset_cons_self _ _)
        (List.subset_cons_self _ _) hab.2 hbc.2⟩
    | _ => exact hbc.elim
  · cases right with
    | promoted array => exact absurd rfl (hright array)
    | union cs => exact hsets (fun _ => id) (fun _ => id) (fun _ => id) hab hbc
    | _ => exact hbc.elim
  · cases right with
    | promoted array => exact absurd rfl (hright array)
    | intersection cs => exact hsets (fun _ => id) (fun _ => id) (fun _ => id) hab hbc
    | _ => exact hbc.elim
  · cases right with
    | promoted array => exact absurd rfl (hright array)
    | annotated label z =>
      exact ⟨hab.1.trans hbc.1, (htrans _ List.mem_cons_self _ List.mem_cons_self z
        List.mem_cons_self).1 hab.2 hbc.2⟩
    | _ => exact hbc.elim
  · exact hab.elim

namespace Store

variable {s : Store} {a b c : Handle} {left right : Shape}

def Same (s : Store) (a b : Handle) : Prop :=
  s.equal a b = .ok true

instance (s : Store) (a b : Handle) : Decidable (s.Same a b) :=
  inferInstanceAs (Decidable (s.equal a b = .ok true))

section Unfolding

variable (hs : s.WellFormed)
include hs

/-- How deep a comparison may nest makes no difference as long as it is deeper than the ranks. -/
theorem WellFormed.equalWithin_eq (m n : Nat) (ha : s.contains a) (hb : s.contains b)
    (hm : s.rank a + s.rank b < m) (hn : s.rank a + s.rank b < n) :
    s.equalWithin m a b = s.equalWithin n a b := by
  induction m generalizing n a b with
  | zero => omega
  | succ m ih =>
    obtain ⟨n, rfl⟩ := Nat.exists_eq_succ_of_ne_zero (Nat.ne_zero_of_lt hn)
    obtain ⟨left, hleft⟩ := hs.linked.exists_shape ha
    obtain ⟨right, hright⟩ := hs.linked.exists_shape hb
    have hasks : ∀ x y, s.Asks a b x y →
        Decides (s.equalWithin n x y) (s.equalWithin n x y = .ok true) ∧
          Decides (s.equalWithin m x y) (s.equalWithin n x y = .ok true) := by
      intro x y hxy
      obtain ⟨hx, hy, hlt⟩ := hxy.descends hs.linked hs.acyclic ha hb
      have hanswer := equalWithin_answered hs.linked hs.acyclic n hx hy (by omega)
      rw [ih n hx hy (by omega) (by omega)]
      exact ⟨.self hanswer, .self hanswer⟩
    have hfirst := equalWithin_decides_step hleft hright fun x y hxy => (hasks x y hxy).2
    exact hfirst.unique
      (equalWithin_decides_step hleft hright fun x y hxy => (hasks x y hxy).1)

/-- Two types are equal if they are the same, or if one step of the comparison says so. -/
theorem WellFormed.equal_decides (ha : s.contains a) (hb : s.contains b)
    (hleft : s.shape a = .ok left) (hright : s.shape b = .ok right) :
    Decides (s.equal a b) (a = b ∨ SameShapes s.Same a left b right) := by
  have hranka := hs.linked.rank_le_size a
  have hrankb := hs.linked.rank_le_size b
  rw [equal, hs.equalWithin_eq (2 * s.size + 1) (2 * s.size + 1 + 1) ha hb (by omega) (by omega)]
  refine equalWithin_decides_step hleft hright fun x y hxy => ?_
  obtain ⟨hx, hy, -⟩ := hxy.descends hs.linked hs.acyclic ha hb
  exact .self (equal_answered hs.linked hs.acyclic hx hy)

theorem WellFormed.same_iff (hleft : s.shape a = .ok left) (hright : s.shape b = .ok right) :
    s.Same a b ↔ a = b ∨ SameShapes s.Same a left b right :=
  (hs.equal_decides (Linked.contains_of_shape hleft) (Linked.contains_of_shape hright) hleft
    hright).eq_true_iff

end Unfolding

theorem same_refl (s : Store) (a : Handle) : s.Same a a :=
  s.equal_self a

section Promoted

variable (hs : s.WellFormed)
include hs

/-- A promoted tuple is equal to what the array type it stands for is equal to. -/
theorem WellFormed.same_promoted_left {array : Handle} (ha : s.shape a = .ok (.promoted array))
    (hb : s.contains b) : s.Same a b ↔ s.Same array b := by
  obtain ⟨right, hright⟩ := hs.linked.exists_shape hb
  rw [hs.same_iff ha hright]
  constructor
  · rintro (rfl | hsame)
    · obtain ⟨element, harray⟩ := hs.shape_of_array ha
      exact (hs.same_iff harray ha).mpr (.inr (s.same_refl array))
    · exact hsame
  · exact .inr

/-- What is equal to a promoted tuple is what is equal to the array type it stands for. -/
theorem WellFormed.same_promoted_right {array : Handle} (hb : s.shape b = .ok (.promoted array))
    (ha : s.contains a) : s.Same a b ↔ s.Same a array := by
  obtain ⟨element, harray⟩ := hs.shape_of_array hb
  -- no type that is not promoted is the tuple itself, so the step replaces the right side
  have hplain : ∀ {x shape}, s.shape x = .ok shape → (∀ array, shape ≠ .promoted array) →
      (s.Same x b ↔ s.Same x array) := by
    intro x shape hx hshape
    have hne : x ≠ b := by
      rintro rfl
      rw [hb] at hx
      cases hx
      exact hshape array rfl
    rw [hs.same_iff hx hb, or_iff_right hne]
    cases shape with
    | promoted array' => exact absurd rfl (hshape array')
    | _ => exact Iff.rfl
  obtain ⟨left, hleft⟩ := hs.linked.exists_shape ha
  by_cases hpromoted : ∃ array', left = .promoted array'
  · obtain ⟨array', rfl⟩ := hpromoted
    obtain ⟨element', harray'⟩ := hs.shape_of_array hleft
    rw [hs.same_promoted_left hleft (Linked.contains_of_shape hb),
      hs.same_promoted_left hleft (Linked.contains_of_shape harray)]
    exact hplain harray' nofun
  · exact hplain hleft (not_exists.mp hpromoted)

/-- Every type stands for one that is not promoted, of no larger rank, and both are equal to the
same types. -/
theorem WellFormed.exists_resolved (ha : s.contains a) :
    ∃ x shape, s.shape x = .ok shape ∧ (∀ array, shape ≠ .promoted array) ∧
      s.rank x ≤ s.rank a ∧
      ∀ b, s.contains b → (s.Same a b ↔ s.Same x b) ∧ (s.Same b a ↔ s.Same b x) := by
  obtain ⟨left, hleft⟩ := hs.linked.exists_shape ha
  by_cases hpromoted : ∃ array, left = .promoted array
  · obtain ⟨array, rfl⟩ := hpromoted
    obtain ⟨element, harray⟩ := hs.shape_of_array hleft
    have hlt := (hs.descends hleft List.mem_cons_self).2
    exact ⟨array, _, harray, nofun, hlt.le, fun b hb =>
      ⟨hs.same_promoted_left hleft hb, hs.same_promoted_right hleft hb⟩⟩
  · exact ⟨a, left, hleft, not_exists.mp hpromoted, le_rfl, fun _ _ => ⟨Iff.rfl, Iff.rfl⟩⟩

end Promoted

section Equivalence

variable (hs : s.WellFormed)
include hs

theorem WellFormed.same_symm (ha : s.contains a) (hb : s.contains b) (hab : s.Same a b) :
    s.Same b a := by
  induction hn : s.rank a + s.rank b using Nat.strong_induction_on generalizing a b with
  | _ n ih =>
    obtain ⟨x, left, hx, hleft, hrankx, hax⟩ := hs.exists_resolved ha
    obtain ⟨y, right, hy, hright, hranky, hby⟩ := hs.exists_resolved hb
    have hcx := Linked.contains_of_shape hx
    have hcy := Linked.contains_of_shape hy
    have hxy : s.Same x y := ((hby x hcx).2.mp ((hax b hb).1.mp hab))
    have hyx : s.Same y x := by
      rcases (hs.same_iff hx hy).mp hxy with rfl | hsame
      · exact s.same_refl x
      · refine (hs.same_iff hy hx).mpr (.inr (hsame.symm_of_parts hleft hright ?_))
        intro p hp q hq hpq
        obtain ⟨hcp, hltp⟩ := hs.descends hx hp
        obtain ⟨hcq, hltq⟩ := hs.descends hy hq
        exact ih _ (by omega) hcp hcq hpq rfl
    exact (hby a ha).1.mpr ((hax y hcy).2.mpr hyx)

theorem WellFormed.same_trans (ha : s.contains a) (hb : s.contains b) (hc : s.contains c)
    (hab : s.Same a b) (hbc : s.Same b c) : s.Same a c := by
  induction hn : s.rank a + s.rank b + s.rank c using Nat.strong_induction_on
    generalizing a b c with
  | _ n ih =>
    obtain ⟨x, left, hx, hleft, hrankx, hax⟩ := hs.exists_resolved ha
    obtain ⟨y, middle, hy, hmiddle, hranky, hby⟩ := hs.exists_resolved hb
    obtain ⟨z, right, hz, hright, hrankz, hcz⟩ := hs.exists_resolved hc
    have hcx := Linked.contains_of_shape hx
    have hcy := Linked.contains_of_shape hy
    have hcontz := Linked.contains_of_shape hz
    have hxy : s.Same x y := (hby x hcx).2.mp ((hax b hb).1.mp hab)
    have hyz : s.Same y z := (hcz y hcy).2.mp ((hby c hc).1.mp hbc)
    have hxz : s.Same x z := by
      rcases (hs.same_iff hx hy).mp hxy with rfl | hfirst
      · exact hyz
      rcases (hs.same_iff hy hz).mp hyz with rfl | hsecond
      · exact hxy
      refine (hs.same_iff hx hz).mpr
        (.inr (hfirst.trans_of_parts hleft hmiddle hright hsecond ?_))
      intro p hp q hq r hr
      obtain ⟨hcp, hltp⟩ := hs.descends hx hp
      obtain ⟨hcq, hltq⟩ := hs.descends hy hq
      obtain ⟨hcr, hltr⟩ := hs.descends hz hr
      exact ⟨fun hpq hqr => ih _ (by omega) hcp hcq hcr hpq hqr rfl,
        fun hrq hqp => ih _ (by omega) hcr hcq hcp hrq hqp rfl⟩
    exact (hax c hc).1.mpr ((hcz x hcx).2.mpr hxz)

end Equivalence

end Store

/-- In a reachable store equality is an equivalence relation on the types, promoted tuples included:
every type is equal to itself, the question is answered and the same either way round, and types
equal to one type are equal to each other. -/
theorem Reachable.equal_equivalence {s : Store} {a b c : Handle} (hs : Reachable s)
    (ha : s.contains a) (hb : s.contains b) (hc : s.contains c) :
    s.equal a a = .ok true ∧
      (∃ answer, s.equal a b = .ok answer ∧ s.equal b a = .ok answer) ∧
      (s.equal a b = .ok true → s.equal b c = .ok true → s.equal a c = .ok true) := by
  have hwf := hs.wellFormed
  refine ⟨s.equal_self a, ?_, hwf.same_trans ha hb hc⟩
  obtain ⟨answer, hforth⟩ := Store.equal_answered hwf.linked hwf.acyclic ha hb
  obtain ⟨answer', hback⟩ := Store.equal_answered hwf.linked hwf.acyclic hb ha
  have hsymm : s.Same a b ↔ s.Same b a := ⟨hwf.same_symm ha hb, hwf.same_symm hb ha⟩
  rw [Store.Same, Store.Same, hforth, hback, Except.ok.injEq, Except.ok.injEq] at hsymm
  rw [← Bool.eq_iff_iff.mpr hsymm] at hback
  exact ⟨answer, hforth, hback⟩

/-- Two promoted tuples and the array type they stand for. -/
theorem pairStore_promoted_equal :
    let s := (Operation.promote ⟨7⟩).apply pairStore
    Reachable s ∧ s.contains ⟨7⟩ ∧ s.contains ⟨10⟩ ∧ s.contains ⟨8⟩ ∧
      s.equal ⟨7⟩ ⟨10⟩ = .ok true ∧ s.equal ⟨10⟩ ⟨7⟩ = .ok true ∧ s.equal ⟨7⟩ ⟨8⟩ = .ok true := by
  intro s
  have hs : Reachable s := .step (.promote ⟨7⟩) reachable_pairStore trivial
  have hfirst : s.contains ⟨7⟩ := by decide +kernel
  have harray : s.contains ⟨10⟩ := by decide +kernel
  have hsecond : s.contains ⟨8⟩ := by decide +kernel
  have hforth : s.equal ⟨7⟩ ⟨10⟩ = .ok true := by decide +kernel
  have hnext : s.equal ⟨10⟩ ⟨8⟩ = .ok true := by decide +kernel
  obtain ⟨-, ⟨answer, hanswer, hback⟩, htrans⟩ :=
    Reachable.equal_equivalence hs hfirst harray hsecond
  rw [hforth] at hanswer
  cases hanswer
  exact ⟨hs, hfirst, harray, hsecond, hforth, hback, htrans hforth hnext⟩

end GradualTypes
