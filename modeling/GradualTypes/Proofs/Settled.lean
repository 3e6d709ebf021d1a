import GradualTypes.Proofs.Equivalence
import GradualTypes.Proofs.Preorder
import GradualTypes.Proofs.Simulation

/-!
Types in which no fixed tuple is found. Nothing is left in them that a search could promote, so two
such types are compared without a change to the store, and they stay as they are while other tuples
are promoted. Equal types are settled together. Therefore the array type of a tuple is settled if
the elements of the tuple are, even if their union is an older one with other, equal members. Such
tuples are called flat here; once one of them is promoted, comparing it with another changes
nothing.
-/

namespace GradualTypes

namespace Store

variable {s s' t u : Store} {a b h x y : Handle} {depth : Nat}

def IsSettled (s : Store) (h : Handle) : Prop :=
  ∀ x, Relation.ReflTransGen s.RefersTo h x → ∀ params, s.shape x ≠ .ok (.tuple params)

namespace IsSettled

private theorem of_below (ha : s.IsSettled a) (hab : Relation.ReflTransGen s.RefersTo a b) :
    s.IsSettled b :=
  fun x hbx => ha x (hab.trans hbx)

theorem of_part (ha : s.IsSettled a) {shape : Shape} (hshape : s.shape a = .ok shape)
    (hx : x ∈ shape.parts) : s.IsSettled x :=
  ha.of_below (.single ⟨shape, hshape, hx⟩)

theorem of_shape {shape : Shape} (hshape : s.shape h = .ok shape)
    (hfixed : ∀ params, shape ≠ .tuple params) (hparts : ∀ x ∈ shape.parts, s.IsSettled x) :
    s.IsSettled h := by
  intro x hx params hparams
  rcases Relation.ReflTransGen.cases_head hx with rfl | ⟨y, ⟨shape', hshape', hy⟩, hrest⟩
  · rw [hshape] at hparams
    cases hparams
    exact hfixed params rfl
  · rw [hshape] at hshape'
    cases hshape'
    exact hparts y hy x hrest params hparams

theorem canonical (ha : s.IsSettled a) (hcanonical : s.canonical a = .ok x) : s.IsSettled x := by
  obtain ⟨shape, hshape, hof⟩ := bind_eq_ok_iff.mp hcanonical
  cases shape with
  | promoted array =>
    cases hof
    exact ha.of_part hshape List.mem_cons_self
  | _ =>
    cases hof
    exact ha

/-- A type stays settled as long as all shapes but those of fixed tuples stay. -/
theorem of_keep (hs : s.Linked) (hh : s.contains h) (hsettled : s.IsSettled h)
    (hkeep : ∀ x shape, s.shape x = .ok shape → (∀ params, shape ≠ .tuple params) →
      t.shape x = .ok shape) : t.IsSettled h := by
  -- the types found below are the same in both stores, and so are their shapes
  have hbelow : ∀ x, Relation.ReflTransGen t.RefersTo h x →
      Relation.ReflTransGen s.RefersTo h x ∧
        ∃ shape, s.shape x = .ok shape ∧ t.shape x = .ok shape := by
    intro x hx
    have hsame : ∀ {y}, Relation.ReflTransGen s.RefersTo h y → s.contains y →
        ∃ shape, s.shape y = .ok shape ∧ t.shape y = .ok shape := by
      intro y hy hcontains
      obtain ⟨shape, hshape⟩ := hs.exists_shape hcontains
      refine ⟨shape, hshape, hkeep y shape hshape fun params hparams => ?_⟩
      rw [hparams] at hshape
      exact hsettled y hy params hshape
    induction hx with
    | refl => exact ⟨.refl, hsame .refl hh⟩
    | tail _ hyz ih =>
      obtain ⟨hy, shape, hshape, hshape'⟩ := ih
      obtain ⟨shape', hshape'', hz⟩ := hyz
      rw [hshape'] at hshape''
      cases hshape''
      have hrefers : s.RefersTo _ _ := ⟨shape, hshape, hz⟩
      exact ⟨hy.tail hrefers, hsame (hy.tail hrefers) (hs.contains_of_refersTo hrefers)⟩
  intro x hx params hparams
  obtain ⟨hx', shape, hshape, hshape'⟩ := hbelow x hx
  rw [hshape'] at hparams
  rw [hparams] at hshape
  exact hsettled x hx' params hshape

theorem shift (hst : Shift s t) (hs : s.WellFormed) (hh : s.contains h)
    (hsettled : s.IsSettled h) : t.IsSettled h :=
  hsettled.of_keep hs.linked hh fun _ _ hshape hfixed =>
    (hst.shape_cases hs hshape).resolve_right fun ⟨params, _, htuple, _⟩ => hfixed params htuple

/-- Nothing is found in a type without tuples that could be promoted. -/
theorem of_tupleFree (hs : s.WellFormed) (ha : s.IsTupleFree a) : s.IsSettled a := by
  intro x hx params hparams
  obtain ⟨shape, hshape, hnode⟩ := hs.shape_of_tupleFree (hs.tupleFree_of_below ha hx).1
  rw [hshape] at hparams
  cases hparams
  cases hnode

/-- A type that is equal to a settled one is settled: a fixed tuple is equal to fixed tuples
only. -/
theorem of_same (hs : s.WellFormed) (hx : s.contains x) (hy : s.contains y) (hxy : s.Same x y)
    (hsettled : s.IsSettled y) : s.IsSettled x := by
  induction hn : s.rank x + s.rank y using Nat.strong_induction_on generalizing x y with
  | _ n ih =>
    obtain ⟨left, hleft⟩ := hs.linked.exists_shape hx
    obtain ⟨right, hright⟩ := hs.linked.exists_shape hy
    rcases (hs.same_iff hleft hright).mp hxy with rfl | hsame
    · exact hsettled
    have hpair : ∀ p ∈ left.parts, ∀ q ∈ right.parts, s.Same p q → s.IsSettled p := by
      intro p hp q hq hpq
      obtain ⟨hcp, hltp⟩ := hs.descends hleft hp
      obtain ⟨hcq, hltq⟩ := hs.descends hright hq
      exact ih _ (by omega) hcp hcq hpq (hsettled.of_part hright hq) rfl
    unfold SameShapes at hsame
    split at hsame
    · obtain ⟨harray, hlt⟩ := hs.descends hleft List.mem_cons_self
      refine .of_shape hleft nofun fun p hp => ?_
      rw [List.mem_singleton.mp hp]
      exact ih _ (by omega) harray hy hsame hsettled rfl
    · obtain ⟨harray, hlt⟩ := hs.descends hright List.mem_cons_self
      exact ih _ (by omega) hx harray hsame (hsettled.of_part hright List.mem_cons_self) rfl
    · exact absurd hright (hsettled y .refl _)
    · obtain ⟨rfl, hparams⟩ := hsame
      refine .of_shape hleft nofun fun p hp => ?_
      rcases List.mem_cons.mp hp with rfl | hp
      · exact hsettled.of_part hright List.mem_cons_self
      · obtain ⟨q, hq, hpq⟩ := exists_mem_of_forall₂ hparams hp
        exact hpair p (List.mem_cons_of_mem _ hp) q (List.mem_cons_of_mem _ hq) hpq
    · refine .of_shape hleft nofun fun p hp => ?_
      obtain ⟨q, hq, hpq⟩ := hsame.1 p hp
      exact hpair p hp q hq hpq
    · refine .of_shape hleft nofun fun p hp => ?_
      obtain ⟨q, hq, hpq⟩ := hsame.1 p hp
      exact hpair p hp q hq hpq
    · refine .of_shape hleft nofun fun p hp => ?_
      rw [List.mem_singleton.mp hp]
      exact hpair _ List.mem_cons_self _ List.mem_cons_self hsame.2
    · exact hsame.elim

end IsSettled

theorem Asks.isSettled (hxy : s.Asks a b x y) (ha : s.IsSettled a) (hb : s.IsSettled b) :
    s.IsSettled x ∧ s.IsSettled y := by
  cases hxy with
  | left hx => exact ⟨ha.of_below (.single hx), hb⟩
  | right hy => exact ⟨ha, hb.of_below (.single hy)⟩
  | both hx hy => exact ⟨ha.of_below (.single hx), hb.of_below (.single hy)⟩
  | swapped hx hy => exact ⟨hb.of_below (.single hy), ha.of_below (.single hx)⟩

/-- Two settled types are compared without a change to the store. -/
theorem WellFormed.subtypeWithin_settled (hs : s.WellFormed) (depth : Nat) (ha : s.contains a)
    (hb : s.contains b) (hsettled : s.IsSettled a) (hsettled' : s.IsSettled b)
    (hdepth : s.rank a + s.rank b < depth) :
    ∃ answer, subtypeWithin depth a b s = .ok answer s := by
  induction depth generalizing a b with
  | zero => omega
  | succ depth ih =>
    obtain ⟨left, hleft⟩ := hs.linked.exists_shape ha
    obtain ⟨sup, hcanonical, hsup, hrank, -⟩ := canonical_spec hs hb
    have hsup' := hsettled'.canonical hcanonical
    have hplain : Returns (do
        let sup ← ask (·.canonical b)
        if a = sup ∨ sup = .top ∨ a = .nil then return true
        else belowShapes (subtypeWithin depth) a left sup (← ask (·.shape sup))) s
          fun _ t => s = t := by
      obtain ⟨right, hright⟩ := hs.linked.exists_shape hsup
      refine .ask_bind hcanonical ?_
      split
      · exact .pure rfl
      have hbelow : ∀ x y, s.Asks a sup x y → ∀ t, s = t →
          Returns (subtypeWithin depth x y) t fun answer u =>
            t = u ∧ if answer then True else True := by
        rintro x y hxy t rfl
        obtain ⟨hx, hy, hlt⟩ := hxy.descends hs.linked hs.acyclic ha hsup
        obtain ⟨hx', hy'⟩ := hxy.isSettled hsettled hsup'
        obtain ⟨answer, hrun⟩ := ih hx hy hx' hy' (by omega)
        exact .verdict ⟨answer, s, hrun, rfl⟩
      exact .ask_bind hright
        ((belowShapes_returns hs.linked hleft hright hbelow).mono fun _ _ hpost => hpost.1)
    have hreturns : Returns (subtypeWithin (depth + 1) a b) s fun _ t => s = t := by
      refine .ask_bind hleft ?_
      cases left with
      | promoted array =>
        obtain ⟨harray, hlt⟩ := hs.descends hleft List.mem_cons_self
        obtain ⟨answer, hrun⟩ :=
          ih harray hb (hsettled.of_part hleft List.mem_cons_self) hsettled' (by omega)
        exact ⟨answer, s, hrun, rfl⟩
      | tuple params => exact absurd hleft (hsettled a .refl params)
      | _ => exact hplain
    obtain ⟨answer, _, hrun, rfl⟩ := hreturns
    exact ⟨answer, hrun⟩

theorem WellFormed.subtype_settled (hs : s.WellFormed) (ha : s.contains a) (hb : s.contains b)
    (hsettled : s.IsSettled a) (hsettled' : s.IsSettled b) :
    ∃ answer, Store.subtype a b s = .ok answer s := by
  obtain ⟨answer, hrun⟩ := hs.subtypeWithin_settled _ ha hb hsettled hsettled' (Nat.lt_succ_self _)
  exact ⟨answer, subtype_eq_of_within hs ha hb hrun⟩

theorem WellFormed.below_iff_of_settled {left right : Shape} (hs : s.WellFormed)
    (hsettled : s.IsSettled a) (hsettled' : s.IsSettled b) (hleft : s.shape a = .ok left)
    (hright : s.shape b = .ok right) (hpromoted : ∀ array, left ≠ .promoted array)
    (hpromoted' : ∀ array, right ≠ .promoted array) :
    s.Below a b ↔ Evident a b ∨ s.BelowBy (left.layer.rule right.layer) a left b right := by
  have hfixed : ∀ params, left ≠ .tuple params := by
    rintro params rfl
    exact hsettled a .refl params hleft
  refine hs.below_iff_of_quiet (s.rank a + s.rank b) hleft hright hfixed hpromoted hpromoted' ?_
  intro x y hxy
  obtain ⟨hx, hy, hlt⟩ := hxy.descends hs.linked hs.acyclic (Linked.contains_of_shape hleft)
    (Linked.contains_of_shape hright)
  obtain ⟨hx', hy'⟩ := hxy.isSettled hsettled hsettled'
  exact hs.subtypeWithin_settled _ hx hy hx' hy' hlt

section Promotion

/-- The array type to which a tuple with settled elements is promoted is settled. -/
theorem isSettled_of_promotion {tuple element array : Handle} {params : List Handle}
    (hs : s.WellFormed) (hshape : s.shape tuple = .ok (.tuple params))
    (hunion : formUnion params s = .ok element t) (harray : formArray element t = .ok array u)
    (hparams : ∀ p ∈ params, s.IsSettled p) :
    (u.withState tuple fun _ => .promoted array).IsSettled array := by
  have hcontains : ∀ p ∈ params, s.contains p := fun p hp =>
    hs.linked.contains_of_refersTo ⟨_, hshape, hp⟩
  obtain ⟨parts, hparts, hset, hformed⟩ := promotion_formed hs hshape hunion harray
  have ht := hset.grows.wellFormed hs
  have hu := hformed.grows.wellFormed ht
  have hflat := contains_of_setPart hs.linked hcontains hparts
  have hgrown : ∀ {x}, s.contains x → s.IsSettled x → t.IsSettled x := fun hx hsettled =>
    hsettled.of_keep hs.linked hx fun _ _ hshape _ => hset.grows.shape_eq hshape
  have hpart : ∀ y ∈ parts.flatten, t.IsSettled y := by
    intro y hy
    obtain ⟨p, hp, hbelow⟩ := below_of_mem_parts hcontains hparts hy
    exact hgrown (hflat y hy) ((hparams p hp).of_below hbelow)
  have helement : t.IsSettled element := by
    cases hset with
    | top _ => exact .of_tupleFree hs hs.linked.tupleFree_top.1
    | nil => exact .of_tupleFree hs hs.linked.tupleFree_nil.1
    | part hmem => exact hpart element hmem
    | set hformed' hequal =>
      obtain ⟨traits, hslot⟩ := hformed'.slot
      have hmembers : t.shape element = .ok (.union _) := shape_eq_ok_iff.mpr ⟨_, hslot, rfl⟩
      refine .of_shape hmembers (by simp) fun x hx => ?_
      obtain ⟨y, hy, hxy⟩ := hequal x hx
      exact .of_same ht (ht.linked.contains_of_refersTo ⟨_, hmembers, hx⟩)
        (hformed'.grows.contains (hflat y hy)) hxy (hpart y hy)
  obtain ⟨traits, hslot⟩ := hformed.slot
  have hgeneric : u.shape array = .ok (.generic .arrayClass [element]) :=
    shape_eq_ok_iff.mpr ⟨_, hslot, rfl⟩
  have hclass : u.IsSettled .arrayClass :=
    .of_shape (shape_eq_ok_iff.mpr ⟨_, hu.linked.builtin .arrayClass (by decide), rfl⟩) (by simp)
      fun x hx => by simp [Shape.parts] at hx
  have hsettled : u.IsSettled array := by
    refine .of_shape hgeneric (by simp) fun x hx => ?_
    rcases List.mem_cons.mp hx with rfl | hx
    · exact hclass
    · rw [List.mem_singleton.mp hx]
      exact helement.of_keep ht.linked (hset.contains hs.linked hflat) fun _ _ hshape _ =>
        hformed.grows.shape_eq hshape
  have htuple : u.shape tuple = .ok (.tuple params) :=
    hformed.grows.shape_eq (hset.grows.shape_eq hshape)
  refine hsettled.of_keep hu.linked (Linked.contains_of_shape hgeneric) fun x shape hx hfixed => ?_
  have hne : x ≠ tuple := by
    rintro rfl
    rw [htuple] at hx
    cases hx
    exact hfixed params rfl
  rw [shape_withState hu.linked (.inl hne)]
  exact hx

end Promotion

/-- A tuple whose elements are settled, and whose array type is settled too if it is promoted. -/
structure IsFlat (s : Store) (h : Handle) : Prop where
  elements : ∃ params digest entry traits,
    s.slot? h = some ⟨.tuple params digest entry, traits⟩ ∧ ∀ p ∈ params, s.IsSettled p
  array : ∀ array, s.shape h = .ok (.promoted array) → s.IsSettled array

namespace IsFlat

theorem contains (hh : s.IsFlat h) : s.contains h := by
  obtain ⟨params, digest, entry, traits, hslot, -⟩ := hh.elements
  exact contains_of_slot hslot

/-- A fixed tuple is flat if no tuple occurs in its elements. -/
theorem of_fixed (hs : s.WellFormed) {params : List Handle}
    (hshape : s.shape h = .ok (.tuple params)) (hparams : ∀ p ∈ params, s.IsTupleFree p) :
    s.IsFlat h := by
  obtain ⟨digest, entry, traits, upper, lower, hslot, -⟩ := slot_of_shape_tuple hshape
  refine ⟨⟨params, digest, entry, traits, hslot, fun p hp => .of_tupleFree hs (hparams p hp)⟩, ?_⟩
  intro array harray
  rw [hshape] at harray
  cases harray

theorem shift (hst : Shift s t) (hs : s.WellFormed) (hh : s.IsFlat h) : t.IsFlat h := by
  have hsettles := hst.settles hs
  obtain ⟨params, digest, entry, traits, hslot, hparams⟩ := hh.elements
  have hcontains : ∀ p ∈ params, s.contains p := fun p hp => hs.linked.contains_of_refs hslot hp
  refine ⟨⟨params, digest, entry, traits, hsettles.slots hslot, fun p hp =>
    (hparams p hp).shift hst hs (hcontains p hp)⟩, fun array harray => ?_⟩
  -- the tuple was promoted before, or it is now
  have hold : s.shape h = .ok (.promoted array) → t.IsSettled array := fun hshape =>
    (hh.array array hshape).shift hst hs (hs.descends hshape List.mem_cons_self).1
  cases hst with
  | @bound lower upper _ _ =>
    exact hold (((alike_recorded s lower upper).shape_eq h).symm.trans harray)
  | report event => exact hold harray
  | @promotion tuple _ _ _ _ _ hshape hunion hformed =>
    obtain ⟨hself, hothers⟩ := shape_of_promotion hs hshape hunion hformed
    by_cases htuple : h = tuple
    · subst htuple
      rw [hself] at harray
      cases harray
      refine isSettled_of_promotion hs hshape hunion hformed fun p hp => ?_
      rcases hs.linked.shape_of_tuple hslot with hfixed | ⟨array', hpromoted⟩
      · rw [hshape] at hfixed
        cases hfixed
        exact hparams p hp
      · rw [hshape] at hpromoted
        cases hpromoted
    · obtain ⟨shape, hshape'⟩ := hs.linked.exists_shape hh.contains
      rw [hothers h shape htuple hshape'] at harray
      cases harray
      exact hold hshape'

theorem shifts (hst : Shifts s t) (hs : s.WellFormed) (hh : s.IsFlat h) : t.IsFlat h := by
  induction hst with
  | refl => exact hh
  | tail hsm hmt ih => exact ih.shift hmt (Shifts.settles hsm hs).wellFormed

end IsFlat

section Quiet

variable {array : Handle} (hs : s.WellFormed)
include hs

/-- An array type is not found below a fixed tuple. -/
theorem WellFormed.subtypeWithin_array_tuple {element : Handle} {params : List Handle}
    (harray : s.shape a = .ok (.generic .arrayClass [element]))
    (htuple : s.shape b = .ok (.tuple params)) (depth : Nat) :
    subtypeWithin (depth + 1) a b s = .ok false s := by
  have hcanonical : s.canonical b = .ok b := by rw [canonical, htuple]; rfl
  have hevident : ¬ Evident a b := by
    rintro (rfl | rfl | rfl)
    · rw [harray] at htuple
      cases htuple
    · rw [hs.linked.tupleFree_top.2] at htuple
      cases htuple
    · rw [hs.linked.tupleFree_nil.2] at harray
      cases harray
  rw [subtypeWithin, belowStep, bind_run (ask_run harray)]
  change (ask (·.canonical b) >>= _ : StoreM Bool) s = _
  rw [bind_run (ask_run hcanonical), if_neg hevident, bind_run (ask_run htuple)]
  rfl

/-- A flat tuple that is promoted is compared with a flat tuple without a change to the store: if
that is still fixed the answer is no, and otherwise both stand for settled types. -/
theorem WellFormed.subtypeWithin_flat (ha : s.IsFlat a) (hb : s.IsFlat b)
    (hpromoted : s.shape a = .ok (.promoted array)) (hdepth : 2 * s.size + 1 < depth) :
    ∃ answer, subtypeWithin depth a b s = .ok answer s := by
  have hsettled : ∀ {h array}, s.IsFlat h → s.shape h = .ok (.promoted array) →
      s.IsSettled h := by
    intro h array hflat hshape
    refine .of_shape hshape nofun fun x hx => ?_
    rw [List.mem_singleton.mp hx]
    exact hflat.array array hshape
  obtain ⟨params, digest, entry, traits, hslot, -⟩ := hb.elements
  rcases hs.linked.shape_of_tuple hslot with hfixed | ⟨array', hpromoted'⟩
  · obtain ⟨element, harray⟩ := hs.shape_of_array hpromoted
    obtain ⟨depth, rfl⟩ : ∃ n, depth = n + 1 + 1 := ⟨depth - 2, by omega⟩
    refine ⟨false, ?_⟩
    rw [subtypeWithin, belowStep, bind_run (ask_run hpromoted)]
    exact hs.subtypeWithin_array_tuple harray hfixed depth
  · have hranka := hs.linked.rank_le_size a
    have hrankb := hs.linked.rank_le_size b
    exact hs.subtypeWithin_settled depth ha.contains hb.contains (hsettled ha hpromoted)
      (hsettled hb hpromoted') (by omega)

/-- Whatever depth it may nest to, such a comparison does not change the store if it returns. -/
theorem WellFormed.eq_of_subtypeWithin_flat {answer : Bool} (ha : s.IsFlat a) (hb : s.IsFlat b)
    (hpromoted : s.shape a = .ok (.promoted array))
    (hrun : subtypeWithin depth a b s = .ok answer t) : t = s := by
  have hdepth : 2 * s.size + 1 < depth + (2 * s.size + 2) := by omega
  obtain ⟨answer', hdeep⟩ := hs.subtypeWithin_flat ha hb hpromoted hdepth
  rw [subtypeWithin_refines (Nat.le_add_right _ _) a b hrun] at hdeep
  cases hdeep
  rfl

end Quiet

end Store

end GradualTypes
