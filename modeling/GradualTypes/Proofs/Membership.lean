import GradualTypes.Proofs.Normalization
import GradualTypes.Proofs.Soundness

/-!
What membership depends on. A value belongs to a type by the shapes of the types that are found in
it and by the classes, so it belongs in every store that agrees about them. Equal types have the
same values. Therefore a union has the values of the types it was made of, and an intersection those
that all of these have, although the members of a set that was found in the catalog may be other
types.
-/

namespace GradualTypes

namespace SetKind

variable {kind : SetKind} {p q : Handle → Prop} {x : Handle} {types : List Handle}

/-- What a set of a kind asks of its members: of a union, that it holds of one of them, and of an
intersection, that it holds of all. -/
def Holds (kind : SetKind) (p : Handle → Prop) (types : List Handle) : Prop :=
  match kind with
  | union => ∃ x ∈ types, p x
  | intersection => ∀ x ∈ types, p x

private theorem holds_singleton : kind.Holds p [x] ↔ p x := by
  cases kind <;> simp [Holds]

end SetKind

namespace Store

variable {s t : Store} {a b h : Handle} {v : Value} {kind : SetKind} {traits : Traits}
  {types members xs ys : List Handle}

section Stores

/-- Membership by the shape of a type follows from membership in its components. -/
theorem belongsBy_imp {belongs belongs' : Handle → Value → Prop} {shape : Shape}
    (hhierarchy : t.hierarchy = s.hierarchy) (hnode : ∀ x ∈ shape.parts, t.node x = s.node x)
    (hpart : ∀ x ∈ shape.parts, ∀ w, w = v ∨ w ∈ v.components → belongs x w → belongs' x w)
    (hv : s.BelongsBy belongs v shape) : t.BelongsBy belongs' v shape := by
  have hwhole : ∀ x ∈ shape.parts, belongs x v → belongs' x v := fun x hx =>
    hpart x hx v (.inl rfl)
  have hinstance : ∀ name, t.isInstance v name = s.isInstance v name := by
    simp [isInstance, hhierarchy]
  cases shape with
  | nominal name => simpa only [BelongsBy, hinstance] using hv
  | generic base params =>
    have hbase := hnode base List.mem_cons_self
    refine belongsByParams_of_forall₂ (fun hof => ?_) ?_ hv
    · simpa only [isInstanceOfBase, hbase, hinstance] using hof
    · refine List.forall₂_same.mpr fun x hx w hw => ?_
      exact hpart x (List.mem_cons_of_mem base hx) w (.inr hw)
  | promoted array => exact hwhole array List.mem_cons_self hv
  | tuple params =>
    cases v with
    | array items =>
      obtain ⟨_, hitems, hforall⟩ := hv
      cases hitems
      refine ⟨items, rfl, forall₂_imp_of_mem hforall fun x hx w hw => ?_⟩
      exact hpart x hx w (.inr hw)
    | _ =>
      obtain ⟨_, hitems, -⟩ := hv
      cases hitems
  | union members =>
    obtain ⟨x, hx, hxv⟩ := hv
    exact ⟨x, hx, hwhole x hx hxv⟩
  | intersection members => exact fun x hx => hwhole x hx (hv x hx)
  | annotated label inner => exact hwhole inner List.mem_cons_self hv
  | _ => exact hv

/-- Membership in a type is the same in two stores that agree about all that is found in it. -/
theorem belongs_iff_of_kept (kept : Handle → Prop) (hs : s.WellFormed) (ht : t.WellFormed)
    (hretains : s.Retains t) (hhierarchy : t.hierarchy = s.hierarchy)
    (hkept : ∀ x shape, kept x → s.shape x = .ok shape →
      t.shape x = .ok shape ∧ ∀ y ∈ shape.parts, kept y)
    (hh : s.contains h) (hkeep : kept h) : t.Belongs h v ↔ s.Belongs h v := by
  induction hn : s.rank h using Nat.strong_induction_on generalizing h v with
  | _ n ih =>
    obtain ⟨shape, hshape⟩ := hs.linked.exists_shape hh
    obtain ⟨hshape', hparts⟩ := hkept h shape hkeep hshape
    have hpart : ∀ x ∈ shape.parts, ∀ w, t.Belongs x w ↔ s.Belongs x w := by
      intro x hx w
      obtain ⟨hcontains, hlt⟩ := hs.descends hshape hx
      exact ih _ (by omega) hcontains (hparts x hx) rfl
    have hnode : ∀ x ∈ shape.parts, t.node x = s.node x := by
      intro x hx
      obtain ⟨slot, hslot⟩ := exists_slot (hs.descends hshape hx).1
      rw [node_of_slot hslot, node_of_slot (hretains.slots hslot)]
    rw [ht.belongs_iff hshape', hs.belongs_iff hshape]
    constructor
    · exact belongsBy_imp hhierarchy.symm (fun x hx => (hnode x hx).symm)
        fun x hx w _ => (hpart x hx w).mp
    · exact belongsBy_imp hhierarchy hnode fun x hx w _ => (hpart x hx w).mpr

theorem hierarchy_allocate (node : Node) (traits : Traits) (digest : UInt64) :
    (s.allocate node traits digest).hierarchy = s.hierarchy := by
  cases node <;> rfl

theorem Grows.hierarchy_eq (hst : s.Grows t) : t.hierarchy = s.hierarchy := by
  have hadded := hst.added
  clear hst
  induction hadded with
  | refl => rfl
  | tail _ hadds ih =>
    obtain ⟨node, traits, digest, -, rfl⟩ := hadds
    rw [hierarchy_allocate, ih]

/-- New types do not matter to the old ones. -/
theorem Grows.belongs_iff (hst : s.Grows t) (hs : s.WellFormed) (hh : s.contains h) :
    t.Belongs h v ↔ s.Belongs h v :=
  belongs_iff_of_kept (s.contains ·) hs (hst.wellFormed hs) hst.toRetains hst.hierarchy_eq
    (fun _ _ _ hshape => ⟨hst.shape_eq hshape, fun _ hy => (hs.descends hshape hy).1⟩) hh hh

private theorem Grows.member_eq (hst : s.Grows t) (hs : s.WellFormed) (hh : s.contains h)
    (v : Value) : t.member h v = s.member h v := by
  have hbefore := Decides.self (member_answered hs hh v)
  have hafter := Decides.self (member_answered (hst.wellFormed hs) (hst.contains hh) v)
  exact hafter.unique (hbefore.congr (hst.belongs_iff hs hh).symm)

end Stores

section Equal

/-- A value that belongs to a type by its shape belongs to every type of a shape that agrees with it
up to components that the value may be moved between. -/
private theorem belongsBy_of_sameShapes {same : Handle → Handle → Prop}
    {belongs : Handle → Value → Prop} {left right : Shape}
    (hplain : ∀ array, left ≠ .promoted array) (hplain' : ∀ array, right ≠ .promoted array)
    (hpart : ∀ x ∈ left.parts, ∀ y ∈ right.parts, same x y ∨ same y x →
      ∀ w, belongs x w → belongs y w)
    (hsame : SameShapes same a left b right) (hv : s.BelongsBy belongs v left) :
    s.BelongsBy belongs v right := by
  unfold SameShapes at hsame
  split at hsame
  · exact absurd rfl (hplain _)
  · exact absurd rfl (hplain' _)
  · obtain ⟨items, hitems, hforall⟩ := hv
    refine ⟨items, hitems, forall₂_trans_of_mem hsame.flip hforall fun y hy x hx w _ hxy => ?_⟩
    exact hpart x hx y hy (.inl hxy) w
  · obtain ⟨rfl, hparams⟩ := hsame
    refine belongsByParams_of_forall₂ id (forall₂_imp_of_mem hparams fun x hx y hy hxy w _ => ?_) hv
    exact hpart x (List.mem_cons_of_mem _ hx) y (List.mem_cons_of_mem _ hy) (.inl hxy) w
  · obtain ⟨x, hx, hxv⟩ := hv
    obtain ⟨y, hy, hxy⟩ := hsame.1 x hx
    exact ⟨y, hy, hpart x hx y hy (.inl hxy) v hxv⟩
  · intro y hy
    obtain ⟨x, hx, hyx⟩ := hsame.2 y hy
    exact hpart x hx y hy (.inr hyx) v (hv x hx)
  · exact hpart _ List.mem_cons_self _ List.mem_cons_self (.inl hsame.2) v hv
  · exact hsame.elim

variable (hs : s.WellFormed)
include hs

private theorem WellFormed.belongs_of_same (ha : s.contains a) (hb : s.contains b)
    (hab : s.Same a b) (hv : s.Belongs a v) : s.Belongs b v := by
  induction hn : s.rank a + s.rank b using Nat.strong_induction_on generalizing a b v with
  | _ n ih =>
    obtain ⟨left, hleft⟩ := hs.linked.exists_shape ha
    obtain ⟨right, hright⟩ := hs.linked.exists_shape hb
    by_cases hpromoted : ∃ array, left = .promoted array
    · obtain ⟨array, rfl⟩ := hpromoted
      obtain ⟨harray, hlt⟩ := hs.descends hleft List.mem_cons_self
      exact ih _ (by omega) harray hb ((hs.same_promoted_left hleft hb).mp hab)
        ((hs.belongs_iff hleft).mp hv) rfl
    by_cases hpromoted' : ∃ array, right = .promoted array
    · obtain ⟨array, rfl⟩ := hpromoted'
      obtain ⟨harray, hlt⟩ := hs.descends hright List.mem_cons_self
      apply (hs.belongs_iff hright).mpr
      exact ih _ (by omega) ha harray ((hs.same_promoted_right hright ha).mp hab) hv rfl
    rcases (hs.same_iff hleft hright).mp hab with rfl | hsame
    · exact hv
    · rw [hs.belongs_iff hleft] at hv
      rw [hs.belongs_iff hright]
      refine belongsBy_of_sameShapes (not_exists.mp hpromoted) (not_exists.mp hpromoted') ?_
        hsame hv
      intro x hx y hy hxy w hw
      obtain ⟨hcx, hltx⟩ := hs.descends hleft hx
      obtain ⟨hcy, hlty⟩ := hs.descends hright hy
      exact ih _ (by omega) hcx hcy (hxy.elim id (hs.same_symm hcy hcx)) hw rfl

/-- Equal types have the same values. -/
theorem WellFormed.belongs_congr (ha : s.contains a) (hb : s.contains b) (hab : s.Same a b) :
    s.Belongs a v ↔ s.Belongs b v :=
  ⟨hs.belongs_of_same ha hb hab, hs.belongs_of_same hb ha (hs.same_symm ha hb hab)⟩

/-- It does not matter to a set which of equal types are its members. -/
theorem WellFormed.holds_congr (hxs : ∀ x ∈ xs, s.contains x) (hys : ∀ y ∈ ys, s.contains y)
    (hsame : s.SameTypes xs ys) :
    kind.Holds (s.Belongs · v) xs ↔ kind.Holds (s.Belongs · v) ys := by
  have hmove : ∀ {xs ys : List Handle}, (∀ x ∈ xs, s.contains x) → (∀ y ∈ ys, s.contains y) →
      s.SameTypes xs ys → kind.Holds (s.Belongs · v) xs → kind.Holds (s.Belongs · v) ys := by
    intro xs ys hxs hys hsame hv
    cases kind with
    | union =>
      obtain ⟨x, hx, hxv⟩ := hv
      obtain ⟨y, hy, hxy⟩ := hsame.1 x hx
      exact ⟨y, hy, hs.belongs_of_same (hxs x hx) (hys y hy) hxy hxv⟩
    | intersection =>
      intro y hy
      obtain ⟨x, hx, hyx⟩ := hsame.2 y hy
      exact (hs.belongs_congr (hys y hy) (hxs x hx) hyx).mpr (hv x hx)
  exact ⟨hmove hxs hys hsame, hmove hys hxs hsame.symm⟩

end Equal

section Sets

variable (hs : s.WellFormed)
include hs

private theorem WellFormed.belongs_set_iff (hslot : s.slot? h = some ⟨kind.node members, traits⟩) :
    s.Belongs h v ↔ kind.Holds (s.Belongs · v) members := by
  rw [hs.belongs_iff (shape_of_set hslot)]
  cases kind <;> rfl

omit hs in
theorem spread_cases (kind : SetKind) (hh : s.contains h) :
    (∃ members traits, s.slot? h = some ⟨kind.node members, traits⟩ ∧
      s.spread kind h = members) ∨ s.spread kind h = [h] := by
  obtain ⟨⟨node, traits⟩, hslot⟩ := exists_slot hh
  by_cases hset : ∃ members, node = kind.node members
  · obtain ⟨members, rfl⟩ := hset
    exact .inl ⟨members, traits, hslot, spread_of_set hslot⟩
  · exact .inr (spread_of_ne hslot (not_exists.mp hset))

/-- In a set nil is dropped, and any other type gives way to types other than nil. -/
theorem WellFormed.mem_flat_iff (htypes : ∀ p ∈ types, s.contains p) {x : Handle} :
    x ∈ s.flat kind types ↔ ∃ p ∈ types, p ≠ .nil ∧ x ∈ s.spread kind p := by
  have hnil : s.spread kind .nil = [.nil] := by
    have hslot : s.slot? .nil = some ⟨.nil, .none⟩ := hs.linked.builtin .nil (by decide)
    exact spread_of_ne hslot (by cases kind <;> simp [SetKind.node])
  simp only [flat, List.mem_filter, List.mem_flatMap, decide_eq_true_eq]
  constructor
  · rintro ⟨⟨p, hp, hx⟩, hne⟩
    refine ⟨p, hp, fun heq => ?_, hx⟩
    rw [heq, hnil] at hx
    exact hne (List.mem_singleton.mp hx)
  · rintro ⟨p, hp, hne, hx⟩
    refine ⟨⟨p, hp, hx⟩, ?_⟩
    rcases spread_cases kind (htypes p hp) with ⟨members, traits, hslot, hspread⟩ | hspread
    · rw [hspread] at hx
      obtain ⟨slot, hx, hmember, -⟩ := hs.normal.plain hslot x hx
      exact mt (hs.linked.special_iff hx).2.mpr hmember.1
    · rw [hspread] at hx
      rw [List.mem_singleton.mp hx]
      exact hne

/-- A type has the values of what it is replaced by in a set. -/
theorem WellFormed.holds_spread_iff (hh : s.contains h) :
    kind.Holds (s.Belongs · v) (s.spread kind h) ↔ s.Belongs h v := by
  rcases spread_cases kind hh with ⟨members, traits, hslot, hspread⟩ | hspread
  · rw [hspread, hs.belongs_set_iff hslot]
  · rw [hspread]
    exact SetKind.holds_singleton

private theorem WellFormed.holds_flat_iff (htypes : ∀ p ∈ types, s.contains p) :
    kind.Holds (s.Belongs · v) (s.flat kind types) ↔
      kind.Holds (s.Belongs · v) (types.filter (· ≠ .nil)) := by
  have hspread : ∀ p ∈ types.filter (· ≠ .nil),
      (kind.Holds (s.Belongs · v) (s.spread kind p) ↔ s.Belongs p v) := fun p hp =>
    hs.holds_spread_iff (htypes p (List.mem_filter.mp hp).1)
  have hmem : ∀ {x}, x ∈ s.flat kind types ↔
      ∃ p ∈ types.filter (· ≠ .nil), x ∈ s.spread kind p := by
    intro x
    rw [hs.mem_flat_iff htypes]
    simp [and_assoc]
  cases kind with
  | union =>
    constructor
    · rintro ⟨x, hx, hxv⟩
      obtain ⟨p, hp, hx⟩ := hmem.mp hx
      exact ⟨p, hp, (hspread p hp).mp ⟨x, hx, hxv⟩⟩
    · rintro ⟨p, hp, hpv⟩
      obtain ⟨x, hx, hxv⟩ := (hspread p hp).mpr hpv
      exact ⟨x, hmem.mpr ⟨p, hp, hx⟩, hxv⟩
  | intersection =>
    constructor
    · intro hall p hp
      exact (hspread p hp).mp fun x hx => hall x (hmem.mpr ⟨p, hp, hx⟩)
    · intro hall x hx
      obtain ⟨p, hp, hx⟩ := hmem.mp hx
      exact (hspread p hp).mpr (hall p hp) x hx

/-- Something is left of types that are not all nil. -/
theorem WellFormed.flat_ne_nil (kind : SetKind) (htypes : ∀ p ∈ types, s.contains p)
    (hne : ∃ p ∈ types, p ≠ .nil) : s.flat kind types ≠ [] := by
  obtain ⟨p, hp, hne⟩ := hne
  have hspread : s.spread kind p ≠ [] := by
    rcases spread_cases kind (htypes p hp) with ⟨members, traits, hslot, hspread⟩ | hspread
    · have htwo := (hs.gathered.entry hslot).1
      rw [hspread]
      rintro rfl
      cases htwo
    · simp [hspread]
  obtain ⟨x, hx⟩ := List.exists_mem_of_ne_nil _ hspread
  exact List.ne_nil_of_mem ((hs.mem_flat_iff htypes).mpr ⟨p, hp, hne, hx⟩)

end Sets

section Made

variable (hs : s.WellFormed)
include hs

/-- A type that members stand for has the values that a set of the members has. -/
theorem WellFormed.belongs_standsFor_iff (hmembers : ∀ x ∈ members, s.contains x)
    (hne : members ≠ []) (hstands : s.StandsFor kind members h) :
    s.Belongs h v ↔ kind.Holds (s.Belongs · v) members := by
  match members, hne, hstands with
  | [only], _, hstands =>
    rw [hstands]
    exact (SetKind.holds_singleton (p := (s.Belongs · v))).symm
  | x :: y :: rest, _, hstands =>
    obtain ⟨others, traits, hslot, hsame⟩ := hstands
    rw [hs.belongs_set_iff hslot]
    exact hs.holds_congr (hs.linked.contains_of_members hslot) hmembers hsame

/-- A set that is made has the values of its types, nil apart. -/
theorem WellFormed.belongs_isMadeOf_iff (htypes : ∀ p ∈ types, s.contains p)
    (hne : ∃ p ∈ types, p ≠ .nil) (hmade : s.IsMadeOf kind types h) :
    s.Belongs h v ↔ kind.Holds (s.Belongs · v) (types.filter (· ≠ .nil)) := by
  rcases hmade with ⟨⟨rfl, htop⟩, rfl⟩ | ⟨-, members, harranged, hstands⟩
  · have hall : s.Belongs .top v := (hs.belongs_iff hs.linked.tupleFree_top.2).mpr trivial
    exact iff_of_true hall ⟨.top, List.mem_filter.mpr ⟨htop, by decide⟩, hall⟩
  · have hflat : ∀ x ∈ s.flat kind types, s.contains x := hs.contains_of_flat htypes
    have hmembers : ∀ x ∈ members, s.contains x := fun x hx => hflat x (harranged.subset hx)
    have hmembers_ne : members ≠ [] := by
      obtain ⟨x, hx⟩ := List.exists_mem_of_ne_nil _ (hs.flat_ne_nil kind htypes hne)
      obtain ⟨y, hy, -⟩ := harranged.first x hx
      exact List.ne_nil_of_mem hy
    rw [hs.belongs_standsFor_iff hmembers hmembers_ne hstands,
      hs.holds_congr hmembers hflat (harranged.sameTypes hs hflat), hs.holds_flat_iff htypes]

/-- Nothing is left of types that are all nil. -/
theorem WellFormed.eq_nil_of_isMadeOf (hnils : ∀ p ∈ types, p = .nil)
    (hmade : s.IsMadeOf kind types h) : h = .nil := by
  have htypes : ∀ p ∈ types, s.contains p := fun p hp => hnils p hp ▸ hs.linked.contains_nil
  rcases hmade with ⟨⟨-, htop⟩, -⟩ | ⟨-, members, harranged, hstands⟩
  · exact absurd (hnils .top htop) (by decide)
  · have hflat : s.flat kind types = [] := by
      refine List.eq_nil_iff_forall_not_mem.mpr fun x hx => ?_
      obtain ⟨p, hp, hne, -⟩ := (hs.mem_flat_iff htypes).mp hx
      exact hne (hnils p hp)
    obtain rfl : members = [] := List.subset_nil.mp (hflat ▸ harranged.subset)
    exact hstands

omit hs in
theorem union_run (htypes : ∀ p ∈ types, s.contains p) :
    Store.union types s = formUnion types s := by
  have hcheck : s.checkParams types = .ok () := checkParamsFrom_eq_ok_iff.mpr htypes
  rw [union, bind_run (ask_run hcheck)]

omit hs in
theorem intersection_run (htypes : ∀ p ∈ types, s.contains p) :
    Store.intersection types s = formIntersection types s := by
  have hcheck : s.checkParams types = .ok () := checkParamsFrom_eq_ok_iff.mpr htypes
  rw [intersection, bind_run (ask_run hcheck)]

/-- Making a set comes to an end, and from then on the set has its values. What was answered about
the types that were there is still answered so. -/
theorem WellFormed.member_make (kind : SetKind) (htypes : ∀ p ∈ types, s.contains p)
    (hne : ∃ p ∈ types, p ≠ .nil) :
    ∃ h t, kind.make types s = .ok h t ∧ ∀ v,
      (∀ p ∈ types, t.member p v = s.member p v) ∧
      Decides (t.member h v) (kind.Holds (t.Belongs · v) (types.filter (· ≠ .nil))) := by
  obtain ⟨h, t, hrun, hst, hh, hmade⟩ := hs.make_returns kind htypes
  have ht := hst.wellFormed hs
  have htypes' : ∀ p ∈ types, t.contains p := fun p hp => hst.contains (htypes p hp)
  refine ⟨h, t, hrun, fun v => ⟨fun p hp => hst.member_eq hs (htypes p hp) v, ?_⟩⟩
  exact (Decides.self (member_answered ht hh v)).congr (ht.belongs_isMadeOf_iff htypes' hne hmade)

end Made

end Store

/-- In a reachable store a union has the values that one of the types it was made of has, and an
intersection those that all of them have, nil apart. It does not matter whether the set is new or
was found, with other members, in the catalog. -/
theorem Reachable.member_composite {s : Store} {xs : List Handle} (hs : Reachable s)
    (hxs : ∀ x ∈ xs, s.contains x) (hne : ∃ x ∈ xs, x ≠ .nil) :
    (∃ h t, Store.union xs s = .ok h t ∧ ∀ v,
      (∀ x ∈ xs, t.member x v = s.member x v) ∧
      Decides (t.member h v) (∃ x ∈ xs, x ≠ .nil ∧ t.member x v = .ok true)) ∧
    ∃ h t, Store.intersection xs s = .ok h t ∧ ∀ v,
      (∀ x ∈ xs, t.member x v = s.member x v) ∧
      Decides (t.member h v) (∀ x ∈ xs, x ≠ .nil → t.member x v = .ok true) := by
  obtain ⟨h, t, hunion, hvalues⟩ := hs.wellFormed.member_make .union hxs hne
  obtain ⟨h', t', hintersection, hvalues'⟩ := hs.wellFormed.member_make .intersection hxs hne
  refine ⟨⟨h, t, hunion, fun v => ⟨(hvalues v).1, (hvalues v).2.congr ?_⟩⟩,
    h', t', hintersection, fun v => ⟨(hvalues' v).1, (hvalues' v).2.congr ?_⟩⟩
  · simp [SetKind.Holds, Store.Belongs, and_assoc]
  · simp [SetKind.Holds, Store.Belongs]

/-- A union with one of two equal tuples is found when it is asked for with the other. An array of
an integer and a string belongs to it because it belongs to the other tuple, a string does not, and
the array belongs to the intersection of that tuple and the wildcard although it is not nil. -/
theorem pairStore_member_composite :
    let s := (Operation.union [⟨7⟩, ⟨5⟩]).apply pairStore
    let pair := Value.array [.int 1, .str "one"]
    Reachable s ∧ s.node ⟨12⟩ = .ok (.union [⟨5⟩, ⟨7⟩]) ∧ s.member .nil pair = .ok false ∧
      (∃ t, Store.union [⟨8⟩, .nil, ⟨5⟩] s = .ok ⟨12⟩ t ∧ t.member ⟨12⟩ pair = .ok true ∧
        t.member ⟨12⟩ (.str "one") = .ok false) ∧
      ∃ h t, Store.intersection [⟨8⟩, .nil, .wildcard] s = .ok h t ∧
        t.member h pair = .ok true := by
  intro s pair
  have hs : Reachable s := .step (.union [⟨7⟩, ⟨5⟩]) reachable_pairStore trivial
  have hunion : ∀ x ∈ [(⟨8⟩ : Handle), .nil, ⟨5⟩], s.contains x := by decide +kernel
  have hinter : ∀ x ∈ [(⟨8⟩ : Handle), .nil, .wildcard], s.contains x := by decide +kernel
  have htuple : s.member ⟨8⟩ pair = .ok true := by decide +kernel
  have hstring : ∀ x ∈ [(⟨8⟩ : Handle), .nil, ⟨5⟩], s.member x (.str "one") = .ok false := by
    decide +kernel
  have hall : ∀ x ∈ [(⟨8⟩ : Handle), .nil, .wildcard], x ≠ .nil → s.member x pair = .ok true := by
    decide +kernel
  obtain ⟨⟨h, t, hrun, hvalues⟩, -⟩ :=
    Reachable.member_composite hs hunion ⟨⟨5⟩, by decide, by decide⟩
  obtain ⟨-, h', t', hrun', hvalues'⟩ :=
    Reachable.member_composite hs hinter ⟨⟨8⟩, by decide, by decide⟩
  obtain rfl : h = ⟨12⟩ := by
    have hfound : (Store.union [⟨8⟩, .nil, ⟨5⟩]).run' s = some ⟨12⟩ := by decide +kernel
    rw [EStateM.run', EStateM.run, hrun] at hfound
    exact Option.some.inj hfound
  refine ⟨hs, by decide +kernel, by decide +kernel, ⟨t, hrun, ?_, ?_⟩, h', t', hrun', ?_⟩
  · obtain ⟨hkept, hdecides⟩ := hvalues pair
    have hmem : (⟨8⟩ : Handle) ∈ [(⟨8⟩ : Handle), .nil, ⟨5⟩] := List.mem_cons_self
    exact hdecides.eq_true_iff.mpr ⟨⟨8⟩, hmem, by decide, (hkept _ hmem).trans htuple⟩
  · obtain ⟨hkept, hdecides⟩ := hvalues (.str "one")
    refine (hdecides.congr (iff_false_intro ?_)).eq_decide
    rintro ⟨x, hx, -, hbelongs⟩
    rw [hkept x hx, hstring x hx] at hbelongs
    cases hbelongs
  · obtain ⟨hkept, hdecides⟩ := hvalues' pair
    exact hdecides.eq_true_iff.mpr fun x hx hne => (hkept x hx).trans (hall x hx hne)

end GradualTypes
