import GradualTypes.Proofs.Independence

/-!
Normal outlines. An outline is normal if every set in it is as sets are made: it has at least two
members, which ascend, and none of them is nil, a set of the same kind or, in a union, the top. A
set of normal outlines is normal, and it depends only on what each of them contributes, so it makes
no difference whether some of them are put in a set of their own first. A type in which no promoted
tuple occurs has a normal outline.
-/

namespace GradualTypes

namespace Outline

variable {kind : SetKind} {os os' : List Outline} {o p : Outline}

structure IsMember (kind : SetKind) (o : Outline) : Prop where
  ne_nil : o ≠ nil
  ne_kind : o.kind ≠ kind.kind
  ne_top : kind = .union → o ≠ top

instance (kind : SetKind) (o : Outline) : Decidable (IsMember kind o) :=
  decidable_of_iff (o ≠ nil ∧ o.kind ≠ kind.kind ∧ (kind = .union → o ≠ top))
    ⟨fun ⟨hnil, hkind, htop⟩ => ⟨hnil, hkind, htop⟩, fun h => ⟨h.1, h.2, h.3⟩⟩

/-- All sets in an outline are as sets are made. -/
inductive IsNormal : Outline → Prop where
  | leaf {kind : Kind} {label : String} (hleaf : kind.isLeaf) : IsNormal ⟨kind, label, []⟩
  | list {kind : Kind} {label : String} {parts : List Outline}
      (hkind : kind = .generic ∨ kind = .tuple) (hparts : ∀ p ∈ parts, IsNormal p) :
      IsNormal ⟨kind, label, parts⟩
  | annotated {label : String} {inner : Outline} (hinner : IsNormal inner) :
      IsNormal ⟨.annotated, label, [inner]⟩
  | set {kind : SetKind} {parts : List Outline} (htwo : 2 ≤ parts.length)
      (hascending : Ascending parts) (hmembers : ∀ p ∈ parts, IsMember kind p)
      (hparts : ∀ p ∈ parts, IsNormal p) : IsNormal ⟨kind.kind, "", parts⟩

section Sets

theorem spread_of_ne (hkind : o.kind ≠ kind.kind) : spread kind o = [o] :=
  if_neg hkind

theorem ofMembers_of_two_le (htwo : 2 ≤ os.length) :
    ofMembers kind os = ⟨kind.kind, "", os⟩ := by
  rcases os with _ | ⟨x, _ | ⟨y, rest⟩⟩
  · simp at htwo
  · simp at htwo
  · rfl

theorem mem_flat : p ∈ flat kind os ↔ ∃ o ∈ os, p ∈ spread kind o ∧ p ≠ nil := by
  simp only [flat, List.mem_filter, List.mem_flatMap, decide_eq_true_eq]
  constructor
  · rintro ⟨⟨o, ho, hp⟩, hnil⟩
    exact ⟨o, ho, hp, hnil⟩
  · rintro ⟨o, ho, hp, hnil⟩
    exact ⟨⟨o, ho, hp⟩, hnil⟩

/-- Members of a set contribute themselves. -/
theorem flat_of_members (hos : ∀ o ∈ os, IsMember kind o) : flat kind os = os := by
  have hspread : os.flatMap (spread kind) = os := by
    rw [List.flatMap_congr fun o ho => spread_of_ne (hos o ho).ne_kind, List.flatMap_singleton']
  rw [flat, hspread, List.filter_eq_self]
  intro o ho
  simpa using (hos o ho).ne_nil

/-- A set depends only on what its arguments contribute. -/
theorem make_congr_flat (htop : kind = .union → (top ∈ os ↔ top ∈ os'))
    (hflat : ∀ p, p ∈ flat kind os ↔ p ∈ flat kind os') : make kind os = make kind os' := by
  have hgather : gather kind os = gather kind os' := by
    apply (ascending_gather kind os).eq_of_mem_iff (ascending_gather kind os')
    intro p
    rw [mem_gather, mem_gather, hflat]
  have habsorbs : (kind = .union ∧ top ∈ os) ↔ (kind = .union ∧ top ∈ os') :=
    and_congr_right htop
  simp only [make, habsorbs, hgather]

/-- Order and repetition of the arguments make no difference. -/
theorem make_congr (hmem : ∀ o, o ∈ os ↔ o ∈ os') : make kind os = make kind os' := by
  apply make_congr_flat fun _ => hmem top
  intro p
  simp only [mem_flat, hmem]

/-- A normal outline of the kind of a set has members of that kind. -/
theorem IsNormal.exists_members (ho : o.IsNormal) (hkind : o.kind = kind.kind) :
    ∃ parts, o = ⟨kind.kind, "", parts⟩ ∧ 2 ≤ parts.length ∧ Ascending parts ∧
      (∀ p ∈ parts, IsMember kind p) ∧ ∀ p ∈ parts, p.IsNormal := by
  cases ho with
  | leaf hleaf => cases kind <;> cases hkind <;> cases hleaf
  | list hlist => rcases hlist with rfl | rfl <;> cases kind <;> cases hkind
  | annotated => cases kind <;> cases hkind
  | @set other parts htwo hascending hmembers hparts =>
    obtain rfl : other = kind := by cases kind <;> cases other <;> first | rfl | cases hkind
    exact ⟨parts, rfl, htwo, hascending, hmembers, hparts⟩

/-- What a normal outline contributes to a set may be a member of it, unless it is nil or a top that
absorbs the set. -/
theorem IsNormal.of_spread (ho : o.IsNormal) (hp : p ∈ spread kind o) :
    p.IsNormal ∧ p.kind ≠ kind.kind ∧ (kind = .union → p = top → o = top) := by
  by_cases hkind : o.kind = kind.kind
  · rw [spread, if_pos hkind] at hp
    obtain ⟨parts, rfl, -, -, hmembers, hparts⟩ := ho.exists_members hkind
    exact ⟨hparts p hp, (hmembers p hp).ne_kind, fun hunion htop =>
      absurd htop ((hmembers p hp).ne_top hunion)⟩
  · rw [spread_of_ne hkind, List.mem_singleton] at hp
    subst hp
    exact ⟨ho, hkind, fun _ htop => htop⟩

variable (hos : ∀ o ∈ os, o.IsNormal)
include hos

theorem normal_of_flat (hp : p ∈ flat kind os) : p.IsNormal := by
  obtain ⟨o, ho, hp, -⟩ := mem_flat.mp hp
  exact ((hos o ho).of_spread hp).1

/-- What normal outlines contribute may be members, unless a top absorbs the set. -/
theorem member_of_flat (htop : ¬ (kind = .union ∧ top ∈ os)) (hp : p ∈ flat kind os) :
    IsMember kind p := by
  obtain ⟨o, ho, hp, hnil⟩ := mem_flat.mp hp
  obtain ⟨-, hkind, hself⟩ := (hos o ho).of_spread hp
  refine ⟨hnil, hkind, fun hunion hp => htop ⟨hunion, ?_⟩⟩
  rw [← hself hunion hp]
  exact ho

/-- A set of normal outlines is normal. -/
theorem make_normal (kind : SetKind) : (make kind os).IsNormal := by
  rw [make]
  split
  · exact .leaf rfl
  next htop =>
    have hnormal : ∀ p ∈ gather kind os, p.IsNormal := fun p hp =>
      normal_of_flat hos (mem_gather.mp hp)
    have hmembers : ∀ p ∈ gather kind os, IsMember kind p := fun p hp =>
      member_of_flat hos htop (mem_gather.mp hp)
    have hascending := ascending_gather kind os
    generalize gather kind os = members at hnormal hmembers hascending
    rcases members with _ | ⟨x, _ | ⟨y, rest⟩⟩
    · exact .leaf rfl
    · exact hnormal x List.mem_cons_self
    · exact .set (by simp) hascending hmembers hnormal

/-- A set contributes to a further set of the kind what its arguments contribute. -/
theorem mem_spread_make (htop : ¬ (kind = .union ∧ top ∈ os)) :
    p ∈ spread kind (make kind os) ∧ p ≠ nil ↔ p ∈ flat kind os := by
  have hmembers : ∀ p ∈ gather kind os, IsMember kind p := fun p hp =>
    member_of_flat hos htop (mem_gather.mp hp)
  rw [make, if_neg htop, ← mem_gather]
  generalize gather kind os = members at hmembers
  rcases members with _ | ⟨x, _ | ⟨y, rest⟩⟩
  · have hkind : nil.kind ≠ kind.kind := by cases kind <;> decide
    simp [ofMembers, spread_of_ne hkind]
  · have hx := hmembers x List.mem_cons_self
    rw [ofMembers, spread_of_ne hx.ne_kind]
    exact and_iff_left_of_imp fun hp => List.mem_singleton.mp hp ▸ hx.ne_nil
  · rw [ofMembers_of_two_le (by simp), spread, if_pos rfl]
    exact and_iff_left_of_imp fun hp => (hmembers p hp).ne_nil

/-- Only a top among them absorbs normal outlines. -/
theorem make_eq_top_iff : make .union os = top ↔ top ∈ os := by
  by_cases htop : top ∈ os
  · exact iff_of_true (if_pos ⟨rfl, htop⟩) htop
  · refine iff_of_false (fun hmake => htop ?_) htop
    have hkind : top.kind ≠ SetKind.union.kind := by decide
    have hmem : top ∈ spread .union (make .union os) ∧ top ≠ nil := by
      rw [hmake, spread_of_ne hkind]
      exact ⟨List.mem_cons_self, by decide⟩
    obtain ⟨o, ho, hp, -⟩ := mem_flat.mp ((mem_spread_make hos (by simp [htop])).mp hmem)
    rw [← ((hos o ho).of_spread hp).2.2 rfl rfl]
    exact ho

omit hos

/-- Ascending members are left as they are. -/
private theorem gather_of_members (hascending : Ascending os) (hos : ∀ o ∈ os, IsMember kind o) :
    gather kind os = os := by
  apply (ascending_gather kind os).eq_of_mem_iff hascending
  intro o
  rw [mem_gather, flat_of_members hos]

/-- A normal outline is the set of itself alone. -/
theorem IsNormal.make_singleton (ho : o.IsNormal) (kind : SetKind) : make kind [o] = o := by
  by_cases htop : kind = .union ∧ top ∈ [o]
  · rw [make, if_pos htop, List.mem_singleton.mp htop.2]
  rw [make, if_neg htop]
  by_cases hkind : o.kind = kind.kind
  · obtain ⟨parts, rfl, htwo, hascending, hmembers, -⟩ := ho.exists_members hkind
    have hgather : gather kind [⟨kind.kind, "", parts⟩] = parts := by
      apply (ascending_gather kind _).eq_of_mem_iff hascending
      intro p
      simp only [mem_gather, mem_flat, List.mem_singleton, exists_eq_left, spread, if_pos]
      exact and_iff_left_of_imp fun hp => (hmembers p hp).ne_nil
    rw [hgather, ofMembers_of_two_le htwo]
  · by_cases hnil : o = nil
    · subst hnil
      have hgather : gather kind [nil] = [] := by cases kind <;> rfl
      rw [hgather]
      rfl
    · have hmember : ∀ p ∈ [o], IsMember kind p := by
        intro p hp
        obtain rfl := List.mem_singleton.mp hp
        exact ⟨hnil, hkind, fun hunion htop' => htop ⟨hunion, by simp [htop']⟩⟩
      rw [gather_of_members (List.pairwise_singleton _ _) hmember]
      rfl

/-- Arguments can be put in sets of their own first. -/
theorem make_flatMap {α : Type} {xs : List α} {f : α → List Outline}
    (hf : ∀ x ∈ xs, ∀ o ∈ f x, o.IsNormal) :
    make kind (xs.map fun x => make kind (f x)) = make kind (xs.flatMap f) := by
  by_cases htop : kind = .union ∧ top ∈ xs.flatMap f
  · obtain ⟨rfl, htop⟩ := htop
    obtain ⟨x, hx, htop'⟩ := List.mem_flatMap.mp htop
    have hmap : top ∈ xs.map fun x => make .union (f x) :=
      List.mem_map.mpr ⟨x, hx, (make_eq_top_iff (hf x hx)).mpr htop'⟩
    rw [make, make, if_pos ⟨rfl, hmap⟩, if_pos ⟨rfl, htop⟩]
  · have hparts : ∀ x ∈ xs, ¬ (kind = .union ∧ top ∈ f x) := fun x hx hpart =>
      htop ⟨hpart.1, List.mem_flatMap.mpr ⟨x, hx, hpart.2⟩⟩
    apply make_congr_flat
    · rintro rfl
      refine iff_of_false (fun hmap => ?_) fun hmem => htop ⟨rfl, hmem⟩
      obtain ⟨x, hx, hmake⟩ := List.mem_map.mp hmap
      exact hparts x hx ⟨rfl, (make_eq_top_iff (hf x hx)).mp hmake⟩
    · intro p
      calc p ∈ flat kind (xs.map fun x => make kind (f x))
          ↔ ∃ x ∈ xs, p ∈ spread kind (make kind (f x)) ∧ p ≠ nil := by
            rw [mem_flat]
            simp only [List.mem_map, exists_exists_and_eq_and]
        _ ↔ ∃ x ∈ xs, p ∈ flat kind (f x) :=
            exists_congr fun x => and_congr_right fun hx =>
              mem_spread_make (hf x hx) (hparts x hx)
        _ ↔ p ∈ flat kind (xs.flatMap f) := by
            simp only [mem_flat, List.mem_flatMap]
            constructor
            · rintro ⟨x, hx, o, ho, hp⟩
              exact ⟨o, ⟨x, hx, ho⟩, hp⟩
            · rintro ⟨o, ⟨x, hx, ho⟩, hp⟩
              exact ⟨x, hx, o, ho, hp⟩

end Sets

end Outline

section Descriptors

mutual

/-- What a descriptor describes is normal. -/
theorem Descriptor.normal_outline : ∀ d : Descriptor, d.outline.IsNormal
  | .top | .nil | .wildcard | .nominal _ | .symbol _ | .var _ => .leaf rfl
  | .generic _ params => .list (.inl rfl) (by
      rintro p (_ | ⟨_, hp⟩)
      · exact .leaf rfl
      · exact Descriptor.normal_outlines params p hp)
  | .array element => .list (.inl rfl) (by
      rintro p (_ | ⟨_, _ | ⟨_, hp⟩⟩)
      · exact .leaf rfl
      · exact Descriptor.normal_outline element
      · cases hp)
  | .annotated _ inner => .annotated (Descriptor.normal_outline inner)
  | .union types => Outline.make_normal (Descriptor.normal_outlines types) .union
  | .intersection types => Outline.make_normal (Descriptor.normal_outlines types) .intersection
  | .tuple params => .list (.inr rfl) (Descriptor.normal_outlines params)

private theorem Descriptor.normal_outlines :
    ∀ ds : List Descriptor, ∀ o ∈ Descriptor.outlines ds, o.IsNormal
  | [], _, ho => by cases ho
  | d :: ds, o, ho => by
    rcases List.mem_cons.mp ho with rfl | ho
    · exact Descriptor.normal_outline d
    · exact Descriptor.normal_outlines ds o ho

end

end Descriptors

namespace Store

variable {s : Store} {a : Handle}

/-- The members of a set are told to be such by their outlines. -/
theorem WellFormed.member_outline {kind : SetKind} {members : List Handle} {traits : Traits}
    {x : Handle} (hs : s.WellFormed) (hslot : s.slot? a = some ⟨kind.node members, traits⟩)
    (hx : x ∈ members) : (s.outline x).IsMember kind := by
  obtain ⟨slot, hx, ⟨hnil, hset⟩, htop⟩ := hs.normal.plain hslot x hx
  obtain ⟨htop_iff, hnil_iff⟩ := hs.outline_special_iff (contains_of_slot hx)
  obtain ⟨htop_iff', hnil_iff'⟩ := hs.linked.special_iff hx
  refine ⟨?_, ?_, fun hunion => ?_⟩
  · rwa [ne_eq, hnil_iff, ← hnil_iff']
  · rw [outline_step hs.linked hs.named hx, ne_eq, SetKind.exists_node_iff]
    rintro ⟨others, hnode⟩
    exact hset others hnode
  · rw [ne_eq, htop_iff, ← htop_iff']
    exact htop hunion

/-- A type in which no promoted tuple occurs has a normal outline. -/
theorem WellFormed.normal_outline (hs : s.WellFormed) (hd : s.Distinct) (ha : s.contains a)
    (hunpromoted : s.IsUnpromoted a) : (s.outline a).IsNormal := by
  induction hn : a.index using Nat.strong_induction_on generalizing a with
  | _ n ih =>
    obtain ⟨⟨node, traits⟩, hslot⟩ := exists_slot ha
    have hparts : ∀ o ∈ node.refs.map s.outline, o.IsNormal := by
      intro o ho
      obtain ⟨x, hx, rfl⟩ := List.mem_map.mp ho
      have hlt := hs.linked.refs_lt hslot x hx
      exact ih x.index (by omega) (hs.linked.contains_of_refs hslot hx)
        (hunpromoted.ref hs.linked hslot hx) rfl
    have hsets : ∀ (kind : SetKind) {members : List Handle}, node = kind.node members →
        Outline.IsNormal ⟨kind.kind, "", members.map s.outline⟩ := by
      rintro kind members rfl
      rw [SetKind.refs_node] at hparts
      obtain ⟨htwo, -⟩ := hs.gathered.entry hslot
      refine .set (by simpa using htwo) (hd.ascending hs kind hunpromoted hslot) ?_ hparts
      intro o ho
      obtain ⟨x, hx, rfl⟩ := List.mem_map.mp ho
      exact hs.member_outline hslot hx
    rw [outline_step hs.linked hs.named hslot]
    cases node with
    | top => exact .leaf rfl
    | nil => exact .leaf rfl
    | wildcard => exact .leaf rfl
    | nominal => exact .leaf rfl
    | symbol => exact .leaf rfl
    | var => exact .leaf rfl
    | generic => exact .list (.inl rfl) hparts
    | tuple => exact .list (.inr rfl) hparts
    | annotated label inner => exact .annotated (hparts _ (by simp [Node.refs]))
    | union => exact hsets .union rfl
    | intersection => exact hsets .intersection rfl

end Store

end GradualTypes
