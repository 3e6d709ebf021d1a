import GradualTypes.Proofs.Agreement
import GradualTypes.Proofs.Normalization

/-!
Outlines of sets of types. What becomes of types when they are put in a union or an intersection can
be told from their outlines alone: nested sets are opened, nil is dropped, and of what is left each
outline is taken once, in ascending order. In a store in which no tuple is promoted this is what
happens to the types themselves: the members that are kept show exactly these outlines, and so does
an older set that is found for them.
-/

namespace GradualTypes

def SetKind.kind : SetKind → Kind
  | union => .union
  | intersection => .intersection

theorem SetKind.kind_node (kind : SetKind) (members : List Handle) :
    (kind.node members).kind = kind.kind := by
  cases kind <;> rfl

theorem SetKind.exists_node_iff {kind : SetKind} {node : Node} :
    node.kind = kind.kind ↔ ∃ members, node = kind.node members := by
  cases kind <;> cases node <;> simp [SetKind.kind, Node.kind, SetKind.node]

namespace Outline

def top : Outline := ⟨.top, "", []⟩

def nil : Outline := ⟨.nil, "", []⟩

def nominal (text : String) : Outline := ⟨.nominal, text, []⟩

section Sets

variable {kind : SetKind} {os : List Outline} {o : Outline}

def spread (kind : SetKind) (o : Outline) : List Outline :=
  if o.kind = kind.kind then o.parts else [o]

def flat (kind : SetKind) (os : List Outline) : List Outline :=
  (os.flatMap (spread kind)).filter (· ≠ nil)

def gather (kind : SetKind) (os : List Outline) : List Outline :=
  (flat kind os).dedup.insertionSort fun a b => (a.order b).isLE

/-- The outline of a set with given members: without members it is nil, and with one member it is
that member. -/
def ofMembers (kind : SetKind) : List Outline → Outline
  | [] => nil
  | [only] => only
  | members => ⟨kind.kind, "", members⟩

/-- The outline of a set of types. A top among them absorbs a union. -/
def make (kind : SetKind) (os : List Outline) : Outline :=
  if kind = .union ∧ top ∈ os then top else ofMembers kind (gather kind os)

theorem mem_gather : o ∈ gather kind os ↔ o ∈ flat kind os := by
  rw [gather, (List.perm_insertionSort _ _).mem_iff, List.mem_dedup]

theorem ascending_gather (kind : SetKind) (os : List Outline) : Ascending (gather kind os) := by
  apply Ascending.of_sorted
  · exact pairwise_insertionSort_isLE order _
  · exact (List.perm_insertionSort _ _).nodup_iff.mpr (List.nodup_dedup _)

end Sets

end Outline

namespace Store

variable {s t : Store} {h : Handle} {kind : SetKind} {types members : List Handle}

section Fixed

def AllFixed (s : Store) : Prop :=
  ∀ h, s.contains h → s.isPromoted h = .ok false

theorem AllFixed.unpromoted (hfixed : s.AllFixed) (hs : s.WellFormed) (hh : s.contains h) :
    s.IsUnpromoted h := by
  intro x hx
  obtain ⟨y, hy, -⟩ := canonical_spec hs (hx.contains hs.linked hh)
  have hself := hfixed x (hx.contains hs.linked hh)
  rw [isPromoted, hy] at hself
  have hxy : y = x := by simpa [bind, Except.bind, pure, Except.pure] using hself
  rw [hy, hxy]

theorem allFixed_iff : s.AllFixed ↔ ∀ h ∈ s.handles, s.isPromoted h = .ok false := by
  simp only [AllFixed, mem_handles]

/-- If no tuple is promoted later, none was promoted before. -/
theorem Persists.allFixed (hst : s.Persists t) (hs : s.WellFormed) (hfixed : t.AllFixed) :
    s.AllFixed := by
  intro h hh
  obtain ⟨shape, hshape⟩ := hs.linked.exists_shape hh
  have hnot : ∀ array, shape ≠ .promoted array := by
    rintro array rfl
    have hbefore : s.isPromoted h = .ok true := hs.isPromoted_iff.mpr ⟨array, hshape⟩
    have hafter := hfixed h (hst.contains hh)
    rw [isPromoted, canonical_of_promoted hshape] at hbefore
    rw [isPromoted, canonical_of_promoted (hst.promoted hshape), hbefore] at hafter
    cases hafter
  rw [isPromoted, canonical_of_shape hshape hnot]
  simp [bind, Except.bind, pure, Except.pure]

end Fixed

section Sets

variable (hs : s.WellFormed)
include hs

/-- The top and nil are told by their outlines. -/
theorem WellFormed.outline_special_iff (hh : s.contains h) :
    (s.outline h = .top ↔ h = .top) ∧ (s.outline h = .nil ↔ h = .nil) := by
  obtain ⟨slot, hslot⟩ := exists_slot hh
  obtain ⟨htop, hnil⟩ := hs.linked.special_iff hslot
  rw [outline_step hs.linked hs.named hslot, ← htop, ← hnil]
  obtain ⟨node, traits⟩ := slot
  cases node <;> simp [Outline.top, Outline.nil, Node.kind, label, Node.name?, Node.refs]

/-- A type is replaced in a set as its outline is. -/
theorem WellFormed.map_spread (kind : SetKind) (hh : s.contains h) :
    (s.spread kind h).map s.outline = (s.outline h).spread kind := by
  obtain ⟨⟨node, traits⟩, hslot⟩ := exists_slot hh
  rw [Outline.spread, outline_step hs.linked hs.named hslot]
  by_cases hset : node.kind = kind.kind
  · obtain ⟨members, rfl⟩ := SetKind.exists_node_iff.mp hset
    rw [if_pos hset, spread_of_set hslot, SetKind.refs_node]
  · have hne : ∀ members, node ≠ kind.node members := fun members hnode =>
      hset (SetKind.exists_node_iff.mpr ⟨members, hnode⟩)
    rw [if_neg hset, spread_of_ne hslot hne, List.map_singleton,
      outline_step hs.linked hs.named hslot]

private theorem WellFormed.map_flat (htypes : ∀ p ∈ types, s.contains p) :
    (s.flat kind types).map s.outline = Outline.flat kind (types.map s.outline) := by
  have hspread : (types.map s.outline).flatMap (Outline.spread kind) =
      (types.flatMap (s.spread kind)).map s.outline := by
    rw [List.flatMap_map, List.map_flatMap]
    apply List.flatMap_congr
    intro p hp
    exact (hs.map_spread kind (htypes p hp)).symm
  rw [Outline.flat, hspread, List.filter_map, flat]
  congr 1
  apply List.filter_congr
  intro x hx
  by_cases hnil : x = .nil
  · have hself := (hs.outline_special_iff hs.linked.contains_nil).2.mpr rfl
    simp [hnil, hself]
  · have hflat : x ∈ s.flat kind types := List.mem_filter.mpr ⟨hx, by simpa using hnil⟩
    have hiff := (hs.outline_special_iff (hs.contains_of_flat htypes x hflat)).2
    simp [hiff]

variable (hd : s.Distinct) (hfixed : s.AllFixed)
include hd hfixed

/-- Lists of the same types show the same outlines. -/
theorem AllFixed.mem_outlines_iff {xs ys : List Handle} (hxs : ∀ x ∈ xs, s.contains x)
    (hys : ∀ y ∈ ys, s.contains y) (hsame : s.SameTypes xs ys) (o : Outline) :
    o ∈ xs.map s.outline ↔ o ∈ ys.map s.outline := by
  apply hs.mem_map_iff_of_same hxs hys hsame
  intro x hx y hy hxy
  exact hs.outline_eq_of_same hd (hxs x hx) (hys y hy) (hfixed.unpromoted hs (hxs x hx))
    (hfixed.unpromoted hs (hys y hy)) hxy

/-- The members that are kept show the outlines that are left. -/
theorem Arranged.map_outline (htypes : ∀ p ∈ types, s.contains p)
    (harranged : s.Arranged (s.flat kind types) members) :
    members.map s.outline = Outline.gather kind (types.map s.outline) := by
  have hflat : ∀ x ∈ s.flat kind types, s.contains x := hs.contains_of_flat htypes
  have hmembers : ∀ x ∈ members, s.contains x := fun x hx => hflat x (harranged.subset hx)
  have hascending : Outline.Ascending (members.map s.outline) := by
    apply ascending_of_sorted harranged.sorted
    refine harranged.unequal.imp_of_mem fun {x y} hx hy hxy => ?_
    exact hs.apart_of_unequal (hmembers x hx) (hmembers y hy) hxy
      (hfixed.unpromoted hs (hmembers x hx)) (hfixed.unpromoted hs (hmembers y hy))
  apply hascending.eq_of_mem_iff (Outline.ascending_gather kind _)
  intro o
  rw [Outline.mem_gather, ← hs.map_flat htypes]
  exact AllFixed.mem_outlines_iff hs hd hfixed hmembers hflat (harranged.sameTypes hs hflat) o

/-- What members stand for shows their outlines. -/
theorem WellFormed.outline_of_lookup (hmembers : ∀ x ∈ members, s.contains x)
    (hascending : Outline.Ascending (members.map s.outline))
    (hfound : s.lookup kind members = .ok (some h)) :
    s.outline h = Outline.ofMembers kind (members.map s.outline) := by
  match members, hfound with
  | [], hfound =>
    cases hfound
    exact (hs.outline_special_iff hs.linked.contains_nil).2.mpr rfl
  | [only], hfound =>
    cases hfound
    rfl
  | x :: y :: rest, hfound =>
    obtain ⟨⟨-, others, traits, hslot, hsame⟩, -⟩ := (hs.findSet_some_iff hmembers).mp hfound
    have hh := contains_of_slot hslot
    have heq : others.map s.outline = (x :: y :: rest).map s.outline := by
      apply (hd.ascending hs kind (hfixed.unpromoted hs hh) hslot).eq_of_mem_iff hascending
      exact AllFixed.mem_outlines_iff hs hd hfixed (hs.linked.contains_of_members hslot) hmembers
        hsame
    rw [outline_step hs.linked hs.named hslot, SetKind.refs_node, heq, SetKind.kind_node]
    cases kind <;> rfl

end Sets

end Store

end GradualTypes
