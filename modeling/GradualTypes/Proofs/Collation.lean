import GradualTypes.Proofs.Reachability

/-!
The laws of the order of types. In a reachable store the order is a total preorder, promoted tuples
included. Types at one place need not be the same handle, since a tuple is always new, but their
names and components agree position by position, so they have one digest.
-/

namespace GradualTypes

private theorem Node.isSome_name? (node : Node) :
    node.name?.isSome = decide (node.kind ∈ [.nominal, .symbol, .var, .annotated]) := by
  cases node <;> rfl

/-- Nodes of one kind with the same name have one digest if what they refer to has one. Tuples keep
a digest of their own. -/
private theorem digestNode_eq {hash : WordHash} {digest : Handle → Except Error UInt64}
    {left right : Node} (hkind : left.kind = right.kind) (hname : left.name? = right.name?)
    (hrefs : List.Forall₂ (fun x y => digest x = digest y) left.refs right.refs)
    (htuple : left.kind ≠ .tuple) :
    digestNode hash digest left = digestNode hash digest right := by
  have hlists := Lifting.mapM_eq_of_forall₂ hrefs
  cases left <;> cases right <;> cases hkind
  case nominal.nominal =>
    cases hname
    rfl
  case symbol.symbol =>
    cases hname
    rfl
  case var.var =>
    cases hname
    rfl
  case generic.generic base params base' params' =>
    cases hrefs with
    | cons hbase hparams =>
      simp only [digestNode, hbase, Lifting.mapM_eq_of_forall₂ hparams]
  case tuple.tuple => exact absurd rfl htuple
  case union.union members members' =>
    have hmembers : members.mapM digest = members'.mapM digest := hlists
    simp only [digestNode, hmembers]
  case intersection.intersection members members' =>
    have hmembers : members.mapM digest = members'.mapM digest := hlists
    simp only [digestNode, hmembers]
  case annotated.annotated label inner label' inner' =>
    cases hname
    cases hrefs with
    | cons hinner _ => simp only [digestNode, hinner]
  all_goals rfl

namespace Store

variable {s : Store} {a b : Handle} {left right : Slot}

section Places

variable (hs : s.WellFormed) (hleft : s.slot? a = some left) (hright : s.slot? b = some right)
include hs hleft hright

/-- Types of one kind with the same label have the same name, as a text has one name only. -/
theorem WellFormed.name?_eq (hkind : left.node.kind = right.node.kind)
    (hlabel : s.label left.node = s.label right.node) : left.node.name? = right.node.name? := by
  have hsome : left.node.name?.isSome = right.node.name?.isSome := by
    rw [Node.isSome_name?, Node.isSome_name?, hkind]
  cases hx : left.node.name? with
  | none =>
    rw [hx] at hsome
    exact (Option.isNone_iff_eq_none.mp (by simpa using hsome.symm)).symm
  | some x =>
    rw [hx] at hsome
    obtain ⟨y, hy⟩ := Option.isSome_iff_exists.mp hsome.symm
    obtain ⟨text, htext⟩ := hs.named hleft hx
    obtain ⟨text', htext'⟩ := hs.named hright hy
    have hsame : text = text' := by
      simpa [label, hx, hy, htext, htext'] using hlabel
    rw [← hsame] at htext'
    rw [hy, hs.orderly.eq_of_text? htext htext']

/-- Types at one place have the same kind and name, and what they refer to is placed alike. -/
theorem WellFormed.of_place_eq (hplace : s.place a b = .eq) :
    left.node.kind = right.node.kind ∧ left.node.name? = right.node.name? ∧
      List.Forall₂ (fun x y => s.place x y = .eq) left.node.refs right.node.refs := by
  rw [place_step hs.linked hs.named hleft hright, placeNodes] at hplace
  simp only [compareLex, Ordering.then_eq_eq] at hplace
  obtain ⟨hrank, hrefs, hlabel⟩ := hplace
  have hkind : left.node.kind = right.node.kind :=
    Kind.rank_injective _ _ (Nat.compare_eq_eq.mp hrank)
  have hlabel : s.label left.node = s.label right.node := Std.LawfulEqCmp.eq_of_compare hlabel
  exact ⟨hkind, hs.name?_eq hleft hright hkind hlabel, forall₂_of_compareLex_eq hrefs⟩

end Places

/-- Types at one place have one digest. The induction goes down the handles; a tuple keeps the
digest of its elements, so its promotion makes no difference. -/
theorem WellFormed.digest_eq_of_place (hs : s.WellFormed) (ha : s.contains a) (hb : s.contains b)
    (hplace : s.place a b = .eq) : s.digest a = s.digest b := by
  induction hn : a.index using Nat.strong_induction_on generalizing a b with
  | _ n ih =>
    obtain ⟨⟨left, traits⟩, hleft⟩ := exists_slot ha
    obtain ⟨⟨right, traits'⟩, hright⟩ := exists_slot hb
    obtain ⟨hkind, hname, hplaces⟩ := hs.of_place_eq hleft hright hplace
    have hrefs : List.Forall₂ (fun x y => s.digest x = s.digest y) left.refs right.refs := by
      refine forall₂_imp_of_mem hplaces fun x hx y hy hxy => ?_
      have hlt := hs.linked.refs_lt hleft x hx
      exact ih x.index (by omega) (hs.linked.contains_of_refs hleft hx)
        (hs.linked.contains_of_refs hright hy) hxy rfl
    rw [digest_step hs.linked hleft, digest_step hs.linked hright]
    by_cases htuple : left.kind = .tuple
    · cases left <;> cases htuple
      cases right <;> cases hkind
      obtain ⟨digests, hdigests, rfl⟩ := hs.sealed hleft
      obtain ⟨digests', hdigests', rfl⟩ := hs.sealed hright
      have hsame : Except.ok digests = Except.ok digests' :=
        (hdigests.symm.trans (Lifting.mapM_eq_of_forall₂ hrefs)).trans hdigests'
      cases hsame
      rfl
    · exact digestNode_eq hkind hname hrefs htuple

end Store

/-- In a reachable store the order is a total preorder on the types: every type is placed with
itself, two types are placed the same way round whichever is asked first, and a type that comes no
later than another comes no later than what the other does not come after. -/
theorem Reachable.order_preorder {s : Store} {a b c : Handle} (hs : Reachable s)
    (ha : s.contains a) (hb : s.contains b) (hc : s.contains c) :
    s.order a a = .ok .eq ∧
      (∃ found, s.order a b = .ok found ∧ s.order b a = .ok found.swap) ∧
      ∃ first second both, s.order a b = .ok first ∧ s.order b c = .ok second ∧
        s.order a c = .ok both ∧ (first.isLE → second.isLE → both.isLE) := by
  have hwf := hs.wellFormed
  have hplace : ∀ {x y}, s.contains x → s.contains y → s.order x y = .ok (s.place x y) :=
    Store.order_eq hwf.linked hwf.named
  have hself : s.place a a = .eq := Std.ReflCmp.compare_self
  have hswap : s.place b a = (s.place a b).swap := Std.OrientedCmp.eq_swap
  refine ⟨?_, ⟨s.place a b, hplace ha hb, ?_⟩, ?_⟩
  · rw [hplace ha ha, hself]
  · rw [hplace hb ha, hswap]
  · exact ⟨_, _, _, hplace ha hb, hplace hb hc, hplace ha hc, Std.TransCmp.isLE_trans⟩

/-- An array type, then two tuples at one place, of which the first stands for that array type. -/
theorem pairStore_array_before_promoted :
    let s := (Operation.promote ⟨7⟩).apply pairStore
    Reachable s ∧ s.contains ⟨10⟩ ∧ s.contains ⟨7⟩ ∧ s.contains ⟨8⟩ ∧
      s.order ⟨10⟩ ⟨7⟩ = .ok .lt ∧ s.order ⟨7⟩ ⟨10⟩ = .ok .gt ∧ s.order ⟨7⟩ ⟨8⟩ = .ok .eq ∧
      ∃ both, s.order ⟨10⟩ ⟨8⟩ = .ok both ∧ both.isLE := by
  intro s
  have hs : Reachable s := .step (.promote ⟨7⟩) reachable_pairStore trivial
  have harray : s.contains ⟨10⟩ := by decide +kernel
  have hfirst : s.contains ⟨7⟩ := by decide +kernel
  have hsecond : s.contains ⟨8⟩ := by decide +kernel
  have hbefore : s.order ⟨10⟩ ⟨7⟩ = .ok .lt := by decide +kernel
  have halike : s.order ⟨7⟩ ⟨8⟩ = .ok .eq := by decide +kernel
  obtain ⟨-, ⟨found, hfound, hback⟩, first, second, both, hf, hsnd, hboth, htrans⟩ :=
    Reachable.order_preorder hs harray hfirst hsecond
  rw [hbefore] at hfound hf
  rw [halike] at hsnd
  cases hfound
  cases hf
  cases hsnd
  exact ⟨hs, harray, hfirst, hsecond, hbefore, hback, halike, both, hboth, htrans rfl rfl⟩

end GradualTypes
