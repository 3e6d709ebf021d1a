import GradualTypes.Store.Membership
import GradualTypes.Store.Pattern
import GradualTypes.Store.Rendering
import GradualTypes.Proofs.Reachability

/-!
Walks over types end. Matching a query, testing membership and writing a type all go from types to
types that these refer to. No type is found below itself, so such a walk has an end, and the ranks
of the types bound how deep it goes.
-/

namespace GradualTypes

namespace Store

variable {s : Store} {a b h : Handle}

/-- A query below one layer of annotation is a type of the store, of no larger rank. -/
private theorem unannotated_spec (hs : s.WellFormed) (hh : s.contains h) :
    ∃ x, s.unannotated h = .ok x ∧ s.contains x ∧ s.rank x ≤ s.rank h := by
  obtain ⟨⟨node, traits⟩, hslot⟩ := exists_slot hh
  rw [unannotated, node_of_slot hslot]
  cases node with
  | annotated label inner =>
    have hshape : s.shape h = .ok (.annotated label inner) :=
      shape_eq_ok_iff.mpr ⟨_, hslot, rfl⟩
    obtain ⟨hcontains, hlt⟩ := hs.descends hshape List.mem_cons_self
    exact ⟨inner, rfl, hcontains, hlt.le⟩
  | _ => exact ⟨h, rfl, hh, le_rfl⟩

section Fits

/-- The query as a type of a shape looks at it: below one layer of annotation, and for a fixed tuple
as what it stands for, before the annotation is dropped and after. -/
def target (s : Store) (left : Shape) (query : Handle) : Except Error Handle :=
  match left with
  | .tuple _ => do s.canonical (← s.unannotated (← s.canonical query))
  | _ => s.unannotated query

theorem target_spec (hs : s.WellFormed) (left : Shape) (hh : s.contains h) :
    ∃ x, s.target left h = .ok x ∧ s.contains x ∧ s.rank x ≤ s.rank h := by
  cases left with
  | tuple params =>
    obtain ⟨first, hfirst, hcontains, hrank, -⟩ := canonical_spec hs hh
    obtain ⟨second, hsecond, hcontains', hrank'⟩ := unannotated_spec hs hcontains
    obtain ⟨query, hquery, hcontains'', hrank'', -⟩ := canonical_spec hs hcontains'
    refine ⟨query, ?_, hcontains'', by omega⟩
    exact bind_eq_ok_iff.mpr ⟨first, hfirst, bind_eq_ok_iff.mpr ⟨second, hsecond, hquery⟩⟩
  | _ => exact unannotated_spec hs hh

def FitsBy (s : Store) (fits : Handle → Handle → Prop) (a : Handle) (left : Shape) (b : Handle)
    (right : Shape) : Prop :=
  match left, right with
  | .tuple params, .tuple queries => List.Forall₂ fits params queries
  | .tuple _, _ => False
  | .generic base params, .generic base' queries => base = base' ∧ List.Forall₂ fits params queries
  | .union members, .union queries | .intersection members, .intersection queries =>
    List.Forall₂ fits members queries
  | .annotated _ inner, _ => fits inner b
  | _, _ => s.equal a b = .ok true

private theorem fitsShapes_decides (hs : s.WellFormed) {ask : Handle → Handle → Except Error Bool}
    {fits : Handle → Handle → Prop} {left right : Shape} (ha : s.contains a) (hb : s.contains b)
    (htuple : ∀ params, left ≠ .tuple params)
    (hleft : ∀ x ∈ left.parts, Decides (ask x b) (fits x b))
    (hboth : ∀ x ∈ left.parts, ∀ y ∈ right.parts, Decides (ask x y) (fits x y)) :
    Decides (s.fitsShapes ask a left b right) (s.FitsBy fits a left b right) := by
  have hequal : Decides (s.equal a b) (s.equal a b = .ok true) :=
    .self (equal_answered hs.linked hs.acyclic ha hb)
  cases left with
  | tuple params => exact absurd rfl (htuple params)
  | generic base params =>
    cases right with
    | generic base' queries =>
      refine Decides.guarded (.pointwise fun x hx y hy => ?_)
      exact hboth x (List.mem_cons_of_mem base hx) y (List.mem_cons_of_mem base' hy)
    | _ => exact hequal
  | union members =>
    cases right with
    | union queries => exact .pointwise hboth
    | _ => exact hequal
  | intersection members =>
    cases right with
    | intersection queries => exact .pointwise hboth
    | _ => exact hequal
  | annotated label inner => exact hleft inner List.mem_cons_self
  | _ => exact hequal

/-- What the match decides after one more step, unless the type is a promoted tuple. -/
theorem fitsWithin_decides_step (hs : s.WellFormed) {depth : Nat} {fits : Handle → Handle → Prop}
    {left right : Shape} {query : Handle} (hleft : s.shape a = .ok left)
    (hplain : ∀ array, left ≠ .promoted array) (htarget : s.target left b = .ok query)
    (hright : s.shape query = .ok right)
    (hpart : ∀ x ∈ left.parts, Decides (s.fitsWithin depth x query) (fits x query))
    (hparts : ∀ x ∈ left.parts, ∀ y ∈ right.parts,
      Decides (s.fitsWithin depth x y) (fits x y)) :
    Decides (s.fitsWithin (depth + 1) a b)
      (query = .wildcard ∨ s.FitsBy fits a left query right) := by
  refine .after hleft ?_
  have hothers : (∀ params, left ≠ .tuple params) → s.unannotated b = .ok query →
      Decides (do
        let query ← s.unannotated b
        if query = Handle.wildcard then return true
        else s.fitsShapes (fun x y => s.fitsWithin depth x y) a left query (← s.shape query))
        (query = .wildcard ∨ s.FitsBy fits a left query right) := by
    intro htuple hquery
    refine .after hquery (.unless (.after hright ?_))
    exact fitsShapes_decides hs (Linked.contains_of_shape hleft)
      (Linked.contains_of_shape hright) htuple hpart hparts
  cases left with
  | promoted array => exact absurd rfl (hplain array)
  | tuple params =>
    obtain ⟨first, hfirst, hrest⟩ := bind_eq_ok_iff.mp htarget
    obtain ⟨second, hsecond, hquery⟩ := bind_eq_ok_iff.mp hrest
    refine .after hfirst (.after hsecond (.after hquery (.unless (.after hright ?_))))
    cases right with
    | tuple queries => exact .pointwise hparts
    | _ => exact ⟨false, rfl, by simp [FitsBy]⟩
  | _ => exact hothers (by simp) htarget

/-- A promoted tuple fits what the array type it stands for fits. -/
theorem fitsWithin_promoted {array : Handle} (hshape : s.shape a = .ok (.promoted array))
    (depth : Nat) (b : Handle) :
    s.fitsWithin (depth + 1) a b = s.fitsWithin depth array b := by
  rw [fitsWithin, hshape]
  rfl

/-- A walk that matches a type and a query has an answer if it may go deeper than their ranks. -/
theorem fitsWithin_answered (hs : s.WellFormed) (depth : Nat) (ha : s.contains a)
    (hb : s.contains b) (hdepth : s.rank a + s.rank b < depth) :
    ∃ answer, s.fitsWithin depth a b = .ok answer := by
  induction depth generalizing a b with
  | zero => omega
  | succ depth ih =>
    obtain ⟨left, hleft⟩ := hs.linked.exists_shape ha
    by_cases hpromoted : ∃ array, left = .promoted array
    · obtain ⟨array, rfl⟩ := hpromoted
      obtain ⟨hcontains, hlt⟩ := hs.descends hleft List.mem_cons_self
      rw [fitsWithin_promoted hleft]
      exact ih hcontains hb (by omega)
    · obtain ⟨query, htarget, hcontains, hrank⟩ := target_spec hs left hb
      obtain ⟨right, hright⟩ := hs.linked.exists_shape hcontains
      refine (fitsWithin_decides_step hs hleft (not_exists.mp hpromoted) htarget hright
        (fun x hx => .self ?_) fun x hx y hy => .self ?_).answered
      · obtain ⟨hx, hlt⟩ := hs.descends hleft hx
        exact ih hx hcontains (by omega)
      · obtain ⟨hx, hltx⟩ := hs.descends hleft hx
        obtain ⟨hy, hlty⟩ := hs.descends hright hy
        exact ih hx hy (by omega)

/-- Any type of the store can be matched with any query. -/
theorem fits_answered (hs : s.WellFormed) (ha : s.contains a) (hb : s.contains b) :
    ∃ answer, s.fits a b = .ok answer := by
  have hranka := hs.linked.rank_le_size a
  have hrankb := hs.linked.rank_le_size b
  exact fitsWithin_answered hs _ ha hb (by omega)

end Fits

section Member

private theorem isInstanceOfBase_answered (hh : s.contains h) (v : Value) :
    ∃ answer, s.isInstanceOfBase h v = .ok answer := by
  obtain ⟨slot, hslot⟩ := exists_slot hh
  refine answered_bind (node_of_slot hslot) ?_
  cases slot.node.name? with
  | none => exact ⟨_, rfl⟩
  | some name => exact ⟨_, rfl⟩

def BelongsByParams (s : Store) (belongs : Handle → Value → Prop) (v : Value) (base : Handle)
    (params : List Handle) : Prop :=
  match v, params with
  | .nil, _ => True
  | .array items, [element] =>
    if base = .arrayClass then ∀ item ∈ items, belongs element item
    else s.isInstanceOfBase base v = .ok true
  | .hash pairs, [key, value] =>
    if base = .hashClass then ∀ pair ∈ pairs, belongs key pair.1 ∧ belongs value pair.2
    else s.isInstanceOfBase base v = .ok true
  | _, _ => s.isInstanceOfBase base v = .ok true

def BelongsBy (s : Store) (belongs : Handle → Value → Prop) (v : Value) : Shape → Prop
  | .top | .wildcard => True
  | .nil => v.isNil = true
  | .nominal name => v.isNil = true ∨ s.isInstance v name = true
  | .symbol name => v = .symbol name
  | .var _ => False
  | .generic base params => s.BelongsByParams belongs v base params
  | .promoted array => belongs array v
  | .tuple params => ∃ items, v.items? = some items ∧ List.Forall₂ belongs params items
  | .union members => ∃ x ∈ members, belongs x v
  | .intersection members => ∀ x ∈ members, belongs x v
  | .annotated _ inner => belongs inner v

/-- What the test decides after one more step. -/
theorem memberWithin_decides_step (hs : s.WellFormed) {depth : Nat}
    {belongs : Handle → Value → Prop} {shape : Shape} (hshape : s.shape h = .ok shape)
    (hpart : ∀ x ∈ shape.parts, ∀ v, Decides (s.memberWithin depth x v) (belongs x v))
    (v : Value) : Decides (s.memberWithin (depth + 1) h v) (s.BelongsBy belongs v shape) := by
  refine .after hshape ?_
  cases shape with
  | top => exact ⟨true, rfl, by simp [BelongsBy]⟩
  | wildcard => exact ⟨true, rfl, by simp [BelongsBy]⟩
  | nil => exact ⟨_, rfl, Iff.rfl⟩
  | nominal name => exact ⟨_, rfl, by simp [BelongsBy]⟩
  | symbol name =>
    cases v with
    | symbol other => exact ⟨_, rfl, by simp [BelongsBy]⟩
    | _ => exact ⟨false, rfl, by simp [BelongsBy]⟩
  | var name => exact ⟨false, rfl, by simp [BelongsBy]⟩
  | generic base params =>
    have hbase : Decides (s.isInstanceOfBase base v) (s.isInstanceOfBase base v = .ok true) :=
      .self (isInstanceOfBase_answered
        (hs.linked.contains_of_refersTo ⟨_, hshape, List.mem_cons_self⟩) v)
    change Decides _ (s.BelongsByParams belongs v base params)
    dsimp only
    split
    · exact ⟨true, rfl, by simp [BelongsByParams]⟩
    · rw [BelongsByParams]
      split
      · exact .allM fun item _ => hpart _ (by simp [Shape.parts]) item
      · exact hbase
    · rw [BelongsByParams]
      split
      · exact .allM fun pair _ => (hpart _ (by simp [Shape.parts]) pair.1).and_then
          (hpart _ (by simp [Shape.parts]) pair.2)
      · exact hbase
    · rw [BelongsByParams]
      · exact hbase
      all_goals assumption
  | promoted array => exact hpart array List.mem_cons_self v
  | tuple params =>
    cases v with
    | array items =>
      refine (Decides.pointwise fun x (hx : x ∈ params) item _ => hpart x hx item).congr ?_
      simp [BelongsBy, Value.items?]
    | _ => exact ⟨false, rfl, by simp [BelongsBy, Value.items?]⟩
  | union members => exact .anyM fun x hx => hpart x hx v
  | intersection members => exact .allM fun x hx => hpart x hx v
  | annotated label inner => exact hpart inner List.mem_cons_self v

/-- A walk that tests membership has an answer if it may go deeper than the rank of the type. -/
theorem memberWithin_answered (hs : s.WellFormed) (depth : Nat) (hh : s.contains h)
    (hdepth : s.rank h < depth) (v : Value) : ∃ answer, s.memberWithin depth h v = .ok answer := by
  induction depth generalizing h v with
  | zero => omega
  | succ depth ih =>
    obtain ⟨shape, hshape⟩ := hs.linked.exists_shape hh
    refine (memberWithin_decides_step hs hshape (fun x hx w => .self ?_) v).answered
    obtain ⟨hcontains, hlt⟩ := hs.descends hshape hx
    exact ih hcontains (by omega) w

/-- Membership in a type of the store can be tested for any value. -/
theorem member_answered (hs : s.WellFormed) (hh : s.contains h) (v : Value) :
    ∃ answer, s.member h v = .ok answer := by
  have hrank := hs.linked.rank_le_size h
  exact memberWithin_answered hs _ hh (by omega) v

end Member

section Render

theorem text_answered {t : NameTable} {name : Name} (h : ∃ text, t.text? name = some text) :
    ∃ text, t.text name = .ok text := by
  obtain ⟨text, htext⟩ := h
  exact ⟨text, by rw [NameTable.text, htext]⟩

/-- A walk that writes a type has a result if it may go deeper than the rank of the type. -/
private theorem renderWithin_answered (hs : s.WellFormed) (depth : Nat) (hh : s.contains h)
    (hdepth : s.rank h < depth) : ∃ text, s.renderWithin depth h = .ok text := by
  induction depth generalizing h with
  | zero => omega
  | succ depth ih =>
    obtain ⟨shape, hshape⟩ := hs.linked.exists_shape hh
    have hpart : ∀ x ∈ shape.parts, ∃ text, s.renderWithin depth x = .ok text := by
      intro x hx
      obtain ⟨hcontains, hlt⟩ := hs.descends hshape hx
      exact ih hcontains (by omega)
    have hname : ∀ {node name}, shape.node? = some node → node.name? = some name →
        ∃ text, s.names.text name = .ok text := by
      intro node name hnode hname
      obtain ⟨traits, hslot⟩ := slot_of_shape hshape hnode
      exact text_answered (hs.named hslot hname)
    have hmembers : ∀ {members}, members ⊆ shape.parts →
        ∃ texts, members.mapM (s.renderWithin depth) = .ok texts := fun hsub =>
      Lifting.mapM_answered fun x hx => hpart x (hsub hx)
    refine answered_bind hshape ?_
    cases shape with
    | nominal name => exact hname rfl rfl
    | symbol name => exact hname rfl rfl
    | var name =>
      obtain ⟨text, htext⟩ := hname rfl rfl
      exact answered_bind htext ⟨_, rfl⟩
    | generic base params =>
      obtain ⟨head, hhead⟩ := hpart base List.mem_cons_self
      obtain ⟨texts, htexts⟩ := hmembers (List.subset_cons_self base params)
      exact answered_bind hhead (answered_bind htexts ⟨_, rfl⟩)
    | promoted array => exact hpart array List.mem_cons_self
    | tuple params =>
      obtain ⟨texts, htexts⟩ := hmembers (List.Subset.refl params)
      exact answered_bind htexts ⟨_, rfl⟩
    | union members =>
      obtain ⟨texts, htexts⟩ := hmembers (List.Subset.refl members)
      exact answered_bind htexts ⟨_, rfl⟩
    | intersection members =>
      obtain ⟨texts, htexts⟩ := hmembers (List.Subset.refl members)
      exact answered_bind htexts ⟨_, rfl⟩
    | annotated label inner =>
      obtain ⟨text, htext⟩ := hpart inner List.mem_cons_self
      obtain ⟨name, hname⟩ := hname rfl rfl
      exact answered_bind htext (answered_bind hname ⟨_, rfl⟩)
    | _ => exact ⟨_, rfl⟩

/-- Any type of the store can be written. -/
theorem render_answered (hs : s.WellFormed) (hh : s.contains h) :
    ∃ text, s.render h = .ok text := by
  have hrank := hs.linked.rank_le_size h
  exact renderWithin_answered hs _ hh (by omega)

end Render

end Store

/-- In a reachable store no type is found below itself, and every walk from types of the store ends:
comparing and matching two types, testing a value, writing a type and substituting in one. -/
theorem Reachable.acyclic_walks {s : Store} (hs : Reachable s) :
    (∀ h, ¬ Relation.TransGen s.RefersTo h h) ∧
      ∀ h, s.contains h →
        (∀ other, s.contains other →
          (∃ answer, s.equal h other = .ok answer) ∧ ∃ answer, s.fits h other = .ok answer) ∧
        (∀ v, ∃ answer, s.member h v = .ok answer) ∧
        (∃ text, s.render h = .ok text) ∧
        ∀ subst : Substitution, (∀ x ∈ subst.types, s.contains x) →
          ∃ result after, Store.instantiate h subst s = .ok result after := by
  have hwf := hs.wellFormed
  refine ⟨hwf.acyclic, fun h hh => ⟨fun other hother => ⟨?_, ?_⟩, ?_, ?_, ?_⟩⟩
  · exact Store.equal_answered hwf.linked hwf.acyclic hh hother
  · exact Store.fits_answered hwf hh hother
  · exact Store.member_answered hwf hh
  · exact Store.render_answered hwf hh
  · intro subst hsubst
    obtain ⟨result, after, hrun, -⟩ := Store.instantiate_returns hwf hh hsubst
    exact ⟨result, after, hrun⟩

/-- The tuples of `pairStore` that bound each other, after both were promoted. -/
theorem pairStore_walks_after_promotion :
    let s := (Operation.promote ⟨7⟩).apply pairStore
    Reachable s ∧ s.contains ⟨7⟩ ∧ s.contains ⟨8⟩ ∧ s.canonical ⟨7⟩ = .ok ⟨10⟩ ∧
      s.canonical ⟨8⟩ = .ok ⟨10⟩ ∧ (¬ Relation.TransGen s.RefersTo ⟨7⟩ ⟨7⟩) ∧
      (∃ answer, s.equal ⟨7⟩ ⟨8⟩ = .ok answer) ∧ ∃ text, s.render ⟨7⟩ = .ok text := by
  intro s
  have hs : Reachable s := .step (.promote ⟨7⟩) reachable_pairStore trivial
  have hfirst : s.contains ⟨7⟩ := by decide +kernel
  have hsecond : s.contains ⟨8⟩ := by decide +kernel
  obtain ⟨hacyclic, hwalks⟩ := Reachable.acyclic_walks hs
  obtain ⟨hpairs, -, hrender, -⟩ := hwalks ⟨7⟩ hfirst
  refine ⟨hs, hfirst, hsecond, ?_, ?_, hacyclic ⟨7⟩, (hpairs ⟨8⟩ hsecond).1, hrender⟩
  · decide +kernel
  · decide +kernel

end GradualTypes
