import GradualTypes.Proofs.Reachability

/-!
The search for a subtype relation is bounded only for the sake of its definition. In a reachable
store it never meets its bound, whatever bounds its tuples have recorded of one another, and a
larger bound changes neither its answer nor the store that it leaves.
-/

namespace GradualTypes

/-- An operation that does whatever another does, as long as that one does not fail. -/
def Refines {α : Type} (op op' : StoreM α) : Prop :=
  ∀ ⦃s answer t⦄, op s = .ok answer t → op' s = .ok answer t

namespace Refines

variable {α β : Type}

theorem refl (op : StoreM α) : Refines op op :=
  fun _ _ _ hrun => hrun

theorem bind {op op' : StoreM α} {f f' : α → StoreM β} (h : Refines op op')
    (hf : ∀ answer, Refines (f answer) (f' answer)) : Refines (op >>= f) (op' >>= f') := by
  intro s answer u hrun
  obtain ⟨middle, t, hop, hrest⟩ := bind_run_eq_ok_iff.mp hrun
  exact bind_run_eq_ok_iff.mpr ⟨middle, t, h hop, hf middle hrest⟩

theorem ite {op op' next next' : StoreM α} {p : Prop} [Decidable p] (h : Refines op op')
    (hnext : Refines next next') :
    Refines (if p then op else next) (if p then op' else next') := by
  split
  · exact h
  · exact hnext

theorem allM {f f' : α → StoreM Bool} (h : ∀ x, Refines (f x) (f' x)) (xs : List α) :
    Refines (xs.allM f) (xs.allM f') := by
  induction xs with
  | nil => exact refl _
  | cons x xs ih =>
    rw [List.allM_cons, List.allM_cons]
    exact (h x).bind fun answer => ite ih (refl _)

theorem anyM {f f' : α → StoreM Bool} (h : ∀ x, Refines (f x) (f' x)) (xs : List α) :
    Refines (xs.anyM f) (xs.anyM f') := by
  induction xs with
  | nil => exact refl _
  | cons x xs ih =>
    rw [List.anyM_cons, List.anyM_cons]
    exact (h x).bind fun answer => ite (refl _) ih

theorem mapM {f f' : α → StoreM β} (h : ∀ x, Refines (f x) (f' x)) (xs : List α) :
    Refines (xs.mapM f) (xs.mapM f') := by
  induction xs with
  | nil => exact refl _
  | cons x xs ih =>
    rw [List.mapM_cons, List.mapM_cons]
    exact (h x).bind fun _ => ih.bind fun _ => refl _

theorem pointwise {f f' : α → β → StoreM Bool} (h : ∀ x y, Refines (f x y) (f' x y))
    (xs : List α) (ys : List β) :
    Refines (Lifting.pointwise f xs ys) (Lifting.pointwise f' xs ys) :=
  ite (allM (fun pair => h pair.1 pair.2) (xs.zip ys)) (refl _)

end Refines

namespace Store

section Refinement

variable {below below' : Handle → Handle → StoreM Bool}
  (hbelow : ∀ x y, Refines (below x y) (below' x y))
include hbelow

private theorem boundsHold_refines (t : Handle) (lower upper : List Handle) :
    Refines (boundsHold below t lower upper) (boundsHold below' t lower upper) :=
  (Refines.allM (fun x => hbelow x t) lower).bind fun _ =>
    .ite (.allM (fun x => hbelow t x) upper) (.refl _)

private theorem promoteBy_refines (t : Handle) : Refines (promoteBy below t)
    (promoteBy below' t) := by
  refine (Refines.refl _).bind fun shape => ?_
  cases shape with
  | tuple params =>
    refine (Refines.refl _).bind fun s => (Refines.refl _).bind fun s' =>
      (Refines.refl _).bind fun element => (Refines.refl _).bind fun array =>
        (Refines.refl _).bind fun _ => (Refines.refl _).bind fun _ => ?_
    exact (boundsHold_refines hbelow t _ _).bind fun _ => .ite (.refl _) (.refl _)
  | _ => exact .refl _

private theorem belowTuple_refines (sub : Handle) (params : List Handle) (sup : Handle) :
    Refines (belowTuple below sub params sup) (belowTuple below' sub params sup) := by
  refine .ite (.refl _) ((Refines.refl _).bind fun node => ?_)
  have harray : Refines
      (if node.isArray then do
        let consistent ← promoteBy below sub
        let holds ← below sub sup
        return holds && consistent
      else return false)
      (if node.isArray then do
        let consistent ← promoteBy below' sub
        let holds ← below' sub sup
        return holds && consistent
      else return false) :=
    .ite ((promoteBy_refines hbelow sub).bind fun _ => (hbelow sub sup).bind fun _ => .refl _)
      (.refl _)
  cases node with
  | tuple others digest entry =>
    exact (Refines.pointwise hbelow params others).bind fun _ => .ite (.refl _) (.refl _)
  | _ => exact harray

private theorem belowDirect_refines (left right : Shape) :
    Refines (belowDirect below left right) (belowDirect below' left right) := by
  unfold belowDirect
  split
  · refine .ite (.pointwise (fun x y => ?_) _ _) (.refl _)
    exact (hbelow x y).bind fun _ => .ite (hbelow y x) (.refl _)
  · exact .refl _
  · exact .refl _

private theorem belowShapes_refines (sub : Handle) (left : Shape) (sup : Handle) (right : Shape) :
    Refines (belowShapes below sub left sup right) (belowShapes below' sub left sup right) := by
  rw [belowShapes_eq, belowShapes_eq]
  cases left.layer.rule right.layer with
  | allLeft => exact .allM (fun x => hbelow x sup) _
  | allRight => exact .allM (fun y => hbelow sub y) _
  | anyRight => exact .anyM (fun y => hbelow sub y) _
  | anyLeft => exact .anyM (fun x => hbelow x sup) _
  | direct => exact belowDirect_refines hbelow left right

theorem belowStep_refines (a b : Handle) :
    Refines (belowStep below a b) (belowStep below' a b) := by
  refine (Refines.refl _).bind fun left => ?_
  have hplain : Refines
      (do
        let sup ← ask (·.canonical b)
        if a = sup ∨ sup = .top ∨ a = .nil then return true
        else belowShapes below a left sup (← ask (·.shape sup)))
      (do
        let sup ← ask (·.canonical b)
        if a = sup ∨ sup = .top ∨ a = .nil then return true
        else belowShapes below' a left sup (← ask (·.shape sup))) :=
    (Refines.refl _).bind fun sup => .ite (.refl _)
      ((Refines.refl _).bind fun right => belowShapes_refines hbelow a left sup right)
  cases left with
  | promoted array => exact hbelow array b
  | tuple params =>
    exact (Refines.refl _).bind fun sup => belowTuple_refines hbelow a params sup
  | _ => exact hplain

end Refinement

/-- A search that may nest deeper does the same if the first did not fail. -/
theorem subtypeWithin_refines {m n : Nat} (hmn : m ≤ n) (a b : Handle) :
    Refines (subtypeWithin m a b) (subtypeWithin n a b) := by
  induction m generalizing n a b with
  | zero =>
    intro s answer t hrun
    cases hrun
  | succ m ih =>
    obtain ⟨n, rfl⟩ := Nat.exists_eq_succ_of_ne_zero (Nat.ne_zero_of_lt hmn)
    exact belowStep_refines (fun x y => ih (Nat.le_of_succ_le_succ hmn) x y) a b

/-- A search that returns is the search at its own depth, however deep it was let nest. -/
theorem subtype_eq_of_within {s t : Store} {a b : Handle} {depth : Nat} {answer : Bool}
    (hs : s.WellFormed) (ha : s.contains a) (hb : s.contains b)
    (hrun : subtypeWithin depth a b s = .ok answer t) : subtype a b s = .ok answer t := by
  obtain ⟨answer', t', hrun', -⟩ := subtype_returns hs ha hb
  rw [subtype_run] at hrun' ⊢
  have hdeep := subtypeWithin_refines (le_max_left depth s.searchDepth) a b hrun
  rw [subtypeWithin_refines (le_max_right depth s.searchDepth) a b hrun'] at hdeep
  rw [hrun', hdeep]

theorem promote_eq_of_within {s t : Store} {a : Handle} {depth : Nat} {answer : Bool}
    (hs : s.WellFormed) (ha : s.contains a)
    (hrun : promoteBy (subtypeWithin depth) a s = .ok answer t) : promote a s = .ok answer t := by
  obtain ⟨answer', t', hrun', -⟩ := promote_returns hs ha
  rw [promote_run] at hrun' ⊢
  have hdeep := promoteBy_refines (subtypeWithin_refines (le_max_left depth s.searchDepth)) a hrun
  rw [promoteBy_refines (subtypeWithin_refines (le_max_right depth s.searchDepth)) a hrun'] at hdeep
  rw [hrun', hdeep]

end Store

open Store in
/-- In a reachable store subtyping and promotion come to an end for all types of the store, whatever
bounds are recorded, and so does the comparison of a fixed tuple with what a type stands for. The
search never meets the bound on its depth, and a larger bound changes nothing. -/
theorem Reachable.subtype_ends {s : Store} {a b : Handle} (hs : Reachable s) (ha : s.contains a)
    (hb : s.contains b) :
    (∃ answer t, subtype a b s = .ok answer t ∧
      ∀ depth, s.searchDepth ≤ depth → subtypeWithin depth a b s = .ok answer t) ∧
    (∃ answer t, promote a s = .ok answer t ∧
      ∀ depth, s.searchDepth ≤ depth → promoteBy (subtypeWithin depth) a s = .ok answer t) ∧
    ∀ params sup, s.shape a = .ok (.tuple params) → s.canonical b = .ok sup →
      ∃ answer t, ∀ depth, s.searchDepth ≤ depth →
        belowTuple (subtypeWithin depth) a params sup s = .ok answer t := by
  have hwf := hs.wellFormed
  refine ⟨?_, ?_, fun params sup hshape hsup => ?_⟩
  · obtain ⟨answer, t, hrun, -⟩ := subtype_returns hwf ha hb
    rw [subtype_run] at hrun
    exact ⟨answer, t, (subtype_run s a b).trans hrun, fun depth hdepth =>
      subtypeWithin_refines hdepth a b hrun⟩
  · obtain ⟨answer, t, hrun, -⟩ := promote_returns hwf ha
    rw [promote_run] at hrun
    exact ⟨answer, t, (promote_run s a).trans hrun, fun depth hdepth =>
      promoteBy_refines (subtypeWithin_refines hdepth) a hrun⟩
  · obtain ⟨sup', hsup', hcontains, hrank, hproper⟩ := canonical_spec hwf hb
    rw [hsup] at hsup'
    cases hsup'
    have hends := (subtypeWithin_ends (s.size + 2 * s.fixedCount) s.searchDepth).mono
      (effort_lt_searchDepth hwf a b).le
    obtain ⟨answer, t, hrun, -⟩ :=
      belowTuple_returns hends hwf le_rfl hshape hcontains hrank hproper
    exact ⟨answer, t, fun depth hdepth =>
      belowTuple_refines (subtypeWithin_refines hdepth) a params sup hrun⟩

/-- The tuples of `pairStore` bound each other and one of them bounds itself. Asking for one of them
below the array type of their elements promotes both, and ends. -/
theorem pairStore_subtype_ends :
    Reachable pairStore ∧ pairStore.contains ⟨7⟩ ∧ pairStore.contains ⟨10⟩ ∧
      pairStore.upperBounds ⟨7⟩ = [⟨8⟩, ⟨7⟩] ∧ pairStore.lowerBounds ⟨7⟩ = [⟨8⟩, ⟨7⟩] ∧
      pairStore.upperBounds ⟨8⟩ = [⟨7⟩] ∧
      (∃ answer t, Store.subtype ⟨7⟩ ⟨10⟩ pairStore = .ok answer t) ∧
      ∃ answer t, Store.promote ⟨7⟩ pairStore = .ok answer t := by
  have htuple : pairStore.contains ⟨7⟩ := by decide +kernel
  have harray : pairStore.contains ⟨10⟩ := by decide +kernel
  obtain ⟨⟨answer, t, hsubtype, -⟩, ⟨answer', t', hpromote, -⟩, -⟩ :=
    Reachable.subtype_ends reachable_pairStore htuple harray
  refine ⟨reachable_pairStore, htuple, harray, ?_, ?_, ?_, ⟨answer, t, hsubtype⟩,
    ⟨answer', t', hpromote⟩⟩
  · decide +kernel
  · decide +kernel
  · decide +kernel

end GradualTypes
