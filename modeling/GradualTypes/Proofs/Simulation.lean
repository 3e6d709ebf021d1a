import GradualTypes.Proofs.Termination

/-!
Searches side by side. Two stores are alike if they differ only in the bounds that their tuples have
recorded and in what was reported. All questions that a search asks have the same answers in both,
so the same search, run from two such stores, takes the same way through both until it promotes a
tuple: only then does it read the bounds. This module follows two runs step by step. What a
promotion does to them is left open, and a run may get lost on the way, which is for the use of
those who know that it does not.
-/

namespace GradualTypes

namespace Store

variable {s s' t t' u : Store} {a b h : Handle}

section Alike

/-- The stores differ only in the recorded bounds and in the journal. -/
def Alike (s s' : Store) : Prop :=
  ∃ states journal, s' = { s with states, journal } ∧
    states.map TupleState.array? = s.states.map TupleState.array?

namespace Alike

theorem refl (s : Store) : s.Alike s :=
  ⟨s.states, s.journal, rfl, rfl⟩

theorem symm (h : s.Alike s') : s'.Alike s := by
  obtain ⟨states, journal, rfl, hstates⟩ := h
  exact ⟨s.states, s.journal, rfl, hstates.symm⟩

theorem trans (hst : s.Alike t) (htu : t.Alike u) : s.Alike u := by
  obtain ⟨states, journal, rfl, hstates⟩ := hst
  obtain ⟨states', journal', rfl, hstates'⟩ := htu
  exact ⟨states', journal', rfl, hstates'.trans hstates⟩

theorem slot?_eq (h : s.Alike s') (x : Handle) : s'.slot? x = s.slot? x := by
  obtain ⟨states, journal, rfl, -⟩ := h
  rfl

theorem node_eq (h : s.Alike s') (x : Handle) : s'.node x = s.node x := by
  obtain ⟨states, journal, rfl, -⟩ := h
  rfl

theorem shape_eq (h : s.Alike s') (x : Handle) : s'.shape x = s.shape x := by
  obtain ⟨states, journal, rfl, hstates⟩ := h
  rw [shape, shape]
  congr 1
  apply Option.bind_congr
  intro slot _
  apply Node.shape?_congr
  intro entry _
  rw [← Array.getElem?_map, ← Array.getElem?_map, hstates]

private theorem canonical_eq (h : s.Alike s') (x : Handle) : s'.canonical x = s.canonical x := by
  rw [canonical, canonical, h.shape_eq]

theorem isPromoted_eq (h : s.Alike s') (x : Handle) : s'.isPromoted x = s.isPromoted x := by
  rw [isPromoted, isPromoted, h.canonical_eq]

private theorem belowClass_eq (h : s.Alike s') (left : Shape) (ancestor : Name) :
    s'.belowClass left ancestor = s.belowClass left ancestor := by
  obtain ⟨states, journal, rfl, -⟩ := h
  rfl

theorem fixedCount_eq (h : s.Alike s') : s'.fixedCount = s.fixedCount := by
  obtain ⟨states, journal, rfl, hstates⟩ := h
  rw [fixedCount, fixedCount, hstates]

end Alike

/-- Recording a bound or another leaves a store alike. -/
theorem alike_withState {change : TupleState → TupleState}
    (hkeep : ∀ state, (change state).array? = state.array?) : s.Alike (s.withState h change) := by
  rcases withState_cases s h change with heq | ⟨slot, entry, -, -, heq⟩
  · rw [heq]
    exact .refl s
  · exact ⟨s.states.modify entry change, s.journal, heq, map_modify_of_eq hkeep s.states entry⟩

def recorded (s : Store) (lower upper : Handle) : Store :=
  (s.withState lower (·.addUpper upper)).withState upper (·.addLower lower)

theorem alike_recorded (s : Store) (lower upper : Handle) : s.Alike (s.recorded lower upper) :=
  (alike_withState (array?_addUpper upper)).trans (alike_withState (array?_addLower lower))

theorem Alike.recorded (h : s.Alike s') (lower upper : Handle) :
    (s.recorded lower upper).Alike (s'.recorded lower upper) :=
  (alike_recorded s lower upper).symm.trans (h.trans (alike_recorded s' lower upper))

theorem settles_recorded (hs : s.WellFormed) {lower upper : Handle} (hlower : s.IsTuple lower)
    (hupper : s.IsTuple upper) : s.Settles (s.recorded lower upper) :=
  (Shift.bound hlower hupper).settles hs

/-- A change leaves a shape as it is, or promotes a fixed tuple. -/
theorem Shift.shape_cases (hst : Shift s t) (hs : s.WellFormed) {shape : Shape}
    (hshape : s.shape h = .ok shape) :
    t.shape h = .ok shape ∨
      ∃ params array, shape = .tuple params ∧ t.shape h = .ok (.promoted array) := by
  cases hst with
  | @bound lower upper _ _ => exact .inl (((alike_recorded s lower upper).shape_eq h).trans hshape)
  | @promotion tuple _ array _ _ _ htuple hunion harray =>
    obtain ⟨hself, hothers⟩ := shape_of_promotion hs htuple hunion harray
    by_cases hh : h = tuple
    · subst hh
      rw [htuple] at hshape
      cases hshape
      exact .inr ⟨_, array, rfl, hself⟩
    · exact .inl (hothers h shape hh hshape)
  | report event => exact .inl hshape

/-- The shape of any type but a fixed tuple stays as it is. -/
theorem Shifts.shape_eq (hst : Shifts s t) (hs : s.WellFormed) {shape : Shape}
    (hshape : s.shape h = .ok shape) (hfixed : ∀ params, shape ≠ .tuple params) :
    t.shape h = .ok shape := by
  induction hst with
  | refl => exact hshape
  | tail hsm hmt ih =>
    rcases hmt.shape_cases (Shifts.settles hsm hs).wellFormed ih with hsame | ⟨params, _, htuple, -⟩
    · exact hsame
    · exact absurd htuple (hfixed params)

end Alike

/-- What two runs need to stay side by side. `R` is kept by both, and `lost` tells of a run of the
first that it need not be followed; this is known of a longer run if it is known of a part. -/
structure Pairing (R lost : Store → Store → Prop) : Prop where
  wellFormed : ∀ {s s'}, R s s' → s.WellFormed
  alike : ∀ {s s'}, R s s' → s.Alike s'
  self : ∀ {s s' t}, R s s' → s.Settles t → R t t
  lost_before : ∀ {s t u}, lost s t → t.Settles u → lost s u
  lost_after : ∀ {s t u}, s.Settles t → lost t u → lost s u
  record : ∀ {s s' lower upper}, R s s' → s.IsTuple lower → s.IsTuple upper →
    R (s.recorded lower upper) (s'.recorded lower upper)

/-- If the first operation returns from `s`, either the run is lost or the second returns the same
from `s'`. -/
def Tracks (R lost : Store → Store → Prop) {α : Type} (op op' : StoreM α) (s s' : Store) : Prop :=
  ∀ ⦃answer t⦄, op s = .ok answer t →
    Shifts s t ∧ (lost s t ∨ ∃ t', op' s' = .ok answer t' ∧ R t t')

namespace Tracks

variable {R lost : Store → Store → Prop} {α β : Type}

theorem pure (hR : R s s') (answer : α) :
    Tracks R lost (Pure.pure answer) (Pure.pure answer) s s' := by
  rintro _ _ ⟨⟩
  exact ⟨.refl, .inr ⟨s', rfl, hR⟩⟩

theorem ask {question : Store → Except Error α} (hR : R s s')
    (hsame : question s' = question s) :
    Tracks R lost (Store.ask question) (Store.ask question) s s' := by
  intro answer t hrun
  obtain ⟨hask, rfl⟩ := ask_run_eq_ok_iff.mp hrun
  exact ⟨.refl, .inr ⟨s', ask_run (hsame.trans hask), hR⟩⟩

/-- A question that has the same answer in both stores. -/
theorem ask_bind {question : Store → Except Error α} {f f' : α → StoreM β}
    (hsame : question s' = question s)
    (hf : ∀ answer, question s = .ok answer → Tracks R lost (f answer) (f' answer) s s') :
    Tracks R lost (Store.ask question >>= f) (Store.ask question >>= f') s s' := by
  intro answer u hrun
  obtain ⟨middle, t, hask, hrest⟩ := bind_run_eq_ok_iff.mp hrun
  obtain ⟨hask, rfl⟩ := ask_run_eq_ok_iff.mp hask
  rw [bind_run (ask_run (hsame.trans hask))]
  exact hf middle hask hrest

variable (hp : Pairing R lost)
include hp

/-- A run that is lost before the second operation still ends, so the rest is followed in the first
store alone. -/
theorem bind {op op' : StoreM α} {f f' : α → StoreM β} (hR : R s s')
    (hop : Tracks R lost op op' s s')
    (hf : ∀ answer t t', Shifts s t → R t t' → Tracks R lost (f answer) (f' answer) t t') :
    Tracks R lost (op >>= f) (op' >>= f') s s' := by
  intro answer u hrun
  obtain ⟨middle, t, hfirst, hsecond⟩ := bind_run_eq_ok_iff.mp hrun
  obtain ⟨hst, hlost | ⟨t', hfirst', hRt⟩⟩ := hop hfirst
  all_goals have hsettles := hst.settles (hp.wellFormed hR)
  · obtain ⟨htu, -⟩ := hf middle t t hst (hp.self hR hsettles) hsecond
    have hsettles' := htu.settles hsettles.wellFormed
    exact ⟨hst.trans htu, .inl (hp.lost_before hlost hsettles')⟩
  · obtain ⟨htu, hlost | ⟨u', hsecond', hRu⟩⟩ := hf middle t t' hst hRt hsecond
    · exact ⟨hst.trans htu, .inl (hp.lost_after hsettles hlost)⟩
    · exact ⟨hst.trans htu, .inr ⟨u', (bind_run hfirst').trans hsecond', hRu⟩⟩

theorem and_then {op op' next next' : StoreM Bool} (hR : R s s')
    (hop : Tracks R lost op op' s s')
    (hnext : ∀ t t', Shifts s t → R t t' → Tracks R lost next next' t t') :
    Tracks R lost (do if ← op then next else Pure.pure false)
      (do if ← op' then next' else Pure.pure false) s s' := by
  refine bind hp hR hop fun answer t t' hst hRt => ?_
  cases answer with
  | true => exact hnext t t' hst hRt
  | false => exact pure hRt false

theorem allM {f f' : α → StoreM Bool} {xs : List α} (hR : R s s')
    (h : ∀ x ∈ xs, ∀ t t', Shifts s t → R t t' → Tracks R lost (f x) (f' x) t t') :
    Tracks R lost (xs.allM f) (xs.allM f') s s' := by
  induction xs generalizing s s' with
  | nil => exact pure hR true
  | cons x xs ih =>
    rw [List.allM_cons, List.allM_cons]
    refine and_then hp hR (h x List.mem_cons_self s s' .refl hR) fun t t' hst hRt => ?_
    exact ih hRt fun y hy u u' htu => h y (List.mem_cons_of_mem x hy) u u' (hst.trans htu)

theorem anyM {f f' : α → StoreM Bool} {xs : List α} (hR : R s s')
    (h : ∀ x ∈ xs, ∀ t t', Shifts s t → R t t' → Tracks R lost (f x) (f' x) t t') :
    Tracks R lost (xs.anyM f) (xs.anyM f') s s' := by
  induction xs generalizing s s' with
  | nil => exact pure hR false
  | cons x xs ih =>
    rw [List.anyM_cons, List.anyM_cons]
    refine bind hp hR (h x List.mem_cons_self s s' .refl hR) fun answer t t' hst hRt => ?_
    cases answer with
    | true => exact pure hRt true
    | false =>
      exact ih hRt fun y hy u u' htu => h y (List.mem_cons_of_mem x hy) u u' (hst.trans htu)

theorem pointwise {f f' : α → β → StoreM Bool} {as : List α} {bs : List β} (hR : R s s')
    (h : ∀ x y t t', R t t' → Tracks R lost (f x y) (f' x y) t t') :
    Tracks R lost (Lifting.pointwise f as bs) (Lifting.pointwise f' as bs) s s' := by
  rw [Lifting.pointwise, Lifting.pointwise]
  split
  · exact allM hp hR fun pair _ t t' _ hRt => h pair.1 pair.2 t t' hRt
  · exact pure hR false

end Tracks

section Steps

variable {R lost : Store → Store → Prop} (hp : Pairing R lost)
  {below below' : Handle → Handle → StoreM Bool}
  (hbelow : ∀ x y s s', R s s' → Tracks R lost (below x y) (below' x y) s s')
include hp hbelow

private theorem belowDirect_tracks (hR : R s s') (left right : Shape) :
    Tracks R lost (belowDirect below left right) (belowDirect below' left right) s s' := by
  unfold belowDirect
  split
  · split
    · exact .pointwise hp hR fun x y t t' hRt =>
        .and_then hp hRt (hbelow x y t t' hRt) fun u u' _ => hbelow y x u u'
    · exact .pure hR false
  · next ancestor =>
    exact .ask hR ((hp.alike hR).belowClass_eq left ancestor)
  · exact .pure hR false

private theorem belowShapes_tracks (hR : R s s') (sub : Handle) (left : Shape) (sup : Handle)
    (right : Shape) :
    Tracks R lost (belowShapes below sub left sup right) (belowShapes below' sub left sup right)
      s s' := by
  rw [belowShapes_eq, belowShapes_eq]
  cases left.layer.rule right.layer with
  | allLeft => exact .allM hp hR fun x _ t t' _ => hbelow x sup t t'
  | allRight => exact .allM hp hR fun y _ t t' _ => hbelow sub y t t'
  | anyRight => exact .anyM hp hR fun y _ t t' _ => hbelow sub y t t'
  | anyLeft => exact .anyM hp hR fun x _ t t' _ => hbelow x sup t t'
  | direct => exact belowDirect_tracks hp hbelow hR left right

variable
  (hpromote : ∀ s s' tuple params, R s s' → s.shape tuple = .ok (.tuple params) →
    Tracks R lost (promoteBy below tuple) (promoteBy below' tuple) s s')
include hpromote

private theorem belowTuple_tracks (hR : R s s') {sub : Handle} {params : List Handle}
    (hshape : s.shape sub = .ok (.tuple params)) (sup : Handle) :
    Tracks R lost (belowTuple below sub params sup) (belowTuple below' sub params sup) s s' := by
  rw [belowTuple, belowTuple]
  split
  · exact .pure hR true
  refine .ask_bind ((hp.alike hR).node_eq sup) fun node hnode => ?_
  have harray : Tracks R lost
      (if node.isArray then do
        let consistent ← promoteBy below sub
        let holds ← below sub sup
        return holds && consistent
      else return false)
      (if node.isArray then do
        let consistent ← promoteBy below' sub
        let holds ← below' sub sup
        return holds && consistent
      else return false) s s' := by
    split
    · refine .bind hp hR (hpromote s s' sub params hR hshape) fun consistent t t' _ hRt => ?_
      exact .bind hp hRt (hbelow sub sup t t' hRt) fun holds u u' _ hRu => .pure hRu _
    · exact .pure hR false
  cases node with
  | tuple others digest entry =>
    refine .bind hp hR (.pointwise hp hR hbelow) fun answer t t' hst hRt => ?_
    cases answer with
    | false => exact .pure hRt false
    | true =>
      -- the two tuples are still tuples after their elements were compared
      have hsettles := hst.settles (hp.wellFormed hR)
      have hsub := hsettles.isTuple (isTuple_of_shape hshape)
      obtain ⟨traits, hslot⟩ := exists_slot_of_node hnode
      have hsup := hsettles.isTuple ⟨others, digest, entry, traits, hslot⟩
      have hrecord : Tracks R lost (recordBound sub sup) (recordBound sub sup) t t' := by
        rintro _ _ ⟨⟩
        exact ⟨.single (.bound hsub hsup), .inr ⟨_, rfl, hp.record hRt hsub hsup⟩⟩
      exact .bind hp hRt hrecord fun _ u u' _ hRu => .pure hRu true
  | _ => exact harray

private theorem belowStep_tracks (hR : R s s') (a b : Handle) :
    Tracks R lost (belowStep below a b) (belowStep below' a b) s s' := by
  have halike := hp.alike hR
  refine .ask_bind (halike.shape_eq a) fun left hleft => ?_
  have hplain : Tracks R lost
      (do
        let sup ← ask (·.canonical b)
        if a = sup ∨ sup = .top ∨ a = .nil then return true
        else belowShapes below a left sup (← ask (·.shape sup)))
      (do
        let sup ← ask (·.canonical b)
        if a = sup ∨ sup = .top ∨ a = .nil then return true
        else belowShapes below' a left sup (← ask (·.shape sup))) s s' := by
    refine .ask_bind (halike.canonical_eq b) fun sup _ => ?_
    split
    · exact .pure hR true
    · exact .ask_bind (halike.shape_eq sup) fun right _ =>
        belowShapes_tracks hp hbelow hR a left sup right
  cases left with
  | promoted array => exact hbelow array b s s' hR
  | tuple params =>
    exact .ask_bind (halike.canonical_eq b) fun sup _ =>
      belowTuple_tracks hp hbelow hpromote hR hleft sup
  | _ => exact hplain

end Steps

/-- The search is followed by one that may nest deeper by a given amount if promotion is, at every
depth. -/
theorem subtypeWithin_tracks {R lost : Store → Store → Prop} (hp : Pairing R lost) (extra : Nat)
    (hpromote : ∀ depth,
      (∀ x y s s', R s s' → Tracks R lost (subtypeWithin depth x y)
        (subtypeWithin (depth + extra) x y) s s') →
      ∀ s s' tuple params, R s s' → s.shape tuple = .ok (.tuple params) →
        Tracks R lost (promoteBy (subtypeWithin depth) tuple)
          (promoteBy (subtypeWithin (depth + extra)) tuple) s s') (depth : Nat) :
    ∀ x y s s', R s s' → Tracks R lost (subtypeWithin depth x y)
      (subtypeWithin (depth + extra) x y) s s' := by
  induction depth with
  | zero =>
    intro x y s s' _ answer t hrun
    cases hrun
  | succ depth ih =>
    intro x y s s' hR
    rw [Nat.add_right_comm]
    exact belowStep_tracks hp ih (hpromote depth ih) hR x y

end Store

end GradualTypes
