import GradualTypes.Proofs.Cascades
import GradualTypes.Proofs.Elementwise
import GradualTypes.Proofs.Footprint

/-!
What one step of the search is going to do. The shapes of the two types decide it before anything is
asked: either the answer is known, or further questions are asked in a row until one of them settles
the matter, or the elements of two fixed tuples are compared, or a fixed tuple is promoted and asked
for again. All that happens later to the two types is that a fixed tuple may be promoted, so a plan
stays as it is as long as the tuples stay fixed on which it rests.
-/

namespace GradualTypes

/-- What a step of the search does. Questions that are asked end with the first one that is answered
by `last`. Elements that are compared must all be related, and then a bound is recorded. -/
inductive Plan where
  | answer (holds : Bool)
  | ask (last : Bool) (questions : List (Handle × Handle))
  | compare (upper : Handle) (questions : List (Handle × Handle))
  | promote (sup : Handle)
  deriving DecidableEq, Repr

namespace Store

variable {s t : Store} {a b c : Handle} {below : Handle → Handle → StoreM Bool}

section Questions

/-- Asks questions one after the other until one is answered by `last`. -/
def askUntil (below : Handle → Handle → StoreM Bool) (last : Bool) :
    List (Handle × Handle) → StoreM Bool
  | [] => return !last
  | question :: rest => do
    if (← below question.1 question.2) = last then return last else askUntil below last rest

private theorem allM_eq_askUntil {α : Type} (ask : α → Handle × Handle) (xs : List α) :
    (xs.allM fun x => below (ask x).1 (ask x).2) = askUntil below false (xs.map ask) := by
  induction xs with
  | nil => rfl
  | cons x xs ih =>
    rw [List.allM_cons, List.map_cons, askUntil, ih]
    congr 1
    funext answer
    cases answer <;> rfl

private theorem anyM_eq_askUntil {α : Type} (ask : α → Handle × Handle) (xs : List α) :
    (xs.anyM fun x => below (ask x).1 (ask x).2) = askUntil below true (xs.map ask) := by
  induction xs with
  | nil => rfl
  | cons x xs ih =>
    rw [List.anyM_cons, List.map_cons, askUntil, ih]

private theorem askUntil_append (xs ys : List (Handle × Handle)) :
    askUntil below false (xs ++ ys) =
      (do if ← askUntil below false xs then askUntil below false ys else return false) := by
  induction xs with
  | nil => rfl
  | cons x xs ih =>
    rw [List.cons_append, askUntil, askUntil, ih, bind_assoc]
    congr 1
    funext answer
    cases answer <;> rfl

def bothWays (as bs : List Handle) : List (Handle × Handle) :=
  (as.zip bs).flatMap fun pair => [pair, pair.swap]

private theorem allM_both_eq_askUntil (pairs : List (Handle × Handle)) :
    (pairs.allM fun pair => do
      if ← below pair.1 pair.2 then below pair.2 pair.1 else return false) =
      askUntil below false (pairs.flatMap fun pair => [pair, pair.swap]) := by
  induction pairs with
  | nil => rfl
  | cons pair pairs ih =>
    rw [List.allM_cons, List.flatMap_cons, List.cons_append, List.cons_append, List.nil_append,
      askUntil, askUntil, ih, bind_assoc]
    congr 1
    funext answer
    cases answer with
    | false => rfl
    | true =>
      change (below pair.2 pair.1 >>= _) = (below pair.2 pair.1 >>= _)
      congr 1
      funext answer
      cases answer <;> rfl

theorem boundsHold_eq (tuple : Handle) (lower upper : List Handle) :
    boundsHold below tuple lower upper =
      askUntil below false (lower.map (·, tuple) ++ upper.map (tuple, ·)) := by
  rw [askUntil_append, ← allM_eq_askUntil, ← allM_eq_askUntil]
  rfl

end Questions

section Plans

def tuplePlan (params : List Handle) (sup : Handle) (right : Shape) : Plan :=
  if sup = .top then .answer true
  else
    match right with
    | .tuple others =>
      if params.length = others.length then .compare sup (params.zip others) else .answer false
    | .generic base [_] => if base = .arrayClass then .promote sup else .answer false
    | _ => .answer false

def directPlan (s : Store) (left right : Shape) : Except Error Plan :=
  match left, right with
  | .generic base as, .generic base' bs =>
    return if base = base' ∧ as.length = bs.length then .ask false (bothWays as bs)
      else .answer false
  | left, .nominal ancestor => return .answer (← s.belowClass left ancestor)
  | _, _ => return .answer false

private theorem directPlan_nominal (left : Shape) (ancestor : Name) :
    s.directPlan left (.nominal ancestor) =
      (do return .answer (← s.belowClass left ancestor) : Except Error Plan) := by
  cases left <;> rfl

def shapePlan (s : Store) (a : Handle) (left : Shape) (sup : Handle) (right : Shape) :
    Except Error Plan :=
  if a = sup ∨ sup = .top ∨ a = .nil then return .answer true
  else
    match left.layer.rule right.layer with
    | .allLeft => return .ask false (left.parts.map (·, sup))
    | .allRight => return .ask false (right.parts.map (a, ·))
    | .anyRight => return .ask true (right.parts.map (a, ·))
    | .anyLeft => return .ask true (left.parts.map (·, sup))
    | .direct => s.directPlan left right

def planBy (s : Store) (a b : Handle) (left : Shape) (sup : Handle) (right : Shape) :
    Except Error Plan :=
  match left with
  | .promoted array => return .ask false [(array, b)]
  | .tuple params => return tuplePlan params sup right
  | left => s.shapePlan a left sup right

def plan (s : Store) (a b : Handle) : Except Error Plan := do
  let left ← s.shape a
  let sup ← s.canonical b
  s.planBy a b left sup (← s.shape sup)

end Plans

end Store

def Plan.run (below : Handle → Handle → StoreM Bool) (a : Handle) : Plan → StoreM Bool
  | answer holds => return holds
  | ask last questions => Store.askUntil below last questions
  | compare upper questions => do
    if ← Store.askUntil below false questions then
      Store.recordBound a upper
      return true
    else return false
  | promote sup => do
    let consistent ← Store.promoteBy below a
    let holds ← below a sup
    return holds && consistent

def Plan.questions : Plan → List (Handle × Handle)
  | ask _ questions | compare _ questions => questions
  | answer _ | promote _ => []

namespace Store

variable {s t : Store} {a b c : Handle} {p : Plan} {below : Handle → Handle → StoreM Bool}

theorem plan_eq_ok_iff : s.plan a b = .ok p ↔
    ∃ left sup right, s.shape a = .ok left ∧ s.canonical b = .ok sup ∧ s.shape sup = .ok right ∧
      s.planBy a b left sup right = .ok p := by
  simp only [plan, bind_eq_ok_iff]
  grind

theorem contains_of_plan (hplan : s.plan a b = .ok p) : s.contains a ∧ s.contains b := by
  obtain ⟨left, sup, right, hleft, hsup, -, -⟩ := plan_eq_ok_iff.mp hplan
  obtain ⟨right', hright', -⟩ := bind_eq_ok_iff.mp hsup
  exact ⟨Linked.contains_of_shape hleft, Linked.contains_of_shape hright'⟩

section Steps

variable {params : List Handle} {sup : Handle} {left right : Shape}

private theorem askUntil_singleton (question : Handle × Handle) :
    askUntil below false [question] = below question.1 question.2 := by
  rw [askUntil]
  conv => rhs; rw [← bind_pure (below _ _)]
  congr 1
  funext answer
  cases answer <;> rfl

private theorem Linked.belowTuple_run (hs : s.Linked) (hright : s.shape sup = .ok right)
    (hproper : ∀ array, right ≠ .promoted array) :
    belowTuple below a params sup s = (tuplePlan params sup right).run below a s := by
  unfold tuplePlan
  by_cases htop : sup = .top
  · rw [belowTuple, if_pos htop, if_pos htop]
    rfl
  rw [if_neg htop]
  cases right with
  | promoted array => exact absurd rfl (hproper array)
  | tuple others =>
    obtain ⟨digest, entry, traits, -, -, hslot, -⟩ := slot_of_shape_tuple hright
    rw [hs.belowTuple_of_tuple hslot, Lifting.pointwise]
    by_cases hlength : params.length = others.length
    · have hzip : ((params.zip others).allM fun pair => below pair.1 pair.2) =
          askUntil below false (params.zip others) := by
        simpa using allM_eq_askUntil id (params.zip others)
      rw [if_pos hlength, hzip]
      simp only [if_pos hlength, Plan.run]
    · rw [if_neg hlength]
      simp only [if_neg hlength, Plan.run]
      rfl
  | generic base arguments =>
    obtain ⟨traits, hslot⟩ := slot_of_shape hright rfl
    rw [belowTuple, if_neg htop, bind_run (ask_run (node_of_slot hslot))]
    rcases arguments with _ | ⟨element, _ | ⟨element', rest⟩⟩
    · rfl
    · by_cases hbase : base = .arrayClass
      · subst hbase
        rfl
      · simp only [Node.isArray, hbase, decide_false, if_false, Plan.run]
        rfl
    · rfl
  | _ =>
    obtain ⟨traits, hslot⟩ := slot_of_shape hright rfl
    rw [belowTuple, if_neg htop, bind_run (ask_run (node_of_slot hslot))]
    rfl

private theorem belowDirect_run (hplan : s.directPlan left right = .ok p) :
    belowDirect below left right s = p.run below a s := by
  cases right with
  | generic base' bs =>
    cases left with
    | generic base as =>
      cases hplan
      rw [belowDirect, Lifting.pointwise, allM_both_eq_askUntil]
      by_cases hbase : base = base'
      · by_cases hlength : as.length = bs.length
        · rw [if_pos hbase, if_pos hlength, if_pos ⟨hbase, hlength⟩]
          rfl
        · rw [if_pos hbase, if_neg hlength, if_neg fun hboth => hlength hboth.2]
          rfl
      · rw [if_neg hbase, if_neg fun hboth => hbase hboth.1]
        rfl
    | _ =>
      cases hplan
      rfl
  | nominal ancestor =>
    rw [directPlan_nominal] at hplan
    obtain ⟨holds, hclass, hanswer⟩ := bind_eq_ok_iff.mp hplan
    cases hanswer
    have hask : belowDirect below left (.nominal ancestor) = ask (·.belowClass left ancestor) := by
      cases left <;> rfl
    rw [hask, ask_run hclass]
    rfl
  | _ =>
    cases left <;>
    · cases hplan
      rfl

private theorem belowShapes_run (hplan : s.shapePlan a left sup right = .ok p) :
    (if a = sup ∨ sup = .top ∨ a = .nil then return true
      else belowShapes below a left sup right : StoreM Bool) s = p.run below a s := by
  rw [shapePlan] at hplan
  split at hplan
  next hequal =>
    cases hplan
    rw [if_pos hequal]
    rfl
  next hequal =>
    rw [if_neg hequal, belowShapes_eq]
    cases hrule : left.layer.rule right.layer with
    | allLeft =>
      simp only [hrule] at hplan ⊢
      cases hplan
      exact congrFun (allM_eq_askUntil (·, sup) left.parts) s
    | allRight =>
      simp only [hrule] at hplan ⊢
      cases hplan
      exact congrFun (allM_eq_askUntil (a, ·) right.parts) s
    | anyRight =>
      simp only [hrule] at hplan ⊢
      cases hplan
      exact congrFun (anyM_eq_askUntil (a, ·) right.parts) s
    | anyLeft =>
      simp only [hrule] at hplan ⊢
      cases hplan
      exact congrFun (anyM_eq_askUntil (·, sup) left.parts) s
    | direct =>
      simp only [hrule] at hplan ⊢
      exact belowDirect_run hplan

/-- One step of the search carries out the plan. -/
theorem WellFormed.belowStep_run (hs : s.WellFormed) (hplan : s.plan a b = .ok p) :
    belowStep below a b s = p.run below a s := by
  have hb := (contains_of_plan hplan).2
  obtain ⟨left, sup, right, hleft, hsup, hright, hplan⟩ := plan_eq_ok_iff.mp hplan
  obtain ⟨_, hsup', -, -, hproper⟩ := canonical_spec hs hb
  rw [hsup] at hsup'
  cases hsup'
  have hproper : ∀ array, right ≠ .promoted array := by
    rintro array rfl
    exact hproper array hright
  rw [belowStep, bind_run (ask_run hleft)]
  have hplain : s.shapePlan a left sup right = .ok p →
      (do
        let sup ← ask (·.canonical b)
        if a = sup ∨ sup = .top ∨ a = .nil then return true
        else belowShapes below a left sup (← ask (·.shape sup)) : StoreM Bool) s =
        p.run below a s := by
    intro hplan
    rw [bind_run (ask_run hsup), ← belowShapes_run hplan]
    split
    · rfl
    · exact bind_run (ask_run hright)
  cases left with
  | promoted array =>
    cases hplan
    exact (congrFun (askUntil_singleton (array, b)) s).symm
  | tuple params =>
    cases hplan
    rw [← hs.linked.belowTuple_run hright hproper]
    exact bind_run (ask_run hsup)
  | _ => exact hplain hplan

end Steps

section Cases

variable {left right : Shape} {sup upper : Handle} {last : Bool}
  {questions : List (Handle × Handle)}

theorem planBy_cases (left : Shape) :
    (∃ array, left = .promoted array) ∨ (∃ params, left = .tuple params) ∨
      (∀ params, left ≠ .tuple params) ∧ ∀ (s : Store) (a b sup : Handle) (right : Shape),
        s.planBy a b left sup right = s.shapePlan a left sup right := by
  cases left with
  | promoted array => exact .inl ⟨array, rfl⟩
  | tuple params => exact .inr (.inl ⟨params, rfl⟩)
  | _ => exact .inr (.inr ⟨by simp, fun _ _ _ _ _ => rfl⟩)

/-- A fixed tuple stands for itself only. -/
theorem Linked.eq_of_canonical_fixed (hs : s.Linked) (hsup : s.canonical b = .ok sup)
    (hfixed : s.IsFixed sup) : b = sup := by
  obtain ⟨right, hright, hof⟩ := bind_eq_ok_iff.mp hsup
  cases right with
  | promoted array =>
    cases hof
    obtain ⟨element, traits, hslot⟩ := hs.slot_of_promoted hright
    obtain ⟨_, _, _, _, hslot'⟩ := hfixed.isTuple
    rw [hslot] at hslot'
    cases hslot'
  | _ =>
    cases hof
    rfl

private theorem Linked.canonical_of_isFixed (hs : s.Linked) (hfixed : s.IsFixed b) :
    s.canonical b = .ok b := by
  obtain ⟨params, hshape⟩ := hs.shape_of_isFixed hfixed
  exact canonical_of_shape hshape (by simp)

private theorem Linked.ne_top_of_shape (hs : s.Linked) (hright : s.shape b = .ok right)
    (hne : right ≠ .top) : b ≠ .top := by
  rintro rfl
  obtain ⟨slot, hslot, hof⟩ := shape_eq_ok_iff.mp hright
  rw [hs.builtin .top (by decide)] at hslot
  cases hslot
  cases hof
  exact hne rfl

private theorem tuplePlan_cases (params : List Handle) (sup : Handle) (right : Shape) :
    sup = .top ∧ tuplePlan params sup right = .answer true ∨
      (∃ others, right = .tuple others ∧ params.length = others.length ∧
        tuplePlan params sup right = .compare sup (params.zip others)) ∨
      (∃ element, right = .generic .arrayClass [element] ∧
        tuplePlan params sup right = .promote sup) ∨
      tuplePlan params sup right = .answer false := by
  unfold tuplePlan
  grind

/-- Two types the left one of which is no tuple are compared by questions, if at all. -/
private theorem shapePlan_cases (hplan : s.shapePlan a left sup right = .ok p) :
    (∃ holds, p = .answer holds) ∨ ∃ last questions, p = .ask last questions := by
  rw [shapePlan] at hplan
  split at hplan
  · cases hplan
    exact .inl ⟨true, rfl⟩
  · split at hplan
    case h_5 =>
      unfold directPlan at hplan
      split at hplan
      · cases hplan
        split
        · exact .inr ⟨_, _, rfl⟩
        · exact .inl ⟨_, rfl⟩
      · obtain ⟨holds, -, hanswer⟩ := bind_eq_ok_iff.mp hplan
        cases hanswer
        exact .inl ⟨holds, rfl⟩
      · cases hplan
        exact .inl ⟨_, rfl⟩
    all_goals
      cases hplan
      exact .inr ⟨_, _, rfl⟩

/-- The plan for a type that is no fixed tuple. -/
private theorem plan_cases (hplan : s.plan a b = .ok p) :
    (∃ params sup right, s.shape a = .ok (.tuple params) ∧ s.canonical b = .ok sup ∧
      s.shape sup = .ok right ∧ p = tuplePlan params sup right) ∨
    (∃ left, s.shape a = .ok left ∧ ∀ params, left ≠ .tuple params) ∧
      ((∃ holds, p = .answer holds) ∨ ∃ last questions, p = .ask last questions) := by
  obtain ⟨left, sup, right, hleft, hsup, hright, hplan⟩ := plan_eq_ok_iff.mp hplan
  obtain ⟨array, rfl⟩ | ⟨params, rfl⟩ | ⟨hne, hof⟩ := planBy_cases left
  · cases hplan
    exact .inr ⟨⟨_, hleft, by simp⟩, .inr ⟨_, _, rfl⟩⟩
  · cases hplan
    exact .inl ⟨params, sup, right, hleft, hsup, hright, rfl⟩
  · rw [hof] at hplan
    exact .inr ⟨⟨left, hleft, hne⟩, shapePlan_cases hplan⟩

theorem Linked.plan_compare (hs : s.Linked)
    (hplan : s.plan a b = .ok (.compare upper questions)) :
    upper = b ∧ ∃ params others, s.shape a = .ok (.tuple params) ∧ s.shape b = .ok (.tuple others) ∧
      params.length = others.length ∧ questions = params.zip others := by
  obtain ⟨params, sup, right, hleft, hsup, hright, hp⟩ | ⟨-, ⟨_, hp⟩ | ⟨_, _, hp⟩⟩ :=
    plan_cases hplan
  · obtain ⟨-, h⟩ | ⟨others, rfl, hlength, h⟩ | ⟨_, -, h⟩ | h := tuplePlan_cases params sup right
    · cases hp.trans h
    · cases hp.trans h
      obtain rfl := hs.eq_of_canonical_fixed hsup (isFixed_of_shape hright)
      exact ⟨rfl, params, others, hleft, hright, hlength, rfl⟩
    · cases hp.trans h
    · cases hp.trans h
  · cases hp
  · cases hp

theorem plan_promote (hplan : s.plan a b = .ok (.promote sup)) :
    ∃ params element, s.shape a = .ok (.tuple params) ∧ s.canonical b = .ok sup ∧
      s.shape sup = .ok (.generic .arrayClass [element]) := by
  obtain ⟨params, sup', right, hleft, hsup, hright, hp⟩ | ⟨-, ⟨_, hp⟩ | ⟨_, _, hp⟩⟩ :=
    plan_cases hplan
  · obtain ⟨-, h⟩ | ⟨_, -, -, h⟩ | ⟨element, rfl, h⟩ | h := tuplePlan_cases params sup' right
    · cases hp.trans h
    · cases hp.trans h
    · cases hp.trans h
      exact ⟨params, element, hleft, hsup, hright⟩
    · cases hp.trans h
  · cases hp
  · cases hp

private theorem Linked.plan_ask (hs : s.Linked) (hplan : s.plan a b = .ok (.ask last questions)) :
    ¬ s.IsFixed a := by
  intro hfixed
  obtain ⟨params, hparams⟩ := hs.shape_of_isFixed hfixed
  obtain ⟨params, sup, right, -, -, -, hp⟩ | ⟨⟨left, hleft, hne⟩, -⟩ := plan_cases hplan
  · obtain ⟨-, h⟩ | ⟨_, -, -, h⟩ | ⟨_, -, h⟩ | h := tuplePlan_cases params sup right <;>
      cases hp.trans h
  · rw [hparams] at hleft
    cases hleft
    exact hne params rfl

/-- A type is taken apart before it is compared with a fixed tuple, and then it is so before it is
compared with any other type that has no components, or else the answer is known at once. -/
private theorem shapePlan_tuple {others : List Handle} (hne : a ≠ b) (htop : b ≠ .top)
    (hplan : s.shapePlan a left b (.tuple others) = .ok p) :
    a = .nil ∧ p = .answer true ∨ p = .answer false ∨
      ∃ last, p = .ask last (left.parts.map (·, b)) ∧
        ∀ (t : Store) (c : Handle) (right : Shape), left.layer ≠ .plain ∧
          (right.layer = .plain → a ≠ c → c ≠ .top →
            t.shapePlan a left c right = .ok (.ask last (left.parts.map (·, c)))) := by
  by_cases hnil : a = .nil
  · rw [shapePlan, if_pos (.inr (.inr hnil))] at hplan
    exact .inl ⟨hnil, (Except.ok.inj hplan).symm⟩
  rw [shapePlan, if_neg (by tauto)] at hplan
  refine .inr ?_
  have htuple : Shape.layer (.tuple others) = .plain := rfl
  cases hlayer : left.layer with
  | plain =>
    rw [hlayer, htuple] at hplan
    refine .inl ?_
    cases left <;> cases hplan <;> rfl
  | _ =>
    rw [hlayer, htuple] at hplan
    cases hplan
    refine .inr ⟨_, rfl, fun t c right => ⟨by simp, fun hright hne' htop' => ?_⟩⟩
    rw [shapePlan, if_neg (by tauto), hlayer, hright]
    rfl

theorem WellFormed.exists_plan (hs : s.WellFormed) (ha : s.contains a) (hb : s.contains b) :
    ∃ p, s.plan a b = .ok p := by
  obtain ⟨left, hleft⟩ := hs.linked.exists_shape ha
  obtain ⟨sup, hsup, hcontains, -, -⟩ := canonical_spec hs hb
  obtain ⟨right, hright⟩ := hs.linked.exists_shape hcontains
  have hshapes : ∃ p, s.shapePlan a left sup right = .ok p := by
    rw [shapePlan]
    split
    · exact ⟨_, rfl⟩
    · split
      case h_5 =>
        cases right with
        | nominal ancestor =>
          obtain ⟨holds, hclass⟩ := belowClass_answered hs.linked hleft ancestor
          exact ⟨.answer holds, by rw [directPlan_nominal, hclass]; rfl⟩
        | _ => cases left <;> exact ⟨_, rfl⟩
      all_goals exact ⟨_, rfl⟩
  have hplanBy : ∃ p, s.planBy a b left sup right = .ok p := by
    obtain ⟨array, rfl⟩ | ⟨params, rfl⟩ | ⟨-, hof⟩ := planBy_cases left
    · exact ⟨_, rfl⟩
    · exact ⟨_, rfl⟩
    · rw [hof]
      exact hshapes
  obtain ⟨p, hplan⟩ := hplanBy
  exact ⟨p, plan_eq_ok_iff.mpr ⟨left, sup, right, hleft, hsup, hright, hplan⟩⟩

private theorem contains_of_directPlan (hplan : s.directPlan left right = .ok p)
    (hparts : ∀ x ∈ left.parts, s.contains x) (hparts' : ∀ y ∈ right.parts, s.contains y) :
    ∀ question ∈ p.questions, s.contains question.1 ∧ s.contains question.2 := by
  unfold directPlan at hplan
  split at hplan
  case h_1 base as base' bs =>
    cases hplan
    split
    · intro question hquestion
      obtain ⟨pair, hpair, hquestion⟩ := List.mem_flatMap.mp hquestion
      obtain ⟨hx, hy⟩ := List.of_mem_zip hpair
      have hx := hparts _ (List.mem_cons_of_mem base hx)
      have hy := hparts' _ (List.mem_cons_of_mem base' hy)
      obtain rfl | rfl : question = pair ∨ question = pair.swap := by simpa using hquestion
      · exact ⟨hx, hy⟩
      · exact ⟨hy, hx⟩
    · simp [Plan.questions]
  case h_2 =>
    obtain ⟨holds, -, hanswer⟩ := bind_eq_ok_iff.mp hplan
    cases hanswer
    simp [Plan.questions]
  case h_3 =>
    cases hplan
    simp [Plan.questions]

/-- All that is asked is about types of the store. -/
theorem WellFormed.contains_of_asked (hs : s.WellFormed) (hplan : s.plan a b = .ok p) :
    ∀ question ∈ p.questions, s.contains question.1 ∧ s.contains question.2 := by
  obtain ⟨ha, hb⟩ := contains_of_plan hplan
  obtain ⟨left, sup, right, hleft, hsup, hright, hplan⟩ := plan_eq_ok_iff.mp hplan
  have hparts : ∀ x ∈ left.parts, s.contains x := fun x hx => (hs.descends hleft hx).1
  have hparts' : ∀ y ∈ right.parts, s.contains y := fun y hy => (hs.descends hright hy).1
  have hcontains := Linked.contains_of_shape hright
  obtain ⟨array, rfl⟩ | ⟨params, rfl⟩ | ⟨-, hof⟩ := planBy_cases left
  · cases hplan
    simpa [Plan.questions] using ⟨hparts array List.mem_cons_self, hb⟩
  · cases hplan
    obtain ⟨-, h⟩ | ⟨others, rfl, -, h⟩ | ⟨_, -, h⟩ | h := tuplePlan_cases params sup right
    · simp [h, Plan.questions]
    · rw [h]
      intro question hquestion
      obtain ⟨hx, hy⟩ := List.of_mem_zip hquestion
      exact ⟨hparts _ hx, hparts' _ hy⟩
    · simp [h, Plan.questions]
    · simp [h, Plan.questions]
  · rw [hof, shapePlan] at hplan
    split at hplan
    · cases hplan
      simp [Plan.questions]
    · split at hplan
      case h_5 => exact contains_of_directPlan hplan hparts hparts'
      all_goals
        cases hplan
        intro question hquestion
        obtain ⟨part, hpart, rfl⟩ := List.mem_map.mp hquestion
        grind

/-- What is planned for a fixed tuple on the right. -/
private theorem Linked.planBy_of_fixed {others : List Handle} (hs : s.Linked)
    (hothers : s.shape b = .ok (.tuple others)) (hplan : s.plan a b = .ok p) :
    ∃ left, s.shape a = .ok left ∧ s.planBy a b left b (.tuple others) = .ok p := by
  obtain ⟨left, sup, right, hleft, hsup, hright, hplan⟩ := plan_eq_ok_iff.mp hplan
  rw [hs.canonical_of_isFixed (isFixed_of_shape hothers)] at hsup
  cases hsup
  rw [hothers] at hright
  cases hright
  exact ⟨left, hleft, hplan⟩

/-- A fixed tuple is below the top at sight, and below nothing else. -/
private theorem eq_top_of_tuplePlan {params : List Handle}
    (hplan : tuplePlan params sup right = .answer true) : sup = .top := by
  obtain ⟨h, -⟩ | ⟨_, -, -, h⟩ | ⟨_, -, h⟩ | h := tuplePlan_cases params sup right
  · exact h
  all_goals cases hplan.symm.trans h

end Cases

section Later

variable {left right : Shape} {sup : Handle} {last : Bool} {questions : List (Handle × Handle)}
  {h : Handle} {shape : Shape}

section Kept

variable (hst : Shifts s t) (hs : s.WellFormed) (hkeep : s.IsFixed h → t.IsFixed h)
include hst hs hkeep

/-- A type has the shape that it had unless it was promoted. -/
theorem Shifts.shape_of_kept (hshape : s.shape h = .ok shape) : t.shape h = .ok shape := by
  have hsettles := hst.settles hs
  cases shape with
  | tuple params =>
    exact hsettles.toRetains.shape_of_isFixed hsettles.wellFormed.linked hshape
      (hkeep (isFixed_of_shape hshape))
  | _ => exact hst.shape_eq hs hshape (by simp)

private theorem Shifts.canonical_of_kept (hsup : s.canonical h = .ok sup) :
    t.canonical h = .ok sup ∧ (s.IsFixed sup → t.IsFixed sup) := by
  obtain ⟨shape, hshape, hof⟩ := bind_eq_ok_iff.mp hsup
  refine ⟨?_, fun hfixed => ?_⟩
  · rw [canonical, hst.shape_of_kept hs hkeep hshape]
    exact hof
  · obtain rfl := hs.linked.eq_of_canonical_fixed hsup hfixed
    exact hkeep hfixed

end Kept

variable (hst : Shifts s t) (hs : s.WellFormed)
include hst hs

private theorem Shifts.planBy_eq (hleft : s.shape a = .ok left) :
    t.planBy a b left sup right = s.planBy a b left sup right := by
  have hclass := hs.belowClass_of_retained (hst.settles hs).toRetains (hst.hierarchy_eq hs) hleft
  have hdirect : t.directPlan left right = s.directPlan left right := by
    cases right with
    | nominal ancestor => rw [directPlan_nominal, directPlan_nominal, hclass]
    | _ => cases left <;> rfl
  obtain ⟨array, rfl⟩ | ⟨params, rfl⟩ | ⟨-, hof⟩ := planBy_cases left
  · rfl
  · rfl
  · rw [hof, hof, shapePlan, shapePlan, hdirect]

/-- A plan stays as it is unless one of the two types is promoted. -/
theorem Shifts.plan_of_kept (ha : s.IsFixed a → t.IsFixed a) (hb : s.IsFixed b → t.IsFixed b)
    (hplan : s.plan a b = .ok p) : t.plan a b = .ok p := by
  obtain ⟨left, sup, right, hleft, hsup, hright, hplan⟩ := plan_eq_ok_iff.mp hplan
  obtain ⟨hsup', hkeep⟩ := hst.canonical_of_kept hs hb hsup
  exact plan_eq_ok_iff.mpr ⟨left, sup, right, hst.shape_of_kept hs ha hleft, hsup',
    hst.shape_of_kept hs hkeep hright, (hst.planBy_eq hs hleft).trans hplan⟩

/-- Types that stand for the same go on doing so. -/
theorem Shifts.canonical_congr (hb : s.contains b) (hsame : s.canonical b = s.canonical c) :
    t.canonical b = t.canonical c := by
  obtain ⟨x, hx, -⟩ := canonical_spec hs hb
  have hx' := hsame.symm.trans hx
  by_cases hfixed : s.IsFixed x
  · rw [hs.linked.eq_of_canonical_fixed hx hfixed, hs.linked.eq_of_canonical_fixed hx' hfixed]
  · have hkeep : ∀ {h}, s.canonical h = .ok x → s.IsFixed h → t.IsFixed h := by
      intro h hh hfixed'
      rw [hs.linked.canonical_of_isFixed hfixed'] at hh
      cases hh
      exact absurd hfixed' hfixed
    rw [(hst.canonical_of_kept hs (hkeep hx) hx).1, (hst.canonical_of_kept hs (hkeep hx') hx').1]

/-- A tuple that is fixed no more has become an array type. -/
theorem Shifts.array_of_lost (hfixed : s.IsFixed h) (hlost : ¬ t.IsFixed h) :
    ∃ params array element, s.shape h = .ok (.tuple params) ∧ t.shape h = .ok (.promoted array) ∧
      t.shape array = .ok (.generic .arrayClass [element]) := by
  have hsettles := hst.settles hs
  obtain ⟨params, hparams⟩ := hs.linked.shape_of_isFixed hfixed
  have hcases := (hsettles.isTuple hfixed.isTuple).fixed_or_promoted hsettles.wellFormed.linked
  rcases hcases with ⟨params', hshape⟩ | ⟨array, harray⟩
  · exact absurd (isFixed_of_shape hshape) hlost
  · obtain ⟨element, helement⟩ := hsettles.wellFormed.shape_of_array harray
    exact ⟨params, array, element, hparams, harray, helement⟩

/-- Questions that are asked later are the same but for right types that stand for the same. -/
theorem Shifts.plan_of_ask (hplan : s.plan a b = .ok (.ask last questions)) :
    ∃ f : Handle → Handle, (∀ h, t.canonical (f h) = t.canonical h) ∧
      t.plan a b = .ok (.ask last (questions.map (Prod.map id f))) := by
  have hnot := hs.linked.plan_ask hplan
  have ha : s.IsFixed a → t.IsFixed a := fun hfixed => absurd hfixed hnot
  by_cases hb : s.IsFixed b → t.IsFixed b
  · refine ⟨id, fun _ => rfl, ?_⟩
    rw [Prod.map_id, List.map_id]
    exact hst.plan_of_kept hs ha hb hplan
  -- the right type is a tuple that was promoted since
  obtain ⟨hfixed, hlost⟩ := Classical.not_imp.mp hb
  have ht := (hst.settles hs).wellFormed
  obtain ⟨others, array, element, hothers, harray, helement⟩ :=
    hst.array_of_lost hs hfixed hlost
  have hb' := canonical_of_promoted harray
  have harray' : t.canonical array = .ok array := canonical_of_shape helement (by simp)
  obtain ⟨left, hleft, hplan⟩ := hs.linked.planBy_of_fixed hothers hplan
  have hleft' := hst.shape_of_kept hs ha hleft
  obtain ⟨array', rfl⟩ | ⟨params, rfl⟩ | ⟨hne, hof⟩ := planBy_cases left
  · cases hplan
    exact ⟨id, fun _ => rfl, plan_eq_ok_iff.mpr ⟨_, _, _, hleft', hb', helement, rfl⟩⟩
  · exact absurd (isFixed_of_shape hleft) hnot
  · rw [hof] at hplan
    have hab : a ≠ b := by
      rintro rfl
      exact hnot hfixed
    have htop := hs.linked.ne_top_of_shape hothers (by simp)
    obtain ⟨-, h⟩ | h | ⟨last, h, hlater⟩ := shapePlan_tuple hab htop hplan
    · cases h
    · cases h
    · cases h
      obtain ⟨hlayer, hlater⟩ := hlater t array (.generic .arrayClass [element])
      have hne' : a ≠ array := by
        rintro rfl
        rw [hleft'] at helement
        cases helement
        exact hlayer rfl
      have htop' := ht.linked.ne_top_of_shape helement (by simp)
      refine ⟨fun h => if h = b then array else h, fun h => ?_,
        plan_eq_ok_iff.mpr ⟨_, _, _, hleft', hb', helement, ?_⟩⟩
      · dsimp only
        split
        next hh => rw [hh, harray', hb']
        next => rfl
      · rw [hof, hlater rfl hne' htop', List.map_map]
        congr 3
        funext x
        simp

/-- What is below a fixed tuple at sight is nil, and it is still so when the tuple was promoted. -/
private theorem Shifts.plan_of_yes_right (ha : s.IsFixed a → t.IsFixed a) (hfixed : s.IsFixed b)
    (hlost : ¬ t.IsFixed b) (hne : a ≠ b) (hplan : s.plan a b = .ok (.answer true)) :
    t.plan a b = .ok (.answer true) := by
  obtain ⟨others, array, element, hothers, harray, helement⟩ :=
    hst.array_of_lost hs hfixed hlost
  have htop := hs.linked.ne_top_of_shape hothers (by simp)
  obtain ⟨left, hleft, hplan⟩ := hs.linked.planBy_of_fixed hothers hplan
  obtain ⟨array', rfl⟩ | ⟨params, rfl⟩ | ⟨-, hof⟩ := planBy_cases left
  · cases hplan
  · exact absurd (eq_top_of_tuplePlan (Except.ok.inj hplan)) htop
  · rw [hof] at hplan
    obtain ⟨hnil, -⟩ | h | ⟨_, h, -⟩ := shapePlan_tuple hne htop hplan
    · refine plan_eq_ok_iff.mpr ⟨left, array, _, hst.shape_of_kept hs ha hleft,
        canonical_of_promoted harray, helement, ?_⟩
      rw [hof, shapePlan, if_pos (.inr (.inr hnil))]
      rfl
    · cases h
    · cases h

/-- What a fixed tuple is below at sight is the top, and the array type of the tuple is below it
too. -/
private theorem Shifts.plan_of_yes_left (hfixed : s.IsFixed a) (hlost : ¬ t.IsFixed a)
    (hplan : s.plan a b = .ok (.answer true)) :
    ∃ array, t.plan a b = .ok (.ask false [(array, b)]) ∧
      t.plan array b = .ok (.answer true) := by
  obtain ⟨params, array, element, hparams, harray, helement⟩ :=
    hst.array_of_lost hs hfixed hlost
  obtain ⟨left, sup, right, hleft, hsup, hright, hplan⟩ := plan_eq_ok_iff.mp hplan
  rw [hparams] at hleft
  cases hleft
  obtain rfl := eq_top_of_tuplePlan (Except.ok.inj hplan)
  have hb : s.IsFixed b → t.IsFixed b := by
    intro hb
    rw [hs.linked.canonical_of_isFixed hb] at hsup
    cases hsup
    obtain ⟨others, hothers⟩ := hs.linked.shape_of_isFixed hb
    exact absurd rfl (hs.linked.ne_top_of_shape hothers (by simp))
  obtain ⟨hsup', hkeep⟩ := hst.canonical_of_kept hs hb hsup
  have hright' := hst.shape_of_kept hs hkeep hright
  refine ⟨array, plan_eq_ok_iff.mpr ⟨_, _, _, harray, hsup', hright', rfl⟩,
    plan_eq_ok_iff.mpr ⟨_, _, _, helement, hsup', hright', ?_⟩⟩
  rw [planBy, shapePlan, if_pos (.inr (.inl rfl))]
  · rfl
  · simp
  · simp

/-- A known yes stays so, though a tuple that was promoted since is first taken for its array
type. -/
theorem Shifts.plan_of_yes (hplan : s.plan a b = .ok (.answer true)) :
    t.plan a b = .ok (.answer true) ∨
      ∃ array, t.plan a b = .ok (.ask false [(array, b)]) ∧
        t.plan array b = .ok (.answer true) := by
  by_cases ha : s.IsFixed a → t.IsFixed a
  · left
    by_cases hb : s.IsFixed b → t.IsFixed b
    · exact hst.plan_of_kept hs ha hb hplan
    · obtain ⟨hfixed, hlost⟩ := Classical.not_imp.mp hb
      have hne : a ≠ b := by
        rintro rfl
        exact hlost (ha hfixed)
      exact hst.plan_of_yes_right hs ha hfixed hlost hne hplan
  · obtain ⟨hfixed, hlost⟩ := Classical.not_imp.mp ha
    exact .inr (hst.plan_of_yes_left hs hfixed hlost hplan)

end Later

end Store

end GradualTypes
