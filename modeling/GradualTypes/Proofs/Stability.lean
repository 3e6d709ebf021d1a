import GradualTypes.Proofs.Evidence

/-!
Answers that stay. A search may promote tuples while it goes on, and so may take away what an answer
rests on that it gave before. Two things can go wrong: a tuple is promoted while it is compared with
another, or a bound is broken in a question whose answer does not count in the end. If neither
happens, the search leaves evidence for its answer, and a relation that was found is found again.
-/

namespace GradualTypes

namespace Store

variable {s t u : Store} {a b c h : Handle} {answer : Bool} {depth : Nat} {kept : Handle → Prop}
  {given : Handle → Handle → Bool → Prop}
  {allowed : Store → Handle → Handle → Bool → Store → Bool}

section Watched

/-- The search that is given up at the first question that is not answered as allowed. What is
allowed may depend on the stores before and after the question. -/
def watchedWithin (allowed : Store → Handle → Handle → Bool → Store → Bool) :
    Nat → Handle → Handle → StoreM Bool
  | 0, _, _ => throw .endless
  | depth + 1, a, b => do
    let before ← get
    let answer ← belowStep (fun x y => watchedWithin allowed depth x y) a b
    if allowed before a b answer (← get) then return answer else throw .endless

def AsksOnly (s : Store) (allowed : Store → Handle → Handle → Bool → Store → Bool)
    (a b : Handle) : Prop :=
  ((watchedWithin allowed s.searchDepth a b).run' s).isSome

instance : Decidable (s.AsksOnly allowed a b) :=
  inferInstanceAs (Decidable (_ = true))

private theorem watchedWithin_run_iff :
    watchedWithin allowed (depth + 1) a b s = .ok answer t ↔
      belowStep (watchedWithin allowed depth) a b s = .ok answer t ∧
        allowed s a b answer t = true := by
  have hget : ∀ s : Store, (get : StoreM Store) s = .ok s s := fun _ => rfl
  rw [watchedWithin, bind_run (hget s), bind_run_eq_ok_iff]
  constructor
  · rintro ⟨answer', t', hstep, hrest⟩
    rw [bind_run (hget t')] at hrest
    split at hrest
    next hallowed =>
      cases hrest
      exact ⟨hstep, hallowed⟩
    next => cases hrest
  · rintro ⟨hstep, hallowed⟩
    refine ⟨answer, t, hstep, ?_⟩
    rw [bind_run (hget t), if_pos hallowed]
    rfl

private theorem watchedWithin_refines (depth : Nat) (a b : Handle) :
    Refines (watchedWithin allowed depth a b) (subtypeWithin depth a b) := by
  induction depth generalizing a b with
  | zero =>
    intro s answer t hrun
    cases hrun
  | succ depth ih =>
    intro s answer t hrun
    exact belowStep_refines ih a b (watchedWithin_run_iff.mp hrun).1

end Watched

section Evidence

/-- What must be allowed for a search to leave evidence of its answers: no bound is broken, two
tuples that are found below one another stay fixed meanwhile, and unless a no is given anyhow, the
tuples that it is about are to be kept. A tuple that is compared with an array type is promoted
before a no is found. -/
structure Guards (kept : Handle → Prop) (given : Handle → Handle → Bool → Prop)
    (allowed : Store → Handle → Handle → Bool → Store → Bool) : Prop where
  unbroken : ∀ {s t a b answer}, allowed s a b answer t → t.breaks = s.breaks
  steady : ∀ {s t a b}, allowed s a b true t → s.IsFixed a → s.IsFixed b →
    t.IsFixed a ∧ t.IsFixed b
  firm : ∀ {s t a b}, allowed s a b false t → given a b false ∨
    (s.IsFixed a → s.isArrayType b ≠ .ok true → kept a) ∧ (s.IsFixed b → kept b)

private theorem plan_of_isArrayType {params : List Handle}
    (hshape : s.shape a = .ok (.tuple params))
    (hs : s.Linked) (harray : s.isArrayType b = .ok true) :
    ∃ sup, s.plan a b = .ok (.promote sup) := by
  obtain ⟨sup, element, traits, hsup, hslot⟩ := isArrayType_eq_true_iff.mp harray
  have htop := hs.ne_top_of_slot hslot (by simp)
  refine ⟨sup, plan_eq_ok_iff.mpr ⟨_, sup, .generic .arrayClass [element], hshape, hsup,
    shape_eq_ok_iff.mpr ⟨_, hslot, rfl⟩, ?_⟩⟩
  simp [planBy, tuplePlan, htop]
  rfl

/-- A no about fixed tuples is given, or the tuples are to be kept. -/
private theorem Guards.kept_of_no (hguards : Guards kept given allowed) (hs : s.Linked)
    (hallowed : allowed s a b false t) {p : Plan} (hplan : s.plan a b = .ok p)
    (hp : ∀ sup, p ≠ .promote sup) :
    given a b false ∨ (s.IsFixed a → kept a) ∧ (s.IsFixed b → kept b) := by
  refine (hguards.firm hallowed).imp id fun ⟨ha, hb⟩ => ⟨fun hfixed => ha hfixed ?_, hb⟩
  intro harray
  obtain ⟨params, hshape⟩ := hs.shape_of_isFixed hfixed
  obtain ⟨sup, hpromote⟩ := plan_of_isArrayType hshape hs harray
  rw [hplan] at hpromote
  cases hpromote
  exact hp sup rfl

private theorem Retains.move_recorded {params others : List Handle} (hst : s.Retains t)
    (hleft : s.shape a = .ok (.tuple params)) (hright : s.shape b = .ok (.tuple others))
    (hlength : params.length = others.length) : Move t (t.recorded a b) := by
  obtain ⟨_, _, _, -, -, hslot, -⟩ := slot_of_shape_tuple hleft
  obtain ⟨_, _, _, -, -, hslot', -⟩ := slot_of_shape_tuple hright
  have hlower := arity?_of_slot (hst.slots hslot)
  have hupper := arity?_of_slot (hst.slots hslot')
  rw [← hlength] at hupper
  exact .bound hlower hupper

section Steps

variable {below : Handle → Handle → StoreM Bool} {questions : List (Handle × Handle)}
  (hguards : Guards kept given allowed) (hbelow : Upholds kept given below) (hs : s.WellFormed)
  (hallowed : allowed s a b answer t)
include hguards hs hallowed

private theorem Guards.upheld_known {holds : Bool} (hplan : s.plan a b = .ok (.answer holds))
    (hrun : (Plan.answer holds).run below a s = .ok answer t) :
    Upheld kept given s a b answer t := by
  cases hrun
  refine ⟨.refl, fun _ => ⟨.refl _, ?_⟩⟩
  cases answer with
  | true => exact .known hplan (by simp)
  | false =>
    obtain hgiven | hkept := hguards.kept_of_no hs.linked hallowed hplan (by simp)
    · exact .given hgiven
    · exact .known hplan fun _ => hkept

include hbelow

/-- Two tuples that are found below one another have stayed fixed, so that they record it. -/
private theorem Guards.upheld_compare (hplan : s.plan a b = .ok (.compare b questions))
    (hrun : (Plan.compare b questions).run below a s = .ok answer t) :
    Upheld kept given s a b answer t := by
  obtain ⟨-, params, others, hleft, hright, hlength, -⟩ := hs.linked.plan_compare hplan
  have hleft' := isFixed_of_shape hleft
  have hright' := isFixed_of_shape hright
  obtain ⟨holds, m, hasked, hrest⟩ := bind_run_eq_ok_iff.mp hrun
  obtain ⟨hsm, hanswered⟩ := hbelow.askUntil hs (hs.contains_of_asked hplan) hasked
  cases holds with
  | true =>
    have hend : EStateM.Result.ok true (m.recorded a b) = .ok answer t := hrest
    obtain ⟨rfl, rfl⟩ := EStateM.Result.ok.inj hend
    have hm := hsm.settles hs
    have hmt : Moves m (m.recorded a b) :=
      .single (hm.toRetains.move_recorded hleft hright hlength)
    refine ⟨hsm.trans hmt, fun hlasts => ?_⟩
    have halike := alike_recorded m a b
    have hrecord : Preserves kept given m (m.recorded a b) :=
      hmt.preserves_of_kept hm.wellFormed (fun h hfixed => halike.isFixed_iff.mpr hfixed) hlasts
    obtain ⟨hpreserves, ⟨-, hall⟩ | ⟨hfalse, -⟩⟩ := hanswered (hlasts.before hm.wellFormed hmt)
    · obtain ⟨ha', hb'⟩ := hguards.steady hallowed hleft' hright'
      refine ⟨hpreserves.trans hrecord, .compared
        ((hsm.trans hmt).shifts.plan_of_kept hs (fun _ => ha') (fun _ => hb') hplan) ⟨?_, ?_⟩
        fun question hquestion => hrecord (fun _ _ _ h => h) (hall question hquestion)⟩
      · rw [hm.wellFormed.linked.upperBounds_recorded, if_pos ⟨rfl, halike.isFixed_iff.mp ha'⟩]
        exact mem_enter.mpr (.inr rfl)
      · rw [hm.wellFormed.linked.lowerBounds_recorded, if_pos ⟨rfl, halike.isFixed_iff.mp hb'⟩]
        exact mem_enter.mpr (.inr rfl)
    · cases hfalse
  | false =>
    cases hrest
    refine ⟨hsm, fun hlasts => ?_⟩
    obtain ⟨hpreserves, ⟨htrue, -⟩ | ⟨-, before, question, after, rfl, hbefore, hlast⟩⟩ :=
      hanswered hlasts
    · cases htrue
    refine ⟨hpreserves, ?_⟩
    obtain hgiven | ⟨ha', hb'⟩ := hguards.kept_of_no hs.linked hallowed hplan (by simp)
    · exact .given hgiven
    · have hfixed : ∀ {h}, kept h → s.IsFixed h → t.IsFixed h := hsm.isFixed_of_kept hs hlasts
      exact .differ (hsm.shifts.plan_of_kept hs (hfixed (ha' hleft')) (hfixed (hb' hright')) hplan)
        ⟨ha' hleft', hb' hright'⟩ hbefore hlast

/-- A tuple that is promoted without breaking a bound is compared by its array type. -/
private theorem Guards.upheld_promote {sup : Handle} (hplan : s.plan a b = .ok (.promote sup))
    (hrun : (Plan.promote sup).run below a s = .ok answer t) :
    Upheld kept given s a b answer t := by
  obtain ⟨params, element, hleft, hsup, hright⟩ := plan_promote hplan
  have ha := Linked.contains_of_shape hleft
  have hsup' := Linked.contains_of_shape hright
  obtain ⟨consistent, m, hpromote, hrest⟩ := bind_run_eq_ok_iff.mp hrun
  obtain ⟨holds, u, hagain, hend⟩ := bind_run_eq_ok_iff.mp hrest
  obtain ⟨rfl, rfl⟩ := EStateM.Result.ok.inj hend
  obtain ⟨hsm, hconsistent⟩ := hbelow.promoteBy hs hleft hpromote
  have hm := hsm.settles hs
  obtain ⟨hmt, hfound⟩ := hbelow hm.wellFormed (hm.contains ha) (hm.contains hsup') hagain
  have hst := hsm.trans hmt
  refine ⟨hst, fun hlasts => ?_⟩
  cases consistent with
  | false =>
    -- the broken bound has been reported
    have hlt : s.breaks < m.breaks := hconsistent
    have hle := hmt.breaks_le hm.wellFormed
    have heq := hguards.unbroken hallowed
    omega
  | true =>
    obtain ⟨hpreserves, hevidence⟩ := hfound hlasts
    refine ⟨(hconsistent (hlasts.before hm.wellFormed hmt)).trans hpreserves, ?_⟩
    have hsame : s.canonical sup = s.canonical b :=
      (canonical_of_shape hright (by simp)).trans hsup.symm
    rw [Bool.and_true]
    exact .right ((hst.settles hs).contains hsup') (hst.shifts.canonical_congr hs hsup' hsame)
      hevidence

/-- One step of the search leaves evidence if the questions that it asks do. -/
private theorem Guards.upheld_belowStep (ha : s.contains a) (hb : s.contains b)
    (hrun : belowStep below a b s = .ok answer t) : Upheld kept given s a b answer t := by
  obtain ⟨p, hplan⟩ := hs.exists_plan ha hb
  rw [hs.belowStep_run hplan] at hrun
  cases p with
  | answer holds => exact hguards.upheld_known hs hallowed hplan hrun
  | ask last questions =>
    obtain ⟨hst, hanswered⟩ := hbelow.askUntil hs (hs.contains_of_asked hplan) hrun
    exact ⟨hst, fun hlasts => ⟨(hanswered hlasts).1,
      hst.evidence_of_ask hs hplan (hanswered hlasts).2⟩⟩
  | compare upper questions =>
    obtain ⟨rfl, -⟩ := hs.linked.plan_compare hplan
    exact hguards.upheld_compare hbelow hs hallowed hplan hrun
  | promote sup => exact hguards.upheld_promote hbelow hs hallowed hplan hrun

end Steps

/-- A search whose questions are answered as allowed leaves evidence for its answer. -/
theorem Guards.upholds (hguards : Guards kept given allowed) (depth : Nat) :
    Upholds kept given (watchedWithin allowed depth) := by
  induction depth with
  | zero =>
    intro s t a b answer _ _ _ hrun
    cases hrun
  | succ depth ih =>
    intro s t a b answer hs ha hb hrun
    obtain ⟨hstep, hallowed⟩ := watchedWithin_run_iff.mp hrun
    exact hguards.upheld_belowStep ih hs hallowed ha hb hstep

end Evidence

section Again

variable {below : Handle → Handle → StoreM Bool} {last : Bool} {question : Handle × Handle}
  {before after questions : List (Handle × Handle)}

private theorem askUntil_of_all
    (hall : ∀ question ∈ questions, below question.1 question.2 s = .ok (!last) s) :
    askUntil below last questions s = .ok (!last) s := by
  induction questions with
  | nil => rfl
  | cons question questions ih =>
    obtain ⟨hfirst, hrest⟩ := List.forall_mem_cons.mp hall
    rw [askUntil, bind_run hfirst, if_neg (by simp)]
    exact ih hrest

private theorem askUntil_of_stop
    (hbefore : ∀ question ∈ before, below question.1 question.2 s = .ok (!last) s)
    (hlast : below question.1 question.2 s = .ok last s) :
    askUntil below last (before ++ question :: after) s = .ok last s := by
  induction before with
  | nil =>
    rw [List.nil_append, askUntil, bind_run hlast, if_pos rfl]
    rfl
  | cons first before ih =>
    obtain ⟨hfirst, hrest⟩ := List.forall_mem_cons.mp hbefore
    rw [List.cons_append, askUntil, bind_run hfirst, if_neg (by simp)]
    exact ih hrest

private theorem exists_depth
    (hall : ∀ question ∈ questions, ∃ depth,
      subtypeWithin depth question.1 question.2 s = .ok answer s) :
    ∃ depth, ∀ question ∈ questions,
      subtypeWithin depth question.1 question.2 s = .ok answer s := by
  induction questions with
  | nil => exact ⟨0, by simp⟩
  | cons question questions ih =>
    obtain ⟨⟨depth, hfirst⟩, hrest⟩ := List.forall_mem_cons.mp hall
    obtain ⟨depth', hrest⟩ := ih hrest
    refine ⟨max depth depth', List.forall_mem_cons.mpr ⟨?_, fun question' hquestion' => ?_⟩⟩
    · exact subtypeWithin_refines (le_max_left _ _) _ _ hfirst
    · exact subtypeWithin_refines (le_max_right _ _) _ _ (hrest question' hquestion')

private theorem exists_askUntil_of_stop
    (hbefore : ∀ question ∈ before, ∃ depth,
      subtypeWithin depth question.1 question.2 s = .ok (!last) s)
    (hlast : ∃ depth, subtypeWithin depth question.1 question.2 s = .ok last s) :
    ∃ depth, askUntil (subtypeWithin depth) last (before ++ question :: after) s = .ok last s := by
  obtain ⟨depth, hbefore⟩ := exists_depth hbefore
  obtain ⟨depth', hlast⟩ := hlast
  refine ⟨max depth depth', askUntil_of_stop (fun question' hquestion' => ?_) ?_⟩
  · exact subtypeWithin_refines (le_max_left _ _) _ _ (hbefore question' hquestion')
  · exact subtypeWithin_refines (le_max_right _ _) _ _ hlast

private theorem withState_eq_self {change : TupleState → TupleState}
    (hkeep : ∀ state, s.tupleState? h = some state → change state = state) :
    s.withState h change = s := by
  obtain heq | ⟨slot, entry, hslot, hentry, heq⟩ := withState_cases s h change
  · exact heq
  · have hstates : s.states.modify entry change = s.states := by
      apply Array.ext_getElem?
      intro i
      rw [Array.getElem?_modify]
      split
      next hi =>
        subst hi
        cases hstate : s.states[entry]? with
        | none => rfl
        | some state =>
          have htuple : s.tupleState? h = some state := by simp [tupleState?, hslot, hentry, hstate]
          rw [Option.map_some, hkeep state htuple]
      next => rfl
    rw [heq, hstates]

/-- A bound that is recorded is not recorded again. -/
private theorem recorded_eq_self (hrecorded : b ∈ s.upperBounds a ∧ a ∈ s.lowerBounds b) :
    s.recorded a b = s := by
  have hupper : s.withState a (·.addUpper b) = s := by
    refine withState_eq_self fun state hstate => ?_
    have hb := hrecorded.1
    rw [upperBounds, hstate] at hb
    cases state with
    | fixed upper lower => exact congrArg (TupleState.fixed · lower) (if_pos hb)
    | promoted array => rfl
  have hlower : s.withState b (·.addLower a) = s := by
    refine withState_eq_self fun state hstate => ?_
    have ha := hrecorded.2
    rw [lowerBounds, hstate] at ha
    cases state with
    | fixed upper lower => exact congrArg (TupleState.fixed upper) (if_pos ha)
    | promoted array => rfl
  rw [recorded, hupper, hlower]

/-- An answer for which there is evidence is given again, and the store is left as it is. -/
theorem Evidence.exists_run (hs : s.WellFormed)
    (hevidence : Evidence s kept (fun _ _ _ => False) a b answer) :
    ∃ depth, subtypeWithin depth a b s = .ok answer s := by
  induction hevidence with
  | given hgiven => exact hgiven.elim
  | right hb hsame _ ih =>
    obtain ⟨depth, hrun⟩ := ih
    exact ⟨depth, (subtypeWithin_canonical hsame).symm.trans hrun⟩
  | known hplan _ =>
    refine ⟨1, ?_⟩
    rw [subtypeWithin, hs.belowStep_run hplan]
    rfl
  | asked hplan _ ih =>
    obtain ⟨depth, hall⟩ := exists_depth ih
    refine ⟨depth + 1, ?_⟩
    rw [subtypeWithin, hs.belowStep_run hplan]
    exact askUntil_of_all hall
  | stopped hplan _ _ ih ih' =>
    obtain ⟨depth, hstop⟩ := exists_askUntil_of_stop ih ih'
    refine ⟨depth + 1, ?_⟩
    rw [subtypeWithin, hs.belowStep_run hplan]
    exact hstop
  | @compared a b questions hplan hrecorded _ ih =>
    obtain ⟨depth, hall⟩ := exists_depth ih
    refine ⟨depth + 1, ?_⟩
    rw [subtypeWithin, hs.belowStep_run hplan, Plan.run, bind_run (askUntil_of_all hall)]
    change EStateM.Result.ok true (s.recorded a b) = _
    rw [recorded_eq_self hrecorded]
  | differ hplan _ _ _ ih ih' =>
    obtain ⟨depth, hstop⟩ := exists_askUntil_of_stop ih ih'
    refine ⟨depth + 1, ?_⟩
    rw [subtypeWithin, hs.belowStep_run hplan, Plan.run, bind_run hstop]
    rfl

end Again

section Found

variable {below : Handle → Handle → StoreM Bool} {last : Bool} {questions : List (Handle × Handle)}

def Finds (kept : Handle → Prop) (given : Handle → Handle → Bool → Prop)
    (below : Handle → Handle → StoreM Bool) : Prop :=
  ∀ ⦃s t a b answer⦄, WellFormed s → s.contains a → s.contains b →
    Evidence s kept given a b true → below a b s = .ok answer t → answer = true

/-- Of the right type a plan sees only what it stands for. It is handed on by a promoted tuple. -/
theorem plan_congr {p : Plan} (hsame : s.canonical b = s.canonical c)
    (hplan : s.plan a b = .ok p) :
    s.plan a c = .ok p ∨ ∃ array, p = .ask false [(array, b)] ∧
      s.plan a c = .ok (.ask false [(array, c)]) := by
  obtain ⟨left, sup, right, hleft, hsup, hright, hplan⟩ := plan_eq_ok_iff.mp hplan
  have hsup' := hsame.symm.trans hsup
  obtain ⟨array, rfl⟩ | ⟨params, rfl⟩ | ⟨-, hof⟩ := planBy_cases left
  · cases hplan
    exact .inr ⟨array, rfl, plan_eq_ok_iff.mpr ⟨_, _, _, hleft, hsup', hright, rfl⟩⟩
  · exact .inl (plan_eq_ok_iff.mpr ⟨_, _, _, hleft, hsup', hright, hplan⟩)
  · rw [hof] at hplan
    exact .inl (plan_eq_ok_iff.mpr ⟨_, _, _, hleft, hsup', hright, (hof ..).trans hplan⟩)

variable (hbelow : Upholds kept given below) (hfinds : Finds kept given below)
  (hkept : ∀ h, ¬ kept h)
include hbelow hfinds hkept

private theorem askUntil_of_evidence (hs : s.WellFormed)
    (hquestions : ∀ question ∈ questions, s.contains question.1 ∧ s.contains question.2)
    (hrun : askUntil below last questions s = .ok answer t)
    (hevidence : if last then
        ∃ question ∈ questions, Evidence s kept given question.1 question.2 true
      else ∀ question ∈ questions, Evidence s kept given question.1 question.2 true) :
    answer = true := by
  induction questions generalizing s with
  | nil =>
    cases hrun
    cases last with
    | true => simp at hevidence
    | false => rfl
  | cons question questions ih =>
    obtain ⟨hquestion, hquestions⟩ := List.forall_mem_cons.mp hquestions
    obtain ⟨first, m, hfirst, hrest⟩ := bind_run_eq_ok_iff.mp hrun
    obtain ⟨hsm, hfound⟩ := hbelow hs hquestion.1 hquestion.2 hfirst
    have hpreserves := (hfound fun h hh => absurd hh (hkept h)).1
    have hm := hsm.settles hs
    have hcontains : ∀ question ∈ questions, m.contains question.1 ∧ m.contains question.2 :=
      fun question' hquestion' => ⟨hm.contains (hquestions question' hquestion').1,
        hm.contains (hquestions question' hquestion').2⟩
    have hyes : Evidence s kept given question.1 question.2 true → first = true := fun h =>
      hfinds hs hquestion.1 hquestion.2 h hfirst
    cases last with
    | true =>
      cases first with
      | true =>
        cases hrest
        rfl
      | false =>
        refine ih hm.wellFormed hcontains hrest ?_
        obtain ⟨question', hquestion', h⟩ := hevidence
        obtain rfl | hquestion' := List.mem_cons.mp hquestion'
        · cases hyes h
        · exact ⟨question', hquestion', hpreserves (fun _ _ _ h => h) h⟩
    | false =>
      obtain ⟨h, hrest'⟩ := List.forall_mem_cons.mp hevidence
      obtain rfl := hyes h
      exact ih hm.wellFormed hcontains hrest fun question' hquestion' =>
        hpreserves (fun _ _ _ h => h) (hrest' question' hquestion')

/-- One step of the search finds what there is evidence for. -/
private theorem belowStep_of_evidence (hgiven : ∀ x y, ¬ given x y true) (hs : s.WellFormed)
    (hevidence : Evidence s kept given a b true) (hsame : s.canonical b = s.canonical c)
    (hrun : belowStep below a c s = .ok answer t) : answer = true := by
  generalize hyes : true = found at hevidence
  induction hevidence with
  | given h =>
    subst hyes
    exact absurd h (hgiven _ _)
  | right _ hsame' _ ih => exact ih (hsame'.trans hsame) hrun hyes
  | known hplan _ =>
    subst hyes
    obtain hplan' | ⟨array, h, -⟩ := plan_congr hsame hplan
    · rw [hs.belowStep_run hplan'] at hrun
      cases hrun
      rfl
    · cases h
  | @asked a b last questions hplan hall _ =>
    obtain rfl : last = false := by simpa using hyes.symm
    obtain hplan' | ⟨array, h, hplan'⟩ := plan_congr hsame hplan
    · rw [hs.belowStep_run hplan'] at hrun
      exact askUntil_of_evidence hbelow hfinds hkept hs (hs.contains_of_asked hplan') hrun hall
    · cases h
      rw [hs.belowStep_run hplan'] at hrun
      refine askUntil_of_evidence hbelow hfinds hkept hs (hs.contains_of_asked hplan') hrun ?_
      intro question hquestion
      obtain rfl := List.mem_singleton.mp hquestion
      exact .right (contains_of_plan hplan).2 hsame (hall (array, b) List.mem_cons_self)
  | stopped hplan _ hlast _ _ =>
    subst hyes
    obtain hplan' | ⟨array, h, -⟩ := plan_congr hsame hplan
    · rw [hs.belowStep_run hplan'] at hrun
      exact askUntil_of_evidence hbelow hfinds hkept hs (hs.contains_of_asked hplan') hrun
        ⟨_, List.mem_append_right _ List.mem_cons_self, hlast⟩
    · cases h
  | @compared a b questions hplan hrecorded hall _ =>
    obtain hplan' | ⟨array, h, -⟩ := plan_congr hsame hplan
    · rw [hs.belowStep_run hplan'] at hrun
      obtain ⟨holds, m, hasked, hrest⟩ := bind_run_eq_ok_iff.mp hrun
      obtain rfl := askUntil_of_evidence hbelow hfinds hkept hs (hs.contains_of_asked hplan') hasked
        hall
      cases hrest
      rfl
    · cases h
  | differ => cases hyes

end Found

/-- A search whose questions are answered as allowed finds what there is evidence for. -/
theorem Guards.finds (hguards : Guards kept given allowed) (hkept : ∀ h, ¬ kept h)
    (hgiven : ∀ x y, ¬ given x y true) (depth : Nat) :
    Finds kept given (watchedWithin allowed depth) := by
  induction depth with
  | zero =>
    intro s t a b answer _ _ _ _ hrun
    cases hrun
  | succ depth ih =>
    intro s t a b answer hs ha hb hevidence hrun
    exact belowStep_of_evidence (hguards.upholds depth) ih hkept hgiven hs hevidence rfl
      (watchedWithin_run_iff.mp hrun).1

section Conditions

/-- A question is answered undisturbed if no bound is broken meanwhile, and if two fixed tuples that
are found below one another are still fixed then. -/
def undisturbed (before : Store) (a b : Handle) (answer : Bool) (after : Store) : Bool :=
  after.breaks = before.breaks ∧
    (answer = true → before.IsFixed a → before.IsFixed b → after.IsFixed a ∧ after.IsFixed b)

/-- A question is answered for good if it is answered undisturbed, and if a no is about tuples that
are fixed even in the store in which the search ends. A fixed tuple that is asked to be below an
array type is an array type when the answer is given. -/
def lasting (final before : Store) (a b : Handle) (answer : Bool) (after : Store) : Bool :=
  undisturbed before a b answer after ∧
    (answer = false →
      (before.IsFixed a → before.isArrayType b ≠ .ok true → final.IsFixed a) ∧
        (before.IsFixed b → final.IsFixed b))

private theorem guards_undisturbed :
    Guards (fun _ => False) (fun _ _ answer => answer = false) undisturbed where
  unbroken hallowed := (of_decide_eq_true hallowed).1
  steady hallowed := (of_decide_eq_true hallowed).2 rfl
  firm _ := .inl rfl

private theorem guards_lasting (final : Store) :
    Guards final.IsFixed (fun _ _ _ => False) (lasting final) where
  unbroken hallowed := (of_decide_eq_true (of_decide_eq_true hallowed).1).1
  steady hallowed := (of_decide_eq_true (of_decide_eq_true hallowed).1).2 rfl
  firm hallowed := .inr ((of_decide_eq_true hallowed).2 rfl)

/-- A search that is allowed all its questions is the search itself. -/
theorem AsksOnly.run (hasks : s.AsksOnly allowed a b) (hrun : Store.subtype a b s = .ok answer t) :
    watchedWithin allowed s.searchDepth a b s = .ok answer t := by
  obtain ⟨answer', hanswer⟩ := Option.isSome_iff_exists.mp hasks
  obtain ⟨t', hwatched⟩ := exists_run_of_run' hanswer
  rw [subtype_run, watchedWithin_refines _ a b hwatched] at hrun
  rw [hwatched, hrun]

/-- The store in which the components of two types are compared: a fixed tuple is promoted before it
is compared with an array type. -/
def prepared (s : Store) (a b : Handle) : Store :=
  if s.isArrayType b = .ok true then (Operation.promote a).apply s else s

/-- A found relation is found again from the store in which the components are compared. -/
theorem WellFormed.subtype_prepared (hs : s.WellFormed) (ha : s.contains a) (hb : s.contains b)
    (hrun : Store.subtype a b s = .ok true t) :
    (s.prepared a b).WellFormed ∧ s.Retains (s.prepared a b) ∧
      Store.subtype a b (s.prepared a b) = .ok true t := by
  rw [prepared]
  split
  next harray =>
    obtain ⟨shape, hshape⟩ := hs.linked.exists_shape ha
    have hleft : ∀ {m}, Store.promote a s = .ok true m → Store.subtype a b m = .ok true t →
        ((Operation.promote a).apply s).WellFormed ∧ s.Retains ((Operation.promote a).apply s) ∧
          Store.subtype a b ((Operation.promote a).apply s) = .ok true t := by
      intro m hpromote hagain
      have hsettles := ((promote_returns hs ha).of_run hpromote).settles hs
      rw [apply_promote hpromote]
      exact ⟨hsettles.wellFormed, hsettles.toRetains, hagain⟩
    cases shape with
    | tuple params =>
      obtain ⟨m, hpromote, hagain⟩ := hs.subtype_of_promoted hb hshape harray hrun
      exact hleft hpromote hagain
    | _ =>
      refine hleft (m := s) ?_ hrun
      rw [promote_run, promoteBy, bind_run (ask_run hshape)]
      rfl
  next => exact ⟨hs, .refl s, hrun⟩

end Conditions

end Store

/-- In a reachable store a relation that was found is found again, tuples included and whatever was
promoted on the way, if both searches go undisturbed: they break no bound, and promote no tuple
while it is found below another or above it. The first search alone decides the matter if moreover
it promotes no tuple later of which it has found that it is not below another type or not above it.
Then the second search finds the relation as well, and leaves the store as it is. Either way, a
fixed tuple is promoted before it is compared with an array type, and this need not be watched. -/
theorem Reachable.subtype_stable {s t : Store} {a b : Handle} (hs : Reachable s)
    (ha : s.contains a) (hb : s.contains b) (hrun : Store.subtype a b s = .ok true t)
    (hfirst : (s.prepared a b).AsksOnly Store.undisturbed a b) :
    (t.AsksOnly Store.undisturbed a b → ∃ u, Store.subtype a b t = .ok true u) ∧
      ((s.prepared a b).AsksOnly (Store.lasting t) a b → Store.subtype a b t = .ok true t) := by
  obtain ⟨hprepared, hretains, hrun'⟩ := hs.wellFormed.subtype_prepared ha hb hrun
  have ha' := hretains.contains ha
  have hb' := hretains.contains hb
  have ht := ((Store.subtype_moves hprepared ha' hb').of_run hrun').settles hprepared
  refine ⟨fun hsecond => ?_, fun hlasting => ?_⟩
  · have hevidence := ((Store.guards_undisturbed.upholds _ hprepared ha' hb'
      (hfirst.run hrun')).2 (fun _ hkept => hkept.elim)).2
    obtain ⟨answer, u, hagain, -⟩ :=
      Store.subtype_returns ht.wellFormed (ht.contains ha') (ht.contains hb')
    obtain rfl := Store.guards_undisturbed.finds (fun _ => id) (by simp) _ ht.wellFormed
      (ht.contains ha') (ht.contains hb') hevidence (hsecond.run hagain)
    exact ⟨u, hagain⟩
  · have hlasts : Store.Lasts t.IsFixed t := by
      rintro h hfixed ⟨array, hpromoted⟩
      exact Store.not_isFixed_of_promoted hpromoted hfixed
    have hevidence := (((Store.guards_lasting t).upholds _ hprepared ha' hb'
      (hlasting.run hrun')).2 hlasts).2
    obtain ⟨depth, hagain⟩ := hevidence.exists_run ht.wellFormed
    exact Store.subtype_eq_of_within ht.wellFormed (ht.contains ha') (ht.contains hb') hagain

/-- A tuple of two tuples, the second of which stands in a union, and a tuple of two array types. -/
def boxedStore : Store :=
  .after [.nominal "Integer", .tuple [⟨5⟩], .tuple [⟨5⟩, ⟨5⟩], .union [⟨6⟩, ⟨7⟩], .array ⟨5⟩,
    .tuple [⟨6⟩, ⟨8⟩], .tuple [⟨9⟩, ⟨9⟩]]

/-- In `boxedStore` the one tuple is found below the other, and both tuples inside of it are
promoted on the way. It is found again, and nothing changes any more. -/
theorem boxedStore_subtype_stable :
    let t := (Operation.subtype ⟨10⟩ ⟨11⟩).apply boxedStore
    Reachable boxedStore ∧ boxedStore.contains ⟨10⟩ ∧ boxedStore.contains ⟨11⟩ ∧
      Store.subtype ⟨10⟩ ⟨11⟩ boxedStore = .ok true t ∧
      t.isPromoted ⟨6⟩ = .ok true ∧ t.isPromoted ⟨7⟩ = .ok true ∧
      (boxedStore.prepared ⟨10⟩ ⟨11⟩).AsksOnly Store.undisturbed ⟨10⟩ ⟨11⟩ ∧
      t.AsksOnly Store.undisturbed ⟨10⟩ ⟨11⟩ ∧
      (boxedStore.prepared ⟨10⟩ ⟨11⟩).AsksOnly (Store.lasting t) ⟨10⟩ ⟨11⟩ ∧
      (∃ u, Store.subtype ⟨10⟩ ⟨11⟩ t = .ok true u) ∧ Store.subtype ⟨10⟩ ⟨11⟩ t = .ok true t := by
  intro t
  have hs : Reachable boxedStore := .after (by decide)
  have hleft : boxedStore.contains ⟨10⟩ := by decide +kernel
  have hright : boxedStore.contains ⟨11⟩ := by decide +kernel
  have hrun : Store.subtype ⟨10⟩ ⟨11⟩ boxedStore = .ok true t :=
    Operation.run_eq_apply rfl (by decide +kernel)
  have hfirst : (boxedStore.prepared ⟨10⟩ ⟨11⟩).AsksOnly Store.undisturbed ⟨10⟩ ⟨11⟩ := by
    decide +kernel
  have hsecond : t.AsksOnly Store.undisturbed ⟨10⟩ ⟨11⟩ := by decide +kernel
  have hlasting : (boxedStore.prepared ⟨10⟩ ⟨11⟩).AsksOnly (Store.lasting t) ⟨10⟩ ⟨11⟩ := by
    decide +kernel
  obtain ⟨hagain, hagain'⟩ := Reachable.subtype_stable hs hleft hright hrun hfirst
  exact ⟨hs, hleft, hright, hrun, by decide +kernel, by decide +kernel, hfirst, hsecond, hlasting,
    hagain hsecond, hagain' hlasting⟩

/-- Pairs of which the first begins with a pair that it was found below; an intersection of a tuple
and an annotated array type beside that tuple; and an intersection of two tuples of tuples. -/
def disturbedStore : Store :=
  .after [.tuple [.top, .top], .tuple [⟨5⟩, .top], .array .top, .tuple [⟨7⟩, .top],
    .subtype ⟨6⟩ ⟨5⟩,
    .nominal "Integer", .nominal "String", .nominal "Object", .array ⟨9⟩,
    .tuple [⟨10⟩], .tuple [⟨11⟩], .annotated "values" ⟨12⟩, .intersection [⟨13⟩, ⟨15⟩],
    .tuple [⟨13⟩, ⟨16⟩], .tuple [⟨14⟩, ⟨12⟩],
    .tuple [⟨9⟩], .tuple [⟨10⟩], .tuple [⟨11⟩], .tuple [⟨9⟩], .tuple [⟨12⟩, ⟨20⟩, .top],
    .tuple [⟨22⟩, ⟨19⟩, ⟨20⟩], .tuple [⟨19⟩, ⟨12⟩, ⟨21⟩], .intersection [⟨23⟩, ⟨24⟩]]

/-- Each condition is needed: without it an answer may be lost, so that the first one is yes and the
second is no. First, the element of a tuple is promoted, and with it the tuple that was found below
it, while that is still being compared. Second, a bound is broken that was found for the first
elements of two tuples, but an intersection beside has another member that is below. Third, the
first search goes undisturbed, but promotes a tuple of which it had found that it is not below
another. -/
theorem disturbedStore_subtype_lost :
    Reachable disturbedStore ∧
      (∀ pair ∈ [((⟨6⟩, ⟨8⟩) : Handle × Handle), (⟨17⟩, ⟨18⟩), (⟨26⟩, ⟨25⟩)],
        disturbedStore.contains pair.1 ∧ disturbedStore.contains pair.2 ∧
        ∃ t u, Store.subtype pair.1 pair.2 disturbedStore = .ok true t ∧
          Store.subtype pair.1 pair.2 t = .ok false u) ∧
      disturbedStore.AsksOnly Store.undisturbed ⟨26⟩ ⟨25⟩ := by
  have hlost : ∀ pair ∈ [((⟨6⟩, ⟨8⟩) : Handle × Handle), (⟨17⟩, ⟨18⟩), (⟨26⟩, ⟨25⟩)],
      disturbedStore.contains pair.1 ∧ disturbedStore.contains pair.2 ∧
      (Store.subtype pair.1 pair.2).run' disturbedStore = some true ∧
      (Store.subtype pair.1 pair.2 >>= fun _ => Store.subtype pair.1 pair.2).run' disturbedStore =
        some false := by decide +kernel
  refine ⟨.after (by decide), fun pair hpair => ?_, by decide +kernel⟩
  obtain ⟨hleft, hright, hanswer, hanswer'⟩ := hlost pair hpair
  obtain ⟨t, hrun⟩ := exists_run_of_run' hanswer
  obtain ⟨u, hboth⟩ := exists_run_of_run' hanswer'
  exact ⟨hleft, hright, t, u, hrun, (bind_run hrun).symm.trans hboth⟩

end GradualTypes
