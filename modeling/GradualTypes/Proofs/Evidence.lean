import GradualTypes.Proofs.Plans

/-!
What stands behind the answers of a search. An answer about two types rests on answers about the
types that were asked for on the way, and on the tuples that were fixed when it was given. Evidence
for an answer says so without a run: every answer in it is what the plan makes of the answers below,
in one and the same store. Evidence survives the moves of a search as long as each promotion finds
all bounds of its tuple confirmed.
-/

namespace GradualTypes

namespace Store

variable {s t u : Store} {a b c h : Handle} {answer last : Bool} {kept : Handle → Prop}
  {given given' : Handle → Handle → Bool → Prop} {questions : List (Handle × Handle)}

/-- Evidence in a store that two types compare as the answer says. A yes about two fixed tuples is
recorded by both. A no about fixed tuples counts only if these are kept from promotion. Answers that
are given need no further evidence. -/
inductive Evidence (s : Store) (kept : Handle → Prop) (given : Handle → Handle → Bool → Prop) :
    Handle → Handle → Bool → Prop where
  | given {a b : Handle} {answer : Bool} (hgiven : given a b answer) :
      Evidence s kept given a b answer
  | right {a b c : Handle} {answer : Bool} (hb : s.contains b)
      (hsame : s.canonical b = s.canonical c) (h : Evidence s kept given a b answer) :
      Evidence s kept given a c answer
  | known {a b : Handle} {answer : Bool} (hplan : s.plan a b = .ok (.answer answer))
      (hkept : answer = false → (s.IsFixed a → kept a) ∧ (s.IsFixed b → kept b)) :
      Evidence s kept given a b answer
  | asked {a b : Handle} {last : Bool} {questions : List (Handle × Handle)}
      (hplan : s.plan a b = .ok (.ask last questions))
      (hall : ∀ question ∈ questions, Evidence s kept given question.1 question.2 !last) :
      Evidence s kept given a b !last
  | stopped {a b : Handle} {last : Bool} {before after : List (Handle × Handle)}
      {question : Handle × Handle}
      (hplan : s.plan a b = .ok (.ask last (before ++ question :: after)))
      (hbefore : ∀ question ∈ before, Evidence s kept given question.1 question.2 !last)
      (hlast : Evidence s kept given question.1 question.2 last) : Evidence s kept given a b last
  | compared {a b : Handle} {questions : List (Handle × Handle)}
      (hplan : s.plan a b = .ok (.compare b questions))
      (hrecorded : b ∈ s.upperBounds a ∧ a ∈ s.lowerBounds b)
      (hall : ∀ question ∈ questions, Evidence s kept given question.1 question.2 true) :
      Evidence s kept given a b true
  | differ {a b : Handle} {before after : List (Handle × Handle)} {question : Handle × Handle}
      (hplan : s.plan a b = .ok (.compare b (before ++ question :: after)))
      (hkept : kept a ∧ kept b)
      (hbefore : ∀ question ∈ before, Evidence s kept given question.1 question.2 true)
      (hlast : Evidence s kept given question.1 question.2 false) : Evidence s kept given a b false

namespace Evidence

/-- Evidence may be put in the place of answers that were given. -/
theorem cut (hevidence : Evidence s kept given a b answer)
    (hgiven : ∀ x y r, given x y r → Evidence s kept given' x y r) :
    Evidence s kept given' a b answer := by
  induction hevidence with
  | given h => exact hgiven _ _ _ h
  | right hb hsame _ ih => exact .right hb hsame ih
  | known hplan hkept => exact .known hplan hkept
  | asked hplan _ ih => exact .asked hplan ih
  | stopped hplan _ _ ih ih' => exact .stopped hplan ih ih'
  | compared hplan hrecorded _ ih => exact .compared hplan hrecorded ih
  | differ hplan hkept _ _ ih ih' => exact .differ hplan hkept ih ih'

theorem mono (hevidence : Evidence s kept given a b answer)
    (hgiven : ∀ x y r, given x y r → given' x y r) : Evidence s kept given' a b answer :=
  hevidence.cut fun x y r h => .given (hgiven x y r h)

end Evidence

/-- How questions that are asked in a row were answered: all by the opposite of `last`, or so up to
one that was answered by `last`. -/
def Answered (found : Handle → Handle → Bool → Prop) (last : Bool)
    (questions : List (Handle × Handle)) (answer : Bool) : Prop :=
  answer = !last ∧ (∀ question ∈ questions, found question.1 question.2 !last) ∨
    answer = last ∧ ∃ before question after, questions = before ++ question :: after ∧
      (∀ question ∈ before, found question.1 question.2 !last) ∧ found question.1 question.2 last

private theorem Answered.cons {found : Handle → Handle → Bool → Prop} {question : Handle × Handle}
    (hfirst : found question.1 question.2 !last) (hrest : Answered found last questions answer) :
    Answered found last (question :: questions) answer := by
  obtain ⟨rfl, hall⟩ | ⟨rfl, before, question', after, rfl, hbefore, hlast⟩ := hrest
  · exact .inl ⟨rfl, List.forall_mem_cons.mpr ⟨hfirst, hall⟩⟩
  · exact .inr ⟨rfl, question :: before, question', after, rfl,
      List.forall_mem_cons.mpr ⟨hfirst, hbefore⟩, hlast⟩

section Later

/-- A tuple that was recorded below another, one of which has been promoted since. -/
def Lapsed (s t : Store) (x y : Handle) (answer : Bool) : Prop :=
  answer = true ∧ (y ∈ s.upperBounds x ∧ x ∈ s.lowerBounds y) ∧ ¬ (t.IsFixed x ∧ t.IsFixed y)

/-- Only fixed tuples have bounds. -/
theorem isFixed_of_bound (hbound : s.upperBounds h ++ s.lowerBounds h ≠ []) : s.IsFixed h := by
  rw [upperBounds, lowerBounds] at hbound
  cases hstate : s.tupleState? h with
  | none => simp [hstate] at hbound
  | some state =>
    cases state with
    | fixed upper lower => rw [IsFixed, hstate]; rfl
    | promoted array => simp [hstate, TupleState.upper, TupleState.lower] at hbound

private theorem isFixed_of_recorded (hrecorded : b ∈ s.upperBounds a ∧ a ∈ s.lowerBounds b) :
    s.IsFixed a ∧ s.IsFixed b :=
  ⟨isFixed_of_bound (List.ne_nil_of_mem (List.mem_append_left _ hrecorded.1)),
    isFixed_of_bound (List.ne_nil_of_mem (List.mem_append_right _ hrecorded.2))⟩

/-- A tuple that is still fixed has all bounds that it had. -/
theorem Advances.bounds_subset (hst : s.Advances t) (hfixed : t.IsFixed h) :
    s.upperBounds h ⊆ t.upperBounds h ∧ s.lowerBounds h ⊆ t.lowerBounds h := by
  rw [upperBounds, lowerBounds, upperBounds, lowerBounds]
  cases hstate : s.tupleState? h with
  | none => simp
  | some state =>
    obtain ⟨next, hnext, hprecedes⟩ := hst hstate
    rw [hnext]
    cases hprecedes with
    | bounded upper lower => simp [TupleState.upper, TupleState.lower]
    | promotion array => exact absurd hnext hfixed.not_promoted
    | promoted array => simp [TupleState.upper, TupleState.lower]

variable (hst : Moves s t) (hs : s.WellFormed)
include hst hs

private theorem Moves.isFixed_before (hfixed : t.IsFixed h) : s.IsFixed h := by
  obtain ⟨events, added, hprint⟩ := hst.footprint hs
  exact hprint.isFixed_before hs.linked hfixed

private theorem Moves.advances : s.Advances t := by
  obtain ⟨events, added, hprint⟩ := hst.footprint hs
  exact hprint.advances

/-- Answers to the questions of an earlier plan are evidence later on. -/
theorem Moves.evidence_of_ask (hplan : s.plan a b = .ok (.ask last questions))
    (hanswered : Answered (Evidence t kept given) last questions answer) :
    Evidence t kept given a b answer := by
  obtain ⟨f, hf, hplan'⟩ := hst.shifts.plan_of_ask hs hplan
  have hcontains := hs.contains_of_asked hplan
  have hright : ∀ {question r}, question ∈ questions →
      Evidence t kept given question.1 question.2 r →
      Evidence t kept given (Prod.map id f question).1 (Prod.map id f question).2 r := by
    intro question r hquestion hfound
    exact .right ((hst.settles hs).contains (hcontains question hquestion).2) (hf question.2).symm
      hfound
  obtain ⟨rfl, hall⟩ | ⟨rfl, before, question, after, rfl, hbefore, hlast⟩ := hanswered
  · refine .asked hplan' fun question' hquestion' => ?_
    obtain ⟨question, hquestion, rfl⟩ := List.mem_map.mp hquestion'
    exact hright hquestion (hall question hquestion)
  · rw [List.map_append, List.map_cons] at hplan'
    refine .stopped hplan' (fun question' hquestion' => ?_) (hright (by simp) hlast)
    obtain ⟨question, hquestion, rfl⟩ := List.mem_map.mp hquestion'
    exact hright (List.mem_append_left _ hquestion) (hbefore question hquestion)

private theorem Moves.evidence_of_yes (hplan : s.plan a b = .ok (.answer true)) :
    Evidence t kept given a b true := by
  obtain hplan' | ⟨array, hplan', hplan''⟩ := hst.shifts.plan_of_yes hs hplan
  · exact .known hplan' (by simp)
  · change Evidence t kept given a b !false
    refine .asked hplan' fun question hquestion => ?_
    obtain rfl := List.mem_singleton.mp hquestion
    exact .known hplan'' (by simp)

theorem Moves.isFixed_of_kept (hlasts : ∀ h, kept h → ¬ t.IsPromoted h) (hkept : kept h)
    (hfixed : s.IsFixed h) : t.IsFixed h := by
  by_contra hlost
  obtain ⟨-, array, -, -, harray, -⟩ := hst.shifts.array_of_lost hs hfixed hlost
  exact hlasts h hkept ⟨array, harray⟩

/-- Evidence is still evidence after the moves of a search, but for bounds that lapsed. -/
theorem Moves.evidence (hlasts : ∀ h, kept h → ¬ t.IsPromoted h)
    (hevidence : Evidence s kept given a b answer) :
    Evidence t kept (fun x y r => given x y r ∨ Lapsed s t x y r) a b answer := by
  have hfixed : ∀ {h}, kept h → s.IsFixed h → t.IsFixed h := hst.isFixed_of_kept hs hlasts
  have hadvances := hst.advances hs
  induction hevidence with
  | given h => exact .given (.inl h)
  | right hb hsame _ ih =>
    exact .right ((hst.settles hs).contains hb) (hst.shifts.canonical_congr hs hb hsame) ih
  | @known a b answer hplan hkept =>
    cases answer with
    | true => exact hst.evidence_of_yes hs hplan
    | false =>
      obtain ⟨ha, hb⟩ := hkept rfl
      have ha' : s.IsFixed a → t.IsFixed a := fun hfixed' => hfixed (ha hfixed') hfixed'
      have hb' : s.IsFixed b → t.IsFixed b := fun hfixed' => hfixed (hb hfixed') hfixed'
      exact .known (hst.shifts.plan_of_kept hs ha' hb' hplan) fun _ =>
        ⟨fun h => ha (hst.isFixed_before hs h), fun h => hb (hst.isFixed_before hs h)⟩
  | asked hplan _ ih => exact hst.evidence_of_ask hs hplan (.inl ⟨rfl, ih⟩)
  | stopped hplan _ _ ih ih' =>
    exact hst.evidence_of_ask hs hplan (.inr ⟨rfl, _, _, _, rfl, ih, ih'⟩)
  | @compared a b questions hplan hrecorded _ ih =>
    by_cases hboth : t.IsFixed a ∧ t.IsFixed b
    · exact .compared (hst.shifts.plan_of_kept hs (fun _ => hboth.1) (fun _ => hboth.2) hplan)
        ⟨(hadvances.bounds_subset hboth.1).1 hrecorded.1,
          (hadvances.bounds_subset hboth.2).2 hrecorded.2⟩ ih
    · exact .given (.inr ⟨rfl, hrecorded, hboth⟩)
  | @differ a b before after question hplan hkept _ _ ih ih' =>
    have hplan' := hst.shifts.plan_of_kept hs (hfixed hkept.1) (hfixed hkept.2) hplan
    exact .differ hplan' hkept ih ih'

end Later

section Preserved

def Preserves (kept : Handle → Prop) (given : Handle → Handle → Bool → Prop) (s t : Store) : Prop :=
  ∀ ⦃given' : Handle → Handle → Bool → Prop⦄, (∀ x y r, given x y r → given' x y r) →
    ∀ ⦃a b answer⦄, Evidence s kept given' a b answer → Evidence t kept given' a b answer

theorem Preserves.refl (s : Store) : Preserves kept given s s :=
  fun _ _ _ _ _ h => h

theorem Preserves.trans (hst : Preserves kept given s t) (htu : Preserves kept given t u) :
    Preserves kept given s u :=
  fun _ hgiven _ _ _ h => htu hgiven (hst hgiven h)

def Lasts (kept : Handle → Prop) (t : Store) : Prop :=
  ∀ h, kept h → ¬ t.IsPromoted h

theorem Lasts.before (hlasts : Lasts kept t) (hs : s.WellFormed) (hst : Moves s t) :
    Lasts kept s :=
  fun h hkept hpromoted => hlasts h hkept (hpromoted.moves hs hst)

/-- Recording a bound takes no evidence away. -/
theorem Moves.preserves_of_kept (hst : Moves s t) (hs : s.WellFormed)
    (hkeep : ∀ h, s.IsFixed h → t.IsFixed h) (hlasts : Lasts kept t) :
    Preserves kept given s t := by
  intro given' _ a b answer hevidence
  refine (hst.evidence hs hlasts hevidence).cut ?_
  rintro x y r (hgiven | ⟨rfl, hrecorded, hlapsed⟩)
  · exact .given hgiven
  · obtain ⟨hx, hy⟩ := isFixed_of_recorded hrecorded
    exact absurd ⟨hkeep x hx, hkeep y hy⟩ hlapsed

end Preserved

section Runs

def breaks (s : Store) : Nat :=
  s.journal.toList.countP fun event => event.promotion?.isNone

theorem Moves.breaks_le (hst : Moves s t) (hs : s.WellFormed) : s.breaks ≤ t.breaks := by
  obtain ⟨events, added, hprint⟩ := hst.footprint hs
  rw [breaks, breaks, hprint.journal, List.countP_append]
  exact Nat.le_add_right _ _

private theorem breaks_reported (s : Store) (tuple : Handle) :
    (s.reported (.boundBroken tuple)).breaks = s.breaks + 1 := by
  rw [breaks, reported, Array.toList_push, List.countP_append]
  rfl

/-- A run from one store to another leaves evidence for its answer and takes none away, unless it
promotes a tuple that is to be kept. -/
def Upheld (kept : Handle → Prop) (given : Handle → Handle → Bool → Prop) (s : Store) (a b : Handle)
    (answer : Bool) (t : Store) : Prop :=
  Moves s t ∧ (Lasts kept t → Preserves kept given s t ∧ Evidence t kept given a b answer)

def Upholds (kept : Handle → Prop) (given : Handle → Handle → Bool → Prop)
    (below : Handle → Handle → StoreM Bool) : Prop :=
  ∀ ⦃s t a b answer⦄, WellFormed s → s.contains a → s.contains b → below a b s = .ok answer t →
    Upheld kept given s a b answer t

variable {below : Handle → Handle → StoreM Bool} (hbelow : Upholds kept given below)
include hbelow

theorem Upholds.askUntil (hs : s.WellFormed)
    (hquestions : ∀ question ∈ questions, s.contains question.1 ∧ s.contains question.2)
    (hrun : askUntil below last questions s = .ok answer t) :
    Moves s t ∧ (Lasts kept t → Preserves kept given s t ∧
      Answered (Evidence t kept given) last questions answer) := by
  induction questions generalizing s with
  | nil =>
    cases hrun
    exact ⟨.refl, fun _ => ⟨.refl _, .inl ⟨rfl, by simp⟩⟩⟩
  | cons question questions ih =>
    obtain ⟨hquestion, hquestions⟩ := List.forall_mem_cons.mp hquestions
    obtain ⟨first, m, hfirst, hrest⟩ := bind_run_eq_ok_iff.mp hrun
    obtain ⟨hsm, hfound⟩ := hbelow hs hquestion.1 hquestion.2 hfirst
    by_cases hstop : first = last
    · rw [if_pos hstop] at hrest
      cases hrest
      subst hstop
      refine ⟨hsm, fun hlasts => ⟨(hfound hlasts).1, .inr ⟨rfl, [], question, questions, rfl, ?_⟩⟩⟩
      exact ⟨by simp, (hfound hlasts).2⟩
    · rw [if_neg hstop] at hrest
      obtain rfl : first = !last := by cases first <;> cases last <;> simp_all
      have hm := hsm.settles hs
      obtain ⟨hmt, hanswered⟩ := ih hm.wellFormed (fun question' hquestion' =>
        ⟨hm.contains (hquestions question' hquestion').1,
          hm.contains (hquestions question' hquestion').2⟩) hrest
      refine ⟨hsm.trans hmt, fun hlasts => ?_⟩
      obtain ⟨hpreserves, hanswered⟩ := hanswered hlasts
      obtain ⟨hpreserves', hfirst⟩ := hfound (hlasts.before hm.wellFormed hmt)
      exact ⟨hpreserves'.trans hpreserves,
        hanswered.cons (hpreserves (fun _ _ _ h => h) hfirst)⟩

omit hbelow in
private theorem Settles.contains_of_bounds (hst : s.Settles t) (hs : s.WellFormed)
    (ha : s.contains a) :
    ∀ question ∈ (s.lowerBounds a).map (·, a) ++ (s.upperBounds a).map (a, ·),
      t.contains question.1 ∧ t.contains question.2 := by
  have hbound : ∀ x ∈ s.lowerBounds a ++ s.upperBounds a, t.contains x :=
    fun x hx => hst.contains (hs.linked.isTuple_bound hx).contains
  have ha' := hst.contains ha
  simp only [List.mem_append, List.mem_map]
  rintro question (⟨x, hx, rfl⟩ | ⟨x, hx, rfl⟩)
  · exact ⟨hbound x (List.mem_append_left _ hx), ha'⟩
  · exact ⟨ha', hbound x (List.mem_append_right _ hx)⟩

omit hbelow in
/-- When one tuple is promoted, only bounds lapse that it has recorded. -/
private theorem Lapsed.mem_bounds {params : List Handle} {element array x y : Handle}
    {v w : Store} (hs : s.WellFormed) (hshape : s.shape a = .ok (.tuple params))
    (hunion : formUnion params s = .ok element v) (harray : formArray element v = .ok array w)
    (hlapsed : Lapsed s (w.promotedTo a array) x y answer) :
    (x, y) ∈ (s.lowerBounds a).map (·, a) ++ (s.upperBounds a).map (a, ·) := by
  obtain ⟨-, hrecorded, hlapsed⟩ := hlapsed
  have hside : x = a ∨ y = a := by
    by_contra hother
    obtain ⟨hx, hy⟩ := not_or.mp hother
    have hsame : ∀ {h}, h ≠ a → s.IsFixed h → (w.promotedTo a array).IsFixed h := by
      intro h hne hfixed
      rw [IsFixed, tupleState?_promotedTo hs hshape hunion harray, if_neg hne]
      exact hfixed
    obtain ⟨hx', hy'⟩ := isFixed_of_recorded hrecorded
    exact hlapsed ⟨hsame hx hx', hsame hy hy'⟩
  obtain rfl | rfl := hside
  · exact List.mem_append_right _ (List.mem_map.mpr ⟨y, hrecorded.1, rfl⟩)
  · exact List.mem_append_left _ (List.mem_map.mpr ⟨x, hrecorded.2, rfl⟩)

/-- A promotion that finds all bounds of its tuple confirmed takes no evidence away: what rested on
these bounds now rests on their confirmation. One that does not reports it. -/
theorem Upholds.promoteBy {params : List Handle} (hs : s.WellFormed)
    (hshape : s.shape a = .ok (.tuple params)) (hrun : promoteBy below a s = .ok answer t) :
    Moves s t ∧
      if answer then Lasts kept t → Preserves kept given s t else s.breaks < t.breaks := by
  obtain ⟨element, v, array, w, hunion, harray⟩ := exists_promotion hs hshape
  rw [promoteBy_run below hshape hunion harray, recheck, boundsHold_eq] at hrun
  obtain ⟨holds, m, hasked, hrest⟩ := bind_run_eq_ok_iff.mp hrun
  have hpromotion : Moves s (w.promotedTo a array) := .single (.promotion hshape hunion harray)
  have hsettles := hpromotion.settles hs
  obtain ⟨hmoves, hanswered⟩ := hbelow.askUntil hsettles.wellFormed
    (hsettles.contains_of_bounds hs (Linked.contains_of_shape hshape)) hasked
  cases holds with
  | false =>
    cases hrest
    refine ⟨(hpromotion.trans hmoves).tail (.broken a), ?_⟩
    have hle := (hpromotion.trans hmoves).breaks_le hs
    change s.breaks < (m.reported (.boundBroken a)).breaks
    rw [breaks_reported]
    exact Nat.lt_succ_of_le hle
  | true =>
    cases hrest
    refine ⟨hpromotion.trans hmoves, fun hlasts => ?_⟩
    obtain ⟨hpreserves, hanswered⟩ := hanswered hlasts
    have hconfirmed : ∀ question ∈ (s.lowerBounds a).map (·, a) ++ (s.upperBounds a).map (a, ·),
        Evidence t kept given question.1 question.2 true := by
      obtain ⟨-, hall⟩ | ⟨hfalse, -⟩ := hanswered
      · exact hall
      · cases hfalse
    intro given' hgiven x y r hevidence
    have hlater := hpromotion.evidence hs (hlasts.before hsettles.wellFormed hmoves) hevidence
    refine (hpreserves (fun x y r h => .inl (hgiven x y r h)) hlater).cut ?_
    rintro x y r (hgiven' | hlapsed)
    · exact .given hgiven'
    · obtain rfl := hlapsed.1
      exact (hconfirmed (x, y) (hlapsed.mem_bounds hs hshape hunion harray)).mono hgiven

end Runs

end Store

end GradualTypes
