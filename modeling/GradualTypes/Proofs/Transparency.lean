import GradualTypes.Proofs.Annotations

/-!
Annotations in a comparison. The search takes all annotations off the left type and then all off the
right one, so two types compare like what is left of both, and the store after it is the same. It is
otherwise if a fixed tuple is left on the left: a tuple is not compared by the rules for other types
but by one of its own, which does not look under an annotation. It is below an annotated type only
if the search met that type while it took the annotations off.
-/

namespace GradualTypes

section Runs

variable {α : Type} {s : Store} {first second third : StoreM α}

theorem SameRun.symm (h : SameRun s first second) : SameRun s second first := by
  obtain ⟨answer, t, hfirst, hsecond⟩ := h
  exact ⟨answer, t, hsecond, hfirst⟩

theorem SameRun.trans (h : SameRun s first second) (h' : SameRun s second third) :
    SameRun s first third := by
  obtain ⟨answer, t, hfirst, hsecond⟩ := h
  obtain ⟨answer', t', hsecond', hthird⟩ := h'
  rw [hsecond] at hsecond'
  cases hsecond'
  exact ⟨answer, t, hfirst, hthird⟩

theorem SameRun.of_run {answer : α} {t : Store} (h : SameRun s first second)
    (hrun : second s = .ok answer t) : first s = .ok answer t := by
  obtain ⟨answer', t', hfirst, hsecond⟩ := h
  rw [hrun] at hsecond
  cases hsecond
  exact hfirst

theorem eq_of_run' {answer answer' : α} {t : Store} (hrun : first s = .ok answer t)
    (hanswer : first.run' s = some answer') : answer = answer' := by
  rw [EStateM.run', EStateM.run, hrun] at hanswer
  exact Option.some.inj hanswer

end Runs

namespace Store

variable {s : Store} {a b c d inner sup : Handle} {m n : Nat} {label : Name} {left right : Shape}

def Annotates (s : Store) (a b : Handle) : Prop :=
  ∃ label, s.shape a = .ok (.annotated label b)

/-- The second type is the first, or is found under some of its annotations. -/
def Uncovers (s : Store) : Handle → Handle → Prop :=
  Relation.ReflTransGen s.Annotates

def HasTupleCore (s : Store) (a : Handle) : Prop :=
  ∃ n core params, s.Wraps a n core ∧ s.shape core = .ok (.tuple params)

section Uncovering

private theorem uncovers_of_bare (ha : s.shape a = .ok left)
    (hbare : ∀ label inner, left ≠ .annotated label inner) : s.Uncovers a b ↔ a = b := by
  constructor
  · intro huncovers
    rcases Relation.ReflTransGen.cases_head huncovers with heq | ⟨c, ⟨label, hshape⟩, -⟩
    · exact heq
    · rw [ha] at hshape
      cases hshape
      exact absurd rfl (hbare _ _)
  · rintro rfl
    exact .refl

private theorem uncovers_of_annotated (ha : s.shape a = .ok (.annotated label inner)) :
    s.Uncovers a b ↔ a = b ∨ s.Uncovers inner b := by
  constructor
  · intro huncovers
    rcases Relation.ReflTransGen.cases_head huncovers with heq | ⟨c, ⟨label', hshape⟩, hrest⟩
    · exact .inl heq
    · rw [ha] at hshape
      cases hshape
      exact .inr hrest
  · rintro (rfl | hinner)
    · exact .refl
    · exact .head ⟨label, ha⟩ hinner

private theorem WellFormed.descends_of_uncovers (hs : s.WellFormed) (ha : s.contains a)
    (huncovers : s.Uncovers a b) : s.contains b ∧ s.rank b ≤ s.rank a := by
  induction huncovers with
  | refl => exact ⟨ha, le_rfl⟩
  | tail _ hlast ih =>
    obtain ⟨label, hshape⟩ := hlast
    obtain ⟨hcontains, hlt⟩ := hs.descends hshape List.mem_cons_self
    exact ⟨hcontains, by omega⟩

end Uncovering

section Steps

/-- One step of the search for a type that is neither promoted nor a fixed tuple. -/
theorem belowStep_of_plain {below : Handle → Handle → StoreM Bool} (ha : s.shape a = .ok left)
    (hplain : ∀ array, left ≠ .promoted array) (hfixed : ∀ params, left ≠ .tuple params)
    (hsup : s.canonical b = .ok sup) (hright : s.shape sup = .ok right) :
    belowStep below a b s =
      if Evident a sup then .ok true s else belowShapes below a left sup right s := by
  have hrest : (do
      let sup ← ask (·.canonical b)
      if a = sup ∨ sup = .top ∨ a = .nil then return true
      else belowShapes below a left sup (← ask (·.shape sup)) : StoreM Bool) s =
        if Evident a sup then .ok true s else belowShapes below a left sup right s := by
    rw [bind_run (ask_run hsup)]
    split
    · rfl
    · exact bind_run (ask_run hright)
  rw [belowStep, bind_run (ask_run ha)]
  cases left with
  | promoted array => exact absurd rfl (hplain array)
  | tuple params => exact absurd rfl (hfixed params)
  | _ => exact hrest

variable (hs : s.WellFormed)
include hs

/-- Two comparisons are the same if one comes down to the other after one step. -/
theorem WellFormed.sameRun_of_step (ha : s.contains a) (hb : s.contains b) (hc : s.contains c)
    (hd : s.contains d)
    (hstep : belowStep (subtypeWithin s.searchDepth) a b s = subtypeWithin s.searchDepth c d s) :
    SameRun s (Store.subtype a b) (Store.subtype c d) := by
  obtain ⟨answer, t, hrun, -⟩ := subtype_returns hs hc hd
  have hrun' : subtypeWithin (s.searchDepth + 1) a b s = .ok answer t := by
    rw [subtypeWithin, hstep, ← subtype_run, hrun]
  exact ⟨answer, t, subtype_eq_of_within hs ha hb hrun', hrun⟩

private theorem WellFormed.subtype_of_evident (ha : s.shape a = .ok left)
    (hplain : ∀ array, left ≠ .promoted array) (hfixed : ∀ params, left ≠ .tuple params)
    (hb : s.contains b) (hsup : s.canonical b = .ok sup) (hevident : Evident a sup) :
    Store.subtype a b s = .ok true s := by
  obtain ⟨_, hsup', hcontains, -⟩ := canonical_spec hs hb
  rw [hsup] at hsup'
  cases hsup'
  obtain ⟨right, hright⟩ := hs.linked.exists_shape hcontains
  have hrun : subtypeWithin 1 a b s = .ok true s := by
    rw [subtypeWithin, belowStep_of_plain ha hplain hfixed hsup hright, if_pos hevident]
  exact subtype_eq_of_within hs (Linked.contains_of_shape ha) hb hrun

/-- Every type but a fixed tuple is below itself, and asking for it changes nothing. -/
theorem WellFormed.subtype_self_of_unfixed (ha : s.shape a = .ok left)
    (hfixed : ∀ params, left ≠ .tuple params) : Store.subtype a a s = .ok true s := by
  by_cases hpromoted : ∃ array, left = .promoted array
  · obtain ⟨array, rfl⟩ := hpromoted
    obtain ⟨element, harray⟩ := hs.shape_of_array ha
    have hself : Store.subtype array array s = .ok true s :=
      hs.subtype_of_evident harray nofun nofun (Linked.contains_of_shape harray)
        (canonical_of_shape harray nofun) (.inl rfl)
    have hdown := (hs.subtype_promoted ha (Linked.contains_of_shape ha)).1
    have hacross := (hs.subtype_promoted ha (Linked.contains_of_shape harray)).2
    exact (hdown.trans hacross).of_run hself
  · have hplain := not_exists.mp hpromoted
    exact hs.subtype_of_evident ha hplain hfixed (Linked.contains_of_shape ha)
      (canonical_of_shape ha hplain) (.inl rfl)

/-- Every type is below the greatest. -/
theorem WellFormed.subtype_top (ha : s.contains a) (hb : s.contains b)
    (htop : s.canonical b = .ok .top) : Store.subtype a b s = .ok true s := by
  obtain ⟨left, hleft⟩ := hs.linked.exists_shape ha
  by_cases hpromoted : ∃ array, left = .promoted array
  · obtain ⟨array, rfl⟩ := hpromoted
    obtain ⟨element, harray⟩ := hs.shape_of_array hleft
    exact (hs.subtype_promoted hleft hb).1.of_run
      (hs.subtype_of_evident harray nofun nofun hb htop (.inr (.inl rfl)))
  · by_cases hfixed : ∃ params, left = .tuple params
    · obtain ⟨params, rfl⟩ := hfixed
      have hrun : subtypeWithin 1 a b s = .ok true s := by
        rw [subtypeWithin, belowStep_of_tuple hleft htop]
        rfl
      exact subtype_eq_of_within hs ha hb hrun
    · exact hs.subtype_of_evident hleft (not_exists.mp hpromoted) (not_exists.mp hfixed) hb htop
        (.inr (.inl rfl))

end Steps

section Annotated

variable (hs : s.WellFormed)
include hs

/-- No tuple is promoted to an annotated type. -/
theorem WellFormed.eq_of_canonical_annotated (ha : s.shape a = .ok (.annotated label inner))
    (hb : s.canonical b = .ok a) : b = a := by
  obtain ⟨shape, hshape, hof⟩ := bind_eq_ok_iff.mp hb
  cases shape with
  | promoted array =>
    cases hof
    obtain ⟨element, harray⟩ := hs.shape_of_array hshape
    rw [ha] at harray
    cases harray
  | _ =>
    cases hof
    rfl

/-- An annotation on the left does not show, unless the same type stands on the right. -/
theorem WellFormed.subtype_annotated_left (ha : s.shape a = .ok (.annotated label inner))
    (hb : s.contains b) (hne : b ≠ a) :
    SameRun s (Store.subtype a b) (Store.subtype inner b) := by
  have hcontains := Linked.contains_of_shape ha
  have hinner := (hs.descends ha List.mem_cons_self).1
  obtain ⟨sup, hsup, hcontains', -, hproper⟩ := canonical_spec hs hb
  obtain ⟨right, hright⟩ := hs.linked.exists_shape hcontains'
  by_cases htop : sup = .top
  · subst htop
    exact ⟨true, s, hs.subtype_top hcontains hb hsup, hs.subtype_top hinner hb hsup⟩
  have hevident : ¬ Evident a sup := by
    rintro (rfl | heq | rfl)
    · exact hne (hs.eq_of_canonical_annotated ha hsup)
    · exact htop heq
    · rw [hs.linked.tupleFree_nil.2] at ha
      cases ha
  have hself : s.canonical sup = .ok sup :=
    canonical_of_shape hright fun array harray => hproper array (harray ▸ hright)
  apply hs.sameRun_of_step hcontains hb hinner hb
  rw [belowStep_of_plain ha nofun nofun hsup hright, if_neg hevident]
  exact subtypeWithin_canonical (hself.trans hsup.symm)

/-- Nor does one on the right, unless a fixed tuple or an annotated type stands on the left. -/
theorem WellFormed.subtype_annotated_right (ha : s.shape a = .ok left)
    (hfixed : ∀ params, left ≠ .tuple params)
    (hbare : ∀ label inner, left ≠ .annotated label inner)
    (hb : s.shape b = .ok (.annotated label inner)) :
    SameRun s (Store.subtype a b) (Store.subtype a inner) := by
  have hcontains := Linked.contains_of_shape hb
  have hinner := (hs.descends hb List.mem_cons_self).1
  have hsup : s.canonical b = .ok b := canonical_of_shape hb nofun
  have hplain : ∀ {x left}, s.shape x = .ok left → (∀ array, left ≠ .promoted array) →
      (∀ params, left ≠ .tuple params) → (∀ label inner, left ≠ .annotated label inner) →
      SameRun s (Store.subtype x b) (Store.subtype x inner) := by
    intro x left hx hplain hfixed hbare
    by_cases hnil : x = .nil
    · obtain ⟨sup, hsup', -⟩ := canonical_spec hs hinner
      exact ⟨true, s,
        hs.subtype_of_evident hx hplain hfixed hcontains hsup (.inr (.inr hnil)),
        hs.subtype_of_evident hx hplain hfixed hinner hsup' (.inr (.inr hnil))⟩
    have hevident : ¬ Evident x b := by
      rintro (rfl | rfl | heq)
      · rw [hx] at hb
        cases hb
        exact hbare _ _ rfl
      · rw [hs.linked.tupleFree_top.2] at hb
        cases hb
      · exact hnil heq
    have hx' := Linked.contains_of_shape hx
    apply hs.sameRun_of_step hx' hcontains hx' hinner
    rw [belowStep_of_plain hx hplain hfixed hsup hb, if_neg hevident]
    cases left with
    | annotated label inner => exact absurd rfl (hbare label inner)
    | _ => rfl
  by_cases hpromoted : ∃ array, left = .promoted array
  · obtain ⟨array, rfl⟩ := hpromoted
    obtain ⟨element, harray⟩ := hs.shape_of_array ha
    have hdown := (hs.subtype_promoted ha hcontains).1
    exact (hdown.trans (hplain harray nofun nofun nofun)).trans
      (hs.subtype_promoted ha hinner).1.symm
  · exact hplain ha (not_exists.mp hpromoted) hfixed hbare

/-- Two types compare like what is left of both under all annotations, unless a fixed tuple is left
of the first. -/
theorem WellFormed.subtype_wraps (hwraps : s.Wraps a m c) (hwraps' : s.Wraps b n d)
    (hfixed : ∀ params, s.shape c ≠ .ok (.tuple params)) :
    SameRun s (Store.subtype a b) (Store.subtype c d) := by
  induction hwraps with
  | @bare a left hleft hbare =>
    have hfixed' : ∀ params, left ≠ .tuple params := fun params heq => hfixed params (heq ▸ hleft)
    induction hwraps' with
    | bare hright _ =>
      obtain ⟨answer, t, hrun, -⟩ :=
        subtype_returns hs (Linked.contains_of_shape hleft) (Linked.contains_of_shape hright)
      exact ⟨answer, t, hrun, hrun⟩
    | annotated hright _ ih =>
      exact (hs.subtype_annotated_right hleft hfixed' hbare hright).trans ih
  | @annotated a label inner m c hshape hinner ih =>
    by_cases heq : b = a
    · -- both are the same type, which is found at once
      subst heq
      obtain ⟨-, rfl⟩ := hwraps'.unique (.annotated hshape hinner)
      obtain ⟨left, hleft, -⟩ := hinner.exists_shape
      exact ⟨true, s, hs.subtype_self_of_unfixed hshape nofun,
        hs.subtype_self_of_unfixed hleft fun params heq => hfixed params (heq ▸ hleft)⟩
    · exact (hs.subtype_annotated_left hshape hwraps'.contains heq).trans (ih hfixed)

/-- A fixed tuple, under annotations or not, is below an annotated type exactly if that is found
under its annotations. -/
theorem WellFormed.subtype_tupleCore (hcore : s.HasTupleCore a)
    (hb : s.shape b = .ok (.annotated label inner)) :
    ∃ answer, Store.subtype a b s = .ok answer s ∧ (answer = true ↔ s.Uncovers a b) := by
  obtain ⟨n, core, params, hwraps, htuple⟩ := hcore
  have hcontains := Linked.contains_of_shape hb
  induction hwraps with
  | @bare a left hleft hbare =>
    have hne : a ≠ b := by
      rintro rfl
      rw [htuple] at hb
      cases hb
    obtain ⟨traits, hslot⟩ := slot_of_shape hb rfl
    have hrun : subtypeWithin 1 a b s = .ok false s := by
      rw [subtypeWithin, belowStep_of_tuple htuple (canonical_of_shape hb (by simp)), belowTuple,
        if_neg (hs.linked.ne_top_of_slot hslot (by simp)), bind_run (ask_run (node_of_slot hslot))]
      rfl
    exact ⟨false, subtype_eq_of_within hs (Linked.contains_of_shape hleft) hcontains hrun,
      by simp [uncovers_of_bare hleft hbare, hne]⟩
  | @annotated a label' inner' n core hshape hinner ih =>
    rw [uncovers_of_annotated hshape]
    by_cases heq : b = a
    · subst heq
      exact ⟨true, hs.subtype_self_of_unfixed hshape (by simp), by simp⟩
    · obtain ⟨answer, hrun, hiff⟩ := ih htuple
      exact ⟨answer, (hs.subtype_annotated_left hshape hcontains heq).of_run hrun,
        by simp [hiff, Ne.symm heq]⟩

end Annotated

section Reflexivity

def Marks (s t : Store) : Prop :=
  s.Alike t ∧ (s.WellFormed → t.WellFormed)

instance : IsPreorder Store Marks where
  refl s := ⟨.refl s, id⟩
  trans _ _ _ hst htu := ⟨hst.1.trans htu.1, fun hs => htu.2 (hst.2 hs)⟩

private theorem marks_recorded (ha : s.IsTuple a) : s.Marks (s.recorded a a) :=
  ⟨alike_recorded s a a, fun hs => (settles_recorded hs ha ha).wellFormed⟩

/-- Every type is below itself. For a fixed tuple the search compares all elements with themselves
and records the tuple as its own bound. -/
theorem WellFormed.subtype_self (hs : s.WellFormed) (ha : s.contains a) :
    ∃ t, Store.subtype a a s = .ok true t ∧ s.Marks t := by
  induction hn : s.rank a using Nat.strong_induction_on generalizing s a with
  | _ n ih =>
    obtain ⟨left, hleft⟩ := hs.linked.exists_shape ha
    by_cases hfixed : ∃ params, left = .tuple params
    · obtain ⟨params, rfl⟩ := hfixed
      -- the depth does not change with the store, which only gains bounds
      have helement : ∀ pair ∈ params.zip params, ∀ t, s.Marks t →
          Returns (subtypeWithin s.searchDepth pair.1 pair.2) t fun answer u =>
            t.Marks u ∧ if answer then True else False := by
        rintro pair hpair t ⟨halike, ht⟩
        rw [List.zip, List.zipWith_self] at hpair
        obtain ⟨p, hp, rfl⟩ := List.mem_map.mp hpair
        obtain ⟨hcontains, hlt⟩ := hs.descends hleft hp
        have hdepth : t.searchDepth = s.searchDepth := by
          obtain ⟨states, journal, rfl, -⟩ := halike
          rfl
        have hcontains' : t.contains p := by
          obtain ⟨states, journal, rfl, -⟩ := halike
          exact hcontains
        have hrank : t.rank p < n := by
          rw [rank_eq halike.shape_eq]
          omega
        obtain ⟨u, hrun, hmarks⟩ := ih _ hrank (ht hs) hcontains' rfl
        rw [subtype_run, hdepth] at hrun
        exact ⟨true, u, hrun, hmarks, trivial⟩
      obtain ⟨answer, t, hpairs, hmarks, hanswer⟩ := Returns.allM helement
      cases answer with
      | false =>
        obtain ⟨pair, -, hno⟩ := hanswer
        exact hno.elim
      | true =>
        have htuple : t.IsTuple a := isTuple_of_shape ((hmarks.1.shape_eq a).trans hleft)
        have hpointwise : Lifting.pointwise (subtypeWithin s.searchDepth) params params s =
            .ok true t := by
          rw [Lifting.pointwise, if_pos rfl, hpairs]
        obtain ⟨digest, entry, traits, upper, lower, hslot, -⟩ := slot_of_shape_tuple hleft
        have hrun : subtypeWithin (s.searchDepth + 1) a a s = .ok true (t.recorded a a) := by
          rw [subtypeWithin, belowStep_of_tuple hleft (canonical_of_shape hleft (by simp)),
            hs.linked.belowTuple_of_tuple hslot, bind_run hpointwise]
          rfl
        exact ⟨t.recorded a a, subtype_eq_of_within hs ha ha hrun,
          IsTrans.trans _ _ _ hmarks (marks_recorded htuple)⟩
    · exact ⟨s, hs.subtype_self_of_unfixed hleft (not_exists.mp hfixed), Std.Refl.refl s⟩

/-- A type is below every type that is found under its annotations. -/
theorem WellFormed.subtype_of_uncovers (hs : s.WellFormed) (ha : s.contains a)
    (huncovers : s.Uncovers a b) : ∃ t, Store.subtype a b s = .ok true t := by
  have hb := (hs.descends_of_uncovers ha huncovers).1
  have hself : ∀ {x}, s.contains x → ∃ t, Store.subtype x x s = .ok true t := fun hx =>
    (hs.subtype_self hx).imp fun _ hself => hself.1
  induction huncovers using Relation.ReflTransGen.head_induction_on with
  | refl => exact hself ha
  | @head a inner hfirst hrest ih =>
    obtain ⟨label, hshape⟩ := hfirst
    have hinner := (hs.descends hshape List.mem_cons_self).1
    obtain ⟨t, hrun⟩ := ih hinner
    by_cases heq : b = a
    · subst heq
      exact hself ha
    · exact ⟨t, (hs.subtype_annotated_left hshape hb heq).of_run hrun⟩

end Reflexivity

end Store

/-- In a reachable store an annotation does not show in a comparison, whether it stands on the left
type or on the right one, unless a fixed tuple is involved: the answer is the same without it, and
so is the store after it. A fixed tuple, under annotations or not, is below an annotated type only
if it is that type or has it under its annotations, and then it is below what that type annotates as
well. So an annotated tuple is below itself, and the tuple in it is not below it. -/
theorem Reachable.subtype_annotated {s : Store} {text : String} {name : Name} {names : NameTable}
    {inner : Handle} (hs : Reachable s) (hinner : s.contains inner)
    (hname : s.names.intern text = .ok (name, names)) :
    ∃ h t, Store.annotated text inner s = .ok h t ∧
      (t.HasTupleCore inner → Store.subtype h h t = .ok true t ∧
        Store.subtype inner h t = .ok false t) ∧
      ∀ x, t.contains x →
        (x ≠ h ∨ ¬ t.HasTupleCore inner →
          SameRun t (Store.subtype h x) (Store.subtype inner x)) ∧
        (¬ t.HasTupleCore x → SameRun t (Store.subtype x h) (Store.subtype x inner)) ∧
        (t.HasTupleCore x → t.Uncovers x h → Store.subtype x h t = .ok true t ∧
          ∃ u, Store.subtype x inner t = .ok true u) ∧
        (t.HasTupleCore x → ¬ t.Uncovers x h → Store.subtype x h t = .ok false t) := by
  obtain ⟨h, t, hrun, ht, hretains, hshape⟩ := hs.wellFormed.annotated_returns hinner hname
  have hcontains := hretains.contains hinner
  obtain ⟨k, d, hk⟩ := ht.exists_wraps hcontains
  have hh : t.Wraps h (k + 1) d := .annotated hshape hk
  have hunfixed : ∀ {x n c}, t.Wraps x n c → ¬ t.HasTupleCore x →
      ∀ params, t.shape c ≠ .ok (.tuple params) :=
    fun hwraps hcore params htuple => hcore ⟨_, _, params, hwraps, htuple⟩
  have hyes : ∀ {x}, t.HasTupleCore x → t.Uncovers x h → Store.subtype x h t = .ok true t := by
    intro x hcore huncovers
    obtain ⟨answer, hrun, hiff⟩ := ht.subtype_tupleCore hcore hshape
    rw [hrun, hiff.mpr huncovers]
  have hno : ∀ {x}, t.HasTupleCore x → ¬ t.Uncovers x h → Store.subtype x h t = .ok false t := by
    intro x hcore huncovers
    obtain ⟨answer, hrun, hiff⟩ := ht.subtype_tupleCore hcore hshape
    rw [hrun, Bool.eq_false_iff.mpr (mt hiff.mp huncovers)]
  refine ⟨h, t, hrun, fun hcore => ⟨ht.subtype_self_of_unfixed hshape nofun, ?_⟩, fun x hx => ?_⟩
  · refine hno hcore fun huncovers => ?_
    have hle := (ht.descends_of_uncovers hcontains huncovers).2
    have hlt := (ht.descends hshape List.mem_cons_self).2
    omega
  obtain ⟨j, c, hj⟩ := ht.exists_wraps hx
  refine ⟨fun hor => ?_, fun hcore => ?_, fun hcore huncovers => ?_, hno⟩
  · by_cases heq : x = h
    · have hfixed := hunfixed hk (hor.resolve_left (not_not.mpr heq))
      exact (ht.subtype_wraps hh hj hfixed).trans (ht.subtype_wraps hk hj hfixed).symm
    · exact ht.subtype_annotated_left hshape hx heq
  · have hfixed := hunfixed hj hcore
    exact (ht.subtype_wraps hj hh hfixed).trans (ht.subtype_wraps hj hk hfixed).symm
  · have hinner' : t.Uncovers x inner := huncovers.tail ⟨name, hshape⟩
    exact ⟨hyes hcore huncovers, ht.subtype_of_uncovers hx hinner'⟩

def taggedStore : Store :=
  .after [.nominal "Integer", .tuple [⟨5⟩], .annotated "pair" ⟨6⟩]

/-- The annotated tuple of `taggedStore` is below itself and the tuple is not below it. The integers
compare with the annotated tuple as with the tuple. -/
theorem taggedStore_subtype_annotated :
    Reachable taggedStore ∧ taggedStore.contains ⟨6⟩ ∧
      taggedStore.names.intern "pair" = .ok (⟨10, 0⟩, taggedStore.names) ∧
      ∃ t, Store.annotated "pair" ⟨6⟩ taggedStore = .ok ⟨7⟩ t ∧ t.contains ⟨5⟩ ∧
        t.HasTupleCore ⟨6⟩ ∧ ¬ t.HasTupleCore ⟨5⟩ ∧ Store.subtype ⟨7⟩ ⟨7⟩ t = .ok true t ∧
        Store.subtype ⟨6⟩ ⟨7⟩ t = .ok false t ∧
        SameRun t (Store.subtype ⟨7⟩ ⟨5⟩) (Store.subtype ⟨6⟩ ⟨5⟩) ∧
        SameRun t (Store.subtype ⟨5⟩ ⟨7⟩) (Store.subtype ⟨5⟩ ⟨6⟩) := by
  have hs : Reachable taggedStore := .after (by decide)
  have hinner : taggedStore.contains ⟨6⟩ := by decide +kernel
  have hname : taggedStore.names.intern "pair" = .ok (⟨10, 0⟩, taggedStore.names) :=
    NameTable.intern_eq_ok_iff.mpr (.inl ⟨by decide +kernel, rfl⟩)
  obtain ⟨h, t, hrun, htuple, hothers⟩ :=
    Reachable.subtype_annotated hs hinner hname
  obtain rfl : h = ⟨7⟩ := eq_of_run' hrun (by decide +kernel)
  obtain rfl : (Operation.annotated "pair" ⟨6⟩).apply taggedStore = t :=
    Operation.apply_of_run (.annotated "pair" ⟨6⟩) rfl hrun
  set t := (Operation.annotated "pair" ⟨6⟩).apply taggedStore
  have hnominal : t.shape ⟨5⟩ = .ok (.nominal ⟨14, 0⟩) := by decide +kernel
  have hfixed : t.shape ⟨6⟩ = .ok (.tuple [⟨5⟩]) := by decide +kernel
  have hcore : t.HasTupleCore ⟨6⟩ := ⟨0, ⟨6⟩, [⟨5⟩], .bare hfixed nofun, hfixed⟩
  have hbare : t.Wraps ⟨5⟩ 0 ⟨5⟩ := .bare hnominal nofun
  have hcore' : ¬ t.HasTupleCore ⟨5⟩ := by
    rintro ⟨n, core, params, hwraps, hshape⟩
    obtain ⟨-, rfl⟩ := hwraps.unique hbare
    rw [hnominal] at hshape
    cases hshape
  obtain ⟨hself, hinner'⟩ := htuple hcore
  obtain ⟨hleft, hright, -⟩ := hothers ⟨5⟩ hbare.contains
  exact ⟨hs, hinner, hname, t, hrun, hbare.contains, hcore, hcore', hself,
    hinner', hleft (.inl (by decide)), hright hcore'⟩

/-- The tuple is below itself and not below itself under an annotation, although that is below
itself. -/
theorem taggedStore_subtype_lost :
    Reachable taggedStore ∧ (Store.annotated "pair" ⟨6⟩).run' taggedStore = some ⟨7⟩ ∧
      (Store.subtype ⟨6⟩ ⟨6⟩).run' taggedStore = some true ∧
      (Store.subtype ⟨6⟩ ⟨7⟩).run' taggedStore = some false ∧
      (Store.subtype ⟨7⟩ ⟨7⟩).run' taggedStore = some true :=
  ⟨.after (by decide), by decide +kernel, by decide +kernel, by decide +kernel,
    by decide +kernel⟩

end GradualTypes
