import GradualTypes.Proofs.Reachability

/-!
When a constructor refuses its arguments. What can be wrong with the arguments is listed in the
order in which it is looked for: handles that are no types of the store, by position, and before the
parameters of a generic type a base that is no class. A constructor fails for the first fault of its
list and then leaves the store as it was, with its table of names. Without faults it returns a type
of the store after it, however many types it makes on the way. A label is entered in the table of
names only after the labelled type was found to be one, and there a full shard can refuse it.
-/

namespace GradualTypes

/-- Fails with the first of some faults, if there is one. -/
def Error.first : List Error → Except Error Unit
  | [] => .ok ()
  | e :: _ => .error e

private theorem Error.first_append (faults rest : List Error) :
    first (faults ++ rest) = (do first faults; first rest) := by
  cases faults <;> rfl

instance (t : NameTable) (shard : Fin shardCount) : Decidable (t.IsFull shard) :=
  inferInstanceAs (Decidable (_ ≤ _))

namespace Store

variable {s t : Store} {h base element inner : Handle} {types params : List Handle}
  {position : Nat} {label : String} {subst : Substitution}

section Faults

def strays (s : Store) (position : Nat) (types : List Handle) : List Error :=
  (types.zipIdx position).filterMap fun (h, i) =>
    if s.contains h then none else some (.invalidParam i h)

def baseFaults (s : Store) (base : Handle) : List Error :=
  match s.node base with
  | .ok (.nominal _) => []
  | _ => [.notNominal base]

def labelFaults (s : Store) (label : String) : List Error :=
  if s.names.find? label = none ∧ s.names.IsFull (NameTable.shardOf label) then
    [s.names.overflow label]
  else []

private theorem strays_cons (s : Store) (position : Nat) (h : Handle) (types : List Handle) :
    s.strays position (h :: types) = s.strays position [h] ++ s.strays (position + 1) types := by
  rw [strays, List.zipIdx_cons, ← List.singleton_append, List.filterMap_append]
  rfl

private theorem strays_eq_nil_iff : s.strays position types = [] ↔ ∀ p ∈ types, s.contains p := by
  induction types generalizing position with
  | nil => simp [strays]
  | cons p rest ih =>
    rw [strays_cons, List.append_eq_nil_iff, ih, List.forall_mem_cons]
    simp [strays]

private theorem baseFaults_eq_nil_iff :
    s.baseFaults base = [] ↔ ∃ name, s.node base = .ok (.nominal name) := by
  rw [baseFaults]
  split
  next name hnode => simp [hnode]
  next hother => simpa using fun name hnode => hother name hnode

private theorem labelFaults_eq_nil_iff :
    s.labelFaults label = [] ↔
      ¬ (s.names.find? label = none ∧ s.names.IsFull (NameTable.shardOf label)) := by
  rw [labelFaults]
  split <;> simp_all

private theorem checkParam_eq (s : Store) (position : Nat) (h : Handle) :
    s.checkParam position h = Error.first (s.strays position [h]) := by
  rw [checkParam]
  split
  next hh => simp [strays, hh, Error.first]
  next hh => simp [strays, hh, Error.first]

private theorem checkParamsFrom_eq (s : Store) (position : Nat) (types : List Handle) :
    s.checkParamsFrom position types = Error.first (s.strays position types) := by
  induction types generalizing position with
  | nil => rfl
  | cons p rest ih => rw [checkParamsFrom, strays_cons, Error.first_append, checkParam_eq, ih]

/-- Whether a base is a class is asked only of a type of the store. -/
private theorem checkBase_eq (s : Store) (base : Handle) :
    s.checkBase base = Error.first (s.strays 0 [base] ++ s.baseFaults base) := by
  by_cases hbase : s.contains base
  · have hnone : s.strays 0 [base] = [] := strays_eq_nil_iff.mpr (by simpa using hbase)
    rw [hnone, List.nil_append]
    by_cases hclass : ∃ name, s.node base = .ok (.nominal name)
    · rw [baseFaults_eq_nil_iff.mpr hclass]
      exact checkBase_of_nominal hclass.choose_spec
    · have hfault : s.baseFaults base = [.notNominal base] := by
        rw [baseFaults]
        split
        next name hnode => exact absurd ⟨name, hnode⟩ hclass
        next => rfl
      rw [hfault, checkBase_error hbase (not_exists.mp hclass)]
      rfl
  · have hstray : s.strays 0 [base] = [.invalidParam 0 base] := by simp [strays, hbase]
    rw [checkBase, checkParam_eq, hstray]
    rfl

end Faults

section Vetting

variable {make make' : StoreM Handle} {faults rest : List Error}

/-- An operation that fails for the first of some faults and then leaves the store as it was, and
that returns a type of the store after it if there are none. -/
def Vetted (make : StoreM Handle) (s : Store) : List Error → Prop
  | [] => Returns make s fun h t => t.contains h
  | e :: _ => make s = .error e s

private theorem Vetted.congr (hrun : make s = make' s) (h : Vetted make' s faults) :
    Vetted make s faults := by
  cases faults with
  | nil =>
    rw [Vetted, Returns, hrun]
    exact h
  | cons e faults => exact hrun.trans h

/-- A check puts its faults before those of the rest, which is reached only if there are none. -/
theorem Vetted.ask_bind {check : Store → Except Error Unit} (hcheck : check s = Error.first faults)
    (h : faults = [] → Vetted make s rest) :
    Vetted (ask check >>= fun _ => make) s (faults ++ rest) := by
  cases faults with
  | nil => exact .congr (bind_run (ask_run hcheck)) (h rfl)
  | cons e faults => exact bind_run_error (ask_run_error hcheck)

private theorem Vetted.ask_returns {check : Store → Except Error Unit}
    (hcheck : check s = Error.first faults)
    (h : faults = [] → Returns make s fun h t => t.contains h) :
    Vetted (ask check >>= fun _ => make) s faults := by
  have hvetted : Vetted (ask check >>= fun _ => make) s (faults ++ []) := .ask_bind hcheck h
  rwa [List.append_nil] at hvetted

/-- A label that is not at fault has a name when the rest is done. -/
theorem Vetted.intern_bind {f : Name → StoreM Handle}
    (hf : ∀ name names, s.names.intern label = .ok (name, names) →
      Returns (f name) { s with names } fun h t => t.contains h) :
    Vetted (Store.intern label >>= f) s (s.labelFaults label) := by
  cases hintern : s.names.intern label with
  | error e =>
    obtain ⟨hfind, hfull, rfl⟩ := NameTable.intern_eq_error_iff.mp hintern
    rw [labelFaults, if_pos ⟨hfind, hfull⟩]
    exact bind_run_error (intern_run_error hintern)
  | ok result =>
    obtain ⟨name, names⟩ := result
    have hfaults : s.labelFaults label = [] := by
      rw [labelFaults_eq_nil_iff]
      rintro ⟨hfind, hfull⟩
      rw [NameTable.intern_eq_error_iff.mpr ⟨hfind, hfull, rfl⟩] at hintern
      cases hintern
    rw [hfaults]
    exact .step (intern_run hintern) (hf name names hintern)

/-- All or nothing: the operation fails exactly if something is bad, for the first of its faults and
with the store as it was before. If nothing is bad it returns a type of the store after it. -/
structure AllOrNothing (make : StoreM Handle) (s : Store) (bad : Prop) (faults : List Error) :
    Prop where
  fails_iff : (∃ e t, make s = .error e t) ↔ bad
  rejected : ∀ e t, make s = .error e t → faults.head? = some e ∧ t = s
  made : ¬ bad → Returns make s fun h t => t.contains h

private theorem Vetted.allOrNothing {bad : Prop} (h : Vetted make s faults)
    (hbad : faults = [] ↔ ¬ bad) : AllOrNothing make s bad faults := by
  cases faults with
  | nil =>
    obtain ⟨x, t, hrun, hx⟩ := h
    refine ⟨?_, ?_, fun _ => ⟨x, t, hrun, hx⟩⟩
    · simp [hrun, hbad.mp rfl]
    · simp [hrun]
  | cons e faults =>
    have hrun : make s = .error e s := h
    have hb : bad := by
      by_contra hgood
      cases hbad.mpr hgood
    refine ⟨⟨fun _ => hb, fun _ => ⟨e, s, hrun⟩⟩, fun e' u hrun' => ?_,
      fun hgood => absurd hb hgood⟩
    rw [hrun] at hrun'
    cases hrun'
    exact ⟨rfl, rfl⟩

private theorem AllOrNothing.run_eq {bad : Prop} {e : Error} (h : AllOrNothing make s bad faults)
    (hbad : bad) (hfirst : faults.head? = some e) : make s = .error e s := by
  obtain ⟨e', t, hrun⟩ := h.fails_iff.mpr hbad
  obtain ⟨hfirst', rfl⟩ := h.rejected e' t hrun
  rw [hfirst] at hfirst'
  cases hfirst'
  exact hrun

end Vetting

section Constructors

variable (hs : s.WellFormed)
include hs

private theorem formSet_contains {kind : SetKind} {make : StoreM Handle}
    (htypes : ∀ p ∈ types, s.contains p)
    (h : Returns make s fun h t => ∃ parts,
      types.mapM (s.setPart kind) = .ok parts ∧ FormedSet s kind parts.flatten h t) :
    Returns make s fun h t => t.contains h :=
  h.mono fun _ _ ⟨_, hparts, hset⟩ =>
    hset.contains hs.linked (contains_of_setPart hs.linked htypes hparts)

private theorem union_vetted : Vetted (union types) s (s.strays 0 types) :=
  .ask_returns (checkParamsFrom_eq s 0 types) fun hnone =>
    have htypes := strays_eq_nil_iff.mp hnone
    formSet_contains hs htypes (formUnion_returns hs htypes)

private theorem intersection_vetted : Vetted (intersection types) s (s.strays 0 types) :=
  .ask_returns (checkParamsFrom_eq s 0 types) fun hnone =>
    have htypes := strays_eq_nil_iff.mp hnone
    formSet_contains hs htypes (formIntersection_returns hs htypes)

private theorem tuple_vetted : Vetted (tuple params) s (s.strays 0 params) :=
  .ask_returns (checkParamsFrom_eq s 0 params) fun hnone =>
    (formTuple_returns hs (strays_eq_nil_iff.mp hnone)).mono fun _ _ ⟨_, _, hformed⟩ =>
      hformed.contains

private theorem array_vetted : Vetted (array element) s (s.strays 0 [element]) :=
  .ask_returns (checkParam_eq s 0 element) fun hnone =>
    (formArray_returns hs (strays_eq_nil_iff.mp hnone element List.mem_cons_self)).mono
      fun _ _ hformed => hformed.contains

private theorem generic_vetted :
    Vetted (generic base params) s
      (s.strays 0 [base] ++ s.baseFaults base ++ s.strays 0 params) := by
  refine .ask_bind (checkBase_eq s base) fun hbase => ?_
  refine .ask_returns (checkParamsFrom_eq s 0 params) fun hparams => ?_
  have hclass := baseFaults_eq_nil_iff.mp (List.append_eq_nil_iff.mp hbase).2
  exact (formGeneric_returns hs hclass (strays_eq_nil_iff.mp hparams)).mono fun _ _ hformed =>
    hformed.contains

private theorem annotated_vetted :
    Vetted (annotated label inner) s (s.strays 0 [inner] ++ s.labelFaults label) := by
  refine .ask_bind (checkParam_eq s 0 inner) fun hnone => .intern_bind fun name names hintern => ?_
  have hinner : s.contains inner := strays_eq_nil_iff.mp hnone inner List.mem_cons_self
  have hreturns := formAnnotated_returns (hs.intern hintern)
    ⟨label, hs.orderly.text?_of_intern hintern⟩ hinner
  exact hreturns.mono fun _ _ hformed => hformed.contains

private theorem instantiate_vetted :
    Vetted (instantiate h subst) s (s.strays 0 (h :: subst.types)) := by
  rw [strays_cons]
  refine .ask_bind (checkParam_eq s 0 h) fun hnone => ?_
  refine .ask_returns (checkParamsFrom_eq s 1 subst.types) fun hbound => ?_
  have hh : s.contains h := strays_eq_nil_iff.mp hnone h List.mem_cons_self
  have hrank := hs.linked.rank_le_size h
  have hreturns := instantiateWithin_returns hs (strays_eq_nil_iff.mp hbound) (s.size + 1) (.refl s)
    hh (by omega)
  exact .step rfl (hreturns.mono fun _ _ hpost => hpost.2)

end Constructors

end Store

open Store in
/-- Construction is all or nothing. The constructors fail exactly if an argument is no type of the
store or the base of a generic type is no class, and substitution fails exactly if the type or a
bound type is none of the store. They fail for the first such argument in the order of checking and
leave the store as it was. A label can also find its shard full. Otherwise they return a type of the
store after them. -/
theorem Reachable.construction_all_or_nothing {s : Store} (hs : Reachable s) :
    (∀ types, AllOrNothing (Store.union types) s (∃ x ∈ types, ¬ s.contains x)
      (s.strays 0 types)) ∧
    (∀ types, AllOrNothing (Store.intersection types) s (∃ x ∈ types, ¬ s.contains x)
      (s.strays 0 types)) ∧
    (∀ params, AllOrNothing (Store.tuple params) s (∃ x ∈ params, ¬ s.contains x)
      (s.strays 0 params)) ∧
    (∀ element, AllOrNothing (Store.array element) s (¬ s.contains element)
      (s.strays 0 [element])) ∧
    (∀ label inner, AllOrNothing (Store.annotated label inner) s
      (¬ s.contains inner ∨
        s.names.find? label = none ∧ s.names.IsFull (NameTable.shardOf label))
      (s.strays 0 [inner] ++ s.labelFaults label)) ∧
    (∀ base params, AllOrNothing (Store.generic base params) s
      (¬ s.contains base ∨ (¬ ∃ name, s.node base = .ok (.nominal name)) ∨
        ∃ x ∈ params, ¬ s.contains x)
      (s.strays 0 [base] ++ s.baseFaults base ++ s.strays 0 params)) ∧
    ∀ h subst, AllOrNothing (Store.instantiate h subst) s
      (¬ s.contains h ∨ ∃ x ∈ subst.types, ¬ s.contains x)
      (s.strays 0 (h :: subst.types)) := by
  have hwf := hs.wellFormed
  have hall : ∀ {types : List Handle},
      s.strays 0 types = [] ↔ ¬ ∃ x ∈ types, ¬ s.contains x := by
    simp [strays_eq_nil_iff]
  refine ⟨fun _ => (union_vetted hwf).allOrNothing hall,
    fun _ => (intersection_vetted hwf).allOrNothing hall,
    fun _ => (tuple_vetted hwf).allOrNothing hall,
    fun _ => (array_vetted hwf).allOrNothing ?_, fun _ _ => (annotated_vetted hwf).allOrNothing ?_,
    fun _ _ => (generic_vetted hwf).allOrNothing ?_,
    fun _ _ => (instantiate_vetted hwf).allOrNothing ?_⟩
  · simp [strays_eq_nil_iff]
  · rw [List.append_eq_nil_iff, strays_eq_nil_iff, labelFaults_eq_nil_iff, not_or]
    simp
  · rw [List.append_eq_nil_iff, List.append_eq_nil_iff, hall, hall, baseFaults_eq_nil_iff]
    simp [and_assoc]
  · simp [strays_eq_nil_iff]

def scantStore : Store :=
  .after [.nominal "Integer", .var "T"]

/-- In `scantStore` a variable is refused as a base before the parameters are looked at, and of two
handles that are no types the first is named. A label of such a handle is not entered, but it is
with the variable. -/
theorem scantStore_construction_all_or_nothing :
    Reachable scantStore ∧
      Store.generic ⟨6⟩ [⟨40⟩] scantStore = .error (.notNominal ⟨6⟩) scantStore ∧
      Store.generic ⟨5⟩ [⟨6⟩, ⟨41⟩, ⟨40⟩] scantStore = .error (.invalidParam 1 ⟨41⟩) scantStore ∧
      Store.annotated "point" ⟨40⟩ scantStore = .error (.invalidParam 0 ⟨40⟩) scantStore ∧
      scantStore.names.find? "point" = none ∧
      ∃ h t, Store.annotated "point" ⟨6⟩ scantStore = .ok h t ∧ t.contains h := by
  have hs : Reachable scantStore := .after (by decide)
  obtain ⟨-, -, -, -, hannotated, hgeneric, -⟩ :=
    Reachable.construction_all_or_nothing hs
  refine ⟨hs, (hgeneric ⟨6⟩ [⟨40⟩]).run_eq ?_ (by decide +kernel),
    (hgeneric ⟨5⟩ [⟨6⟩, ⟨41⟩, ⟨40⟩]).run_eq ?_ (by decide +kernel),
    (hannotated "point" ⟨40⟩).run_eq ?_ (by decide +kernel), by decide +kernel,
    (hannotated "point" ⟨6⟩).made (by decide +kernel)⟩
  · exact .inr (.inr ⟨⟨40⟩, List.mem_cons_self, by decide +kernel⟩)
  · exact .inr (.inr ⟨⟨41⟩, by decide, by decide +kernel⟩)
  · exact .inl (by decide +kernel)

end GradualTypes
