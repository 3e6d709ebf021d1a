import GradualTypes.Proofs.Equivalence
import GradualTypes.Proofs.Soundness
import GradualTypes.Proofs.Replay
import GradualTypes.Proofs.Unpromoted
import GradualTypes.Proofs.Walks

/-!
A promoted tuple cannot be told from the array type it stands for. Every walk that meets the tuple
on its way goes on with the array type, one level deeper. How deep a walk may go makes no difference
once it is deeper than the types, so asking about the tuple and asking about the array type come to
the same: the same answer, and, where the store may change, the same store.
-/

namespace GradualTypes

variable {α : Type}

def SameAnswer (first second : Except Error α) : Prop :=
  ∃ answer, first = .ok answer ∧ second = .ok answer

theorem SameAnswer.of_eq {first second : Except Error α} (heq : first = second)
    (hsecond : ∃ answer, second = .ok answer) : SameAnswer first second := by
  obtain ⟨answer, hanswer⟩ := hsecond
  exact ⟨answer, heq.trans hanswer, hanswer⟩

/-- Questions that decide the same have the same answer. -/
theorem SameAnswer.of_decides {first second : Except Error Bool} {p q : Prop}
    (hfirst : Decides first p) (hsecond : Decides second q) (hiff : p ↔ q) :
    SameAnswer first second :=
  .of_eq (hfirst.unique (hsecond.congr hiff.symm)) hsecond.answered

/-- Questions that both have an answer have the same one if they are answered by yes together. -/
theorem SameAnswer.of_iff {first second : Except Error Bool}
    (hiff : first = .ok true ↔ second = .ok true) (hfirst : ∃ answer, first = .ok answer)
    (hsecond : ∃ answer, second = .ok answer) : SameAnswer first second :=
  .of_decides (.self hfirst) (.self hsecond) hiff

def SameRun (s : Store) (first second : StoreM α) : Prop :=
  ∃ answer t, first s = .ok answer t ∧ second s = .ok answer t

namespace Store

variable {s : Store} {a b tuple array : Handle}

/-- A type is written alike by two walks that write its components alike. -/
private theorem renderWithin_congr {m n : Nat} {shape : Shape} (hshape : s.shape a = .ok shape)
    (hparts : ∀ x ∈ shape.parts, s.renderWithin m x = s.renderWithin n x) :
    s.renderWithin (m + 1) a = s.renderWithin (n + 1) a := by
  have hmap : ∀ xs ⊆ shape.parts, xs.mapM (fun x => s.renderWithin m x) =
      xs.mapM fun x => s.renderWithin n x := fun xs hxs =>
    Lifting.mapM_congr fun x hx => hparts x (hxs hx)
  rw [renderWithin, renderWithin, hshape]
  cases shape with
  | generic base params =>
    have hbase := hparts base List.mem_cons_self
    have hparams := hmap params (List.subset_cons_self base params)
    simp only [bind, Except.bind, hbase, hparams]
  | promoted array => exact hparts array List.mem_cons_self
  | tuple params =>
    have hparams := hmap params (List.Subset.refl params)
    simp only [bind, Except.bind, hparams]
  | union members =>
    have hmembers := hmap members (List.Subset.refl members)
    simp only [bind, Except.bind, hmembers]
  | intersection members =>
    have hmembers := hmap members (List.Subset.refl members)
    simp only [bind, Except.bind, hmembers]
  | annotated label inner =>
    have hinner := hparts inner List.mem_cons_self
    simp only [bind, Except.bind, hinner]
  | _ => rfl

/-- Substitution that may go deeper does the same if the first did not fail. -/
theorem instantiateWithin_refines {m n : Nat} (hmn : m ≤ n) (subst : Substitution) (h : Handle) :
    Refines (instantiateWithin subst m h) (instantiateWithin subst n h) := by
  induction m generalizing n h with
  | zero =>
    intro s answer t hrun
    cases hrun
  | succ m ih =>
    obtain ⟨n, rfl⟩ := Nat.exists_eq_succ_of_ne_zero (Nat.ne_zero_of_lt hmn)
    have hparts : ∀ x, Refines (instantiateWithin subst m x) (instantiateWithin subst n x) :=
      fun x => ih (Nat.le_of_succ_le_succ hmn) x
    refine (Refines.refl _).bind fun traits => .ite (.refl _) ?_
    refine (Refines.refl _).bind fun shape => ?_
    cases shape with
    | generic base params => exact (Refines.mapM hparts params).bind fun _ => .refl _
    | promoted array => exact hparts array
    | tuple params => exact (Refines.mapM hparts params).bind fun _ => .refl _
    | union members => exact (Refines.mapM hparts members).bind fun _ => .refl _
    | intersection members => exact (Refines.mapM hparts members).bind fun _ => .refl _
    | annotated label inner => exact (hparts inner).bind fun _ => .refl _
    | _ => exact .refl _

theorem instantiate_run {subst : Substitution} (ha : s.contains a)
    (hsubst : ∀ x ∈ subst.types, s.contains x) :
    instantiate a subst s = instantiateWithin subst (s.size + 1) a s := by
  rw [instantiate, bind_run (ask_run (checkParam_eq_ok_iff.mpr ha)),
    bind_run (ask_run (checkParamsFrom_eq_ok_iff.mpr hsubst))]
  exact bind_run rfl

section Depth

variable (hs : s.WellFormed)
include hs

/-- How deep a walk that writes a type may go makes no difference either. -/
private theorem WellFormed.renderWithin_stable (m n : Nat) (ha : s.contains a) (hm : s.rank a < m)
    (hn : s.rank a < n) : s.renderWithin m a = s.renderWithin n a := by
  induction m generalizing n a with
  | zero => omega
  | succ m ih =>
    obtain ⟨n, rfl⟩ := Nat.exists_eq_succ_of_ne_zero (Nat.ne_zero_of_lt hn)
    obtain ⟨shape, hshape⟩ := hs.linked.exists_shape ha
    apply renderWithin_congr hshape
    intro x hx
    obtain ⟨hcontains, hlt⟩ := hs.descends hshape hx
    exact ih n hcontains (by omega) (by omega)

/-- Nor does it for a match. -/
theorem WellFormed.fitsWithin_eq (m n : Nat) (ha : s.contains a) (hb : s.contains b)
    (hm : s.rank a + s.rank b < m) (hn : s.rank a + s.rank b < n) :
    s.fitsWithin m a b = s.fitsWithin n a b := by
  induction m generalizing n a b with
  | zero => omega
  | succ m ih =>
    obtain ⟨n, rfl⟩ := Nat.exists_eq_succ_of_ne_zero (Nat.ne_zero_of_lt hn)
    obtain ⟨left, hleft⟩ := hs.linked.exists_shape ha
    by_cases hpromoted : ∃ array, left = .promoted array
    · obtain ⟨array, rfl⟩ := hpromoted
      obtain ⟨harray, hlt⟩ := hs.descends hleft List.mem_cons_self
      rw [fitsWithin_promoted hleft, fitsWithin_promoted hleft]
      exact ih n harray hb (by omega) (by omega)
    · obtain ⟨query, htarget, hquery, hrank⟩ := target_spec hs left hb
      obtain ⟨right, hright⟩ := hs.linked.exists_shape hquery
      -- for both walks the components fit where the second one finds that they do
      have hstep : ∀ depth, (∀ {x y}, s.contains x → s.contains y →
          s.rank x + s.rank y < s.rank a + s.rank b → s.fitsWithin depth x y = s.fitsWithin n x y) →
          Decides (s.fitsWithin (depth + 1) a b) (query = .wildcard ∨
            s.FitsBy (fun x y => s.fitsWithin n x y = .ok true) a left query right) := by
        intro depth hagree
        have hless : ∀ {x y}, s.contains x → s.contains y →
            s.rank x + s.rank y < s.rank a + s.rank b →
            Decides (s.fitsWithin depth x y) (s.fitsWithin n x y = .ok true) := by
          intro x y hx hy hlt
          rw [hagree hx hy hlt]
          exact .self (fitsWithin_answered hs n hx hy (by omega))
        apply fitsWithin_decides_step hs hleft (not_exists.mp hpromoted) htarget hright
        · intro x hx
          obtain ⟨hcontains, hlt⟩ := hs.descends hleft hx
          exact hless hcontains hquery (by omega)
        · intro x hx y hy
          obtain ⟨hcontains, hlt⟩ := hs.descends hleft hx
          obtain ⟨hcontains', hlt'⟩ := hs.descends hright hy
          exact hless hcontains hcontains' (by omega)
      have hfirst := hstep m fun hx hy hlt => ih n hx hy (by omega) (by omega)
      exact hfirst.unique (hstep n fun _ _ _ => rfl)

end Depth

section Promoted

variable (hs : s.WellFormed) (htuple : s.shape tuple = .ok (.promoted array))
include hs htuple

private theorem WellFormed.member_promoted (v : Value) :
    SameAnswer (s.member tuple v) (s.member array v) := by
  have harray := (hs.descends htuple List.mem_cons_self).1
  apply SameAnswer.of_iff
  · exact hs.belongs_iff htuple
  · exact member_answered hs (Linked.contains_of_shape htuple) v
  · exact member_answered hs harray v

private theorem WellFormed.equal_promoted (hb : s.contains b) :
    SameAnswer (s.equal tuple b) (s.equal array b) ∧
      SameAnswer (s.equal b tuple) (s.equal b array) := by
  have hcontains := Linked.contains_of_shape htuple
  have harray := (hs.descends htuple List.mem_cons_self).1
  have hanswer := fun {x y} => equal_answered (a := x) (b := y) hs.linked hs.acyclic
  constructor
  · exact .of_iff (hs.same_promoted_left htuple hb) (hanswer hcontains hb) (hanswer harray hb)
  · exact .of_iff (hs.same_promoted_right htuple hb) (hanswer hb hcontains) (hanswer hb harray)

theorem WellFormed.fits_promoted (hb : s.contains b) :
    SameAnswer (s.fits tuple b) (s.fits array b) := by
  obtain ⟨harray, hlt⟩ := hs.descends htuple List.mem_cons_self
  have hrank := hs.linked.rank_le_size tuple
  have hrankb := hs.linked.rank_le_size b
  refine .of_eq ?_ (fits_answered hs harray hb)
  rw [fits, fits, fitsWithin_promoted htuple]
  exact hs.fitsWithin_eq _ _ harray hb (by omega) (by omega)

private theorem WellFormed.render_promoted : SameAnswer (s.render tuple) (s.render array) := by
  obtain ⟨harray, hlt⟩ := hs.descends htuple List.mem_cons_self
  have hrank := hs.linked.rank_le_size tuple
  have hstep : s.render tuple = s.renderWithin s.size array := by
    rw [render, renderWithin, htuple]
    rfl
  refine .of_eq ?_ (render_answered hs harray)
  rw [hstep, render]
  exact hs.renderWithin_stable _ _ harray (by omega) (by omega)

/-- A promoted tuple is not inert, as it holds a tuple: itself. -/
private theorem WellFormed.instantiateWithin_promoted (subst : Substitution) (depth : Nat) :
    instantiateWithin subst (depth + 1) tuple s = instantiateWithin subst depth array s := by
  obtain ⟨⟨node, traits⟩, hslot⟩ := exists_slot (Linked.contains_of_shape htuple)
  have htraits : s.traits tuple = .ok traits := traits_of_slot hslot
  have hinert : ¬ traits.isInert = true := by
    intro hinert
    rw [Traits.isInert_eq] at hinert
    have hfree : traits.hasTuple = false := by simpa using (Bool.and_eq_true_iff.mp hinert).2
    obtain ⟨shape, hshape, hnode⟩ := hs.shape_of_tupleFree ⟨traits, htraits, hfree⟩
    rw [htuple] at hshape
    cases hshape
    cases hnode
  rw [instantiateWithin, bind_run (ask_run htraits), if_neg hinert, bind_run (ask_run htuple)]

private theorem WellFormed.instantiate_promoted {subst : Substitution}
    (hsubst : ∀ x ∈ subst.types, s.contains x) :
    SameRun s (instantiate tuple subst) (instantiate array subst) := by
  obtain ⟨harray, hlt⟩ := hs.descends htuple List.mem_cons_self
  have hrank := hs.linked.rank_le_size tuple
  obtain ⟨answer, t, hrun, -⟩ :=
    instantiateWithin_returns hs hsubst s.size (.refl s) harray (by omega)
  refine ⟨answer, t, ?_, ?_⟩
  · rw [instantiate_run (Linked.contains_of_shape htuple) hsubst,
      hs.instantiateWithin_promoted htuple, hrun]
  · rw [instantiate_run harray hsubst]
    exact instantiateWithin_refines (Nat.le_succ s.size) subst array hrun

theorem WellFormed.subtype_promoted (hb : s.contains b) :
    SameRun s (Store.subtype tuple b) (Store.subtype array b) ∧
      SameRun s (Store.subtype b tuple) (Store.subtype b array) := by
  have hcontains := Linked.contains_of_shape htuple
  obtain ⟨element, helement⟩ := hs.shape_of_array htuple
  have harray := Linked.contains_of_shape helement
  constructor
  · obtain ⟨answer, t, hrun, -⟩ := subtype_returns hs harray hb
    have hstep : subtypeWithin (s.searchDepth + 1) tuple b s =
        subtypeWithin s.searchDepth array b s := by
      rw [subtypeWithin, belowStep, bind_run (ask_run htuple)]
    rw [← subtype_run, hrun] at hstep
    exact ⟨answer, t, subtype_eq_of_within hs hcontains hb hstep, hrun⟩
  · obtain ⟨answer, t, hrun, -⟩ := subtype_returns hs hb harray
    have hcanonical : s.canonical tuple = s.canonical array := by
      rw [canonical_of_promoted htuple, canonical_of_shape helement (by simp)]
    refine ⟨answer, t, ?_, hrun⟩
    rw [subtype_run, subtypeWithin_canonical hcanonical, ← subtype_run, hrun]

end Promoted

end Store

/-- In every reachable store a promoted tuple cannot be told from the array type it stands for. The
same values belong to both, both are equal to the same types from either side, both fit the same
queries, and both are written alike. Comparing them with a type, from either side, and substituting
in them give the same answer and leave the same store. -/
theorem Reachable.promoted_delegates {s : Store} {tuple array x : Handle} (hs : Reachable s)
    (hpromoted : s.isPromoted tuple = .ok true) (harray : s.canonical tuple = .ok array)
    (hx : s.contains x) (v : Value) {subst : Substitution}
    (hsubst : ∀ y ∈ subst.types, s.contains y) :
    SameAnswer (s.member tuple v) (s.member array v) ∧
      SameAnswer (s.equal tuple x) (s.equal array x) ∧
      SameAnswer (s.equal x tuple) (s.equal x array) ∧
      SameRun s (Store.subtype tuple x) (Store.subtype array x) ∧
      SameRun s (Store.subtype x tuple) (Store.subtype x array) ∧
      SameRun s (Store.instantiate tuple subst) (Store.instantiate array subst) ∧
      SameAnswer (s.fits tuple x) (s.fits array x) ∧
      SameAnswer (s.render tuple) (s.render array) := by
  have hwf := hs.wellFormed
  obtain ⟨array', htuple⟩ := hwf.isPromoted_iff.mp hpromoted
  rw [Store.canonical_of_promoted htuple] at harray
  cases harray
  obtain ⟨hleft, hright⟩ := hwf.equal_promoted htuple hx
  obtain ⟨hbelow, habove⟩ := hwf.subtype_promoted htuple hx
  exact ⟨hwf.member_promoted htuple v, hleft, hright, hbelow, habove,
    hwf.instantiate_promoted htuple hsubst, hwf.fits_promoted htuple hx,
    hwf.render_promoted htuple⟩

/-- A variable and the class of integers, a promoted tuple of both, and a fixed tuple of the
variable. -/
def openStore : Store :=
  .after [.var "T", .nominal "Integer", .tuple [⟨5⟩, ⟨6⟩], .promote ⟨7⟩, .tuple [⟨5⟩]]

/-- The fixed tuple of `openStore` is promoted when it is compared with the promoted one, just as
when it is compared with the array type, and the variable is replaced in both. -/
theorem openStore_promoted_delegates :
    let subst : Substitution := ⟨[(⟨4, 0⟩, ⟨6⟩)]⟩
    let v : Value := .array [.int 1]
    openStore.isPromoted ⟨7⟩ = .ok true ∧ openStore.canonical ⟨7⟩ = .ok ⟨9⟩ ∧
      openStore.isPromoted ⟨10⟩ = .ok false ∧ openStore.shape ⟨5⟩ = .ok (.var ⟨4, 0⟩) ∧
      SameAnswer (openStore.member ⟨7⟩ v) (openStore.member ⟨9⟩ v) ∧
      SameAnswer (openStore.equal ⟨7⟩ ⟨10⟩) (openStore.equal ⟨9⟩ ⟨10⟩) ∧
      SameAnswer (openStore.equal ⟨10⟩ ⟨7⟩) (openStore.equal ⟨10⟩ ⟨9⟩) ∧
      SameRun openStore (Store.subtype ⟨7⟩ ⟨10⟩) (Store.subtype ⟨9⟩ ⟨10⟩) ∧
      SameRun openStore (Store.subtype ⟨10⟩ ⟨7⟩) (Store.subtype ⟨10⟩ ⟨9⟩) ∧
      SameRun openStore (Store.instantiate ⟨7⟩ subst) (Store.instantiate ⟨9⟩ subst) ∧
      SameAnswer (openStore.fits ⟨7⟩ ⟨10⟩) (openStore.fits ⟨9⟩ ⟨10⟩) ∧
      SameAnswer (openStore.render ⟨7⟩) (openStore.render ⟨9⟩) := by
  intro subst v
  have hs : Reachable openStore :=
    .after (by decide)
  have hpromoted : openStore.isPromoted ⟨7⟩ = .ok true := by decide +kernel
  have harray : openStore.canonical ⟨7⟩ = .ok ⟨9⟩ := by decide +kernel
  have hx : openStore.contains ⟨10⟩ := by decide +kernel
  have hsubst : ∀ y ∈ subst.types, openStore.contains y := by decide +kernel
  exact ⟨hpromoted, harray, by decide +kernel, by decide +kernel,
    Reachable.promoted_delegates hs hpromoted harray hx v hsubst⟩

end GradualTypes
