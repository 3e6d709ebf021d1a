import GradualTypes.Proofs.Delegation

/-!
A promoted tuple as a query. A match looks at the tuple itself where the type is no fixed tuple, so
it falls back on the comparison, and a type fits the tuple exactly if it is equal to the array type
the tuple stands for, once its annotations are taken off. As a query, the array type is met by an
array type element by element, where a wildcard and annotations count. That is the one place where
the two queries part.
-/

namespace GradualTypes

namespace Store

def Suits (s : Store) (a b : Handle) : Prop :=
  s.fits a b = .ok true

/-- What is left of a type when its outer annotations and promotions are taken off. -/
inductive Core (s : Store) : Handle → Handle → Prop where
  | self {a shape} (hshape : s.shape a = .ok shape) (hplain : ∀ array, shape ≠ .promoted array)
      (hbare : ∀ label inner, shape ≠ .annotated label inner) : Core s a a
  | annotated {a label inner core} (hshape : s.shape a = .ok (.annotated label inner))
      (hcore : Core s inner core) : Core s a core
  | promoted {a array core} (hshape : s.shape a = .ok (.promoted array))
      (hcore : Core s array core) : Core s a core

variable {s : Store} {a b core tuple array e element : Handle} {shape left right : Shape}

theorem Core.exists_shape (h : s.Core a core) :
    ∃ shape, s.shape core = .ok shape ∧ (∀ array, shape ≠ .promoted array) ∧
      ∀ label inner, shape ≠ .annotated label inner := by
  induction h with
  | self hshape hplain hbare => exact ⟨_, hshape, hplain, hbare⟩
  | annotated _ _ ih => exact ih
  | promoted _ _ ih => exact ih

/-- A query that is no annotated type is compared as it is. -/
theorem unannotated_of_shape (hshape : s.shape b = .ok shape)
    (hbare : ∀ label inner, shape ≠ .annotated label inner) : s.unannotated b = .ok b := by
  obtain ⟨⟨node, traits⟩, hslot, hnode⟩ := shape_eq_ok_iff.mp hshape
  rw [unannotated, node_of_slot hslot]
  cases node with
  | annotated label inner => cases hnode; exact absurd rfl (hbare label inner)
  | _ => rfl

/-- An array type is compared as it is, also with a fixed tuple. -/
private theorem target_array (left : Shape)
    (hb : s.shape b = .ok (.generic .arrayClass [element])) : s.target left b = .ok b := by
  have hquery := unannotated_of_shape hb nofun
  have hcanonical := canonical_of_shape hb nofun
  cases left with
  | tuple params =>
    exact bind_eq_ok_iff.mpr ⟨b, hcanonical, bind_eq_ok_iff.mpr ⟨b, hquery, hcanonical⟩⟩
  | _ => exact hquery

section Matching

variable (hs : s.WellFormed)
include hs

theorem WellFormed.exists_core (ha : s.contains a) : ∃ core, s.Core a core := by
  induction hrank : s.rank a using Nat.strong_induction_on generalizing a with
  | _ n ih =>
    subst hrank
    obtain ⟨shape, hshape⟩ := hs.linked.exists_shape ha
    cases shape with
    | annotated label inner =>
      obtain ⟨hinner, hlt⟩ := hs.descends hshape List.mem_cons_self
      obtain ⟨core, hcore⟩ := ih _ hlt hinner rfl
      exact ⟨core, .annotated hshape hcore⟩
    | promoted array =>
      obtain ⟨harray, hlt⟩ := hs.descends hshape List.mem_cons_self
      obtain ⟨core, hcore⟩ := ih _ hlt harray rfl
      exact ⟨core, .promoted hshape hcore⟩
    | _ => exact ⟨a, .self hshape nofun nofun⟩

theorem WellFormed.ne_wildcard (hshape : s.shape b = .ok shape) (hwild : shape ≠ .wildcard) :
    b ≠ .wildcard := by
  rintro rfl
  have hslot : s.slot? .wildcard = some ⟨.wildcard, .none⟩ :=
    hs.linked.builtin .wildcard (by decide)
  obtain ⟨slot, hslot', hnode⟩ := shape_eq_ok_iff.mp hshape
  rw [hslot] at hslot'
  cases hslot'
  cases hnode
  exact hwild rfl

/-- What it takes to fit a query, unless the type is a promoted tuple. -/
theorem WellFormed.suits_iff {query : Handle} (hleft : s.shape a = .ok left)
    (hplain : ∀ array, left ≠ .promoted array)
    (htarget : s.target left b = .ok query) (hright : s.shape query = .ok right) :
    s.Suits a b ↔ query = .wildcard ∨ s.FitsBy s.Suits a left query right := by
  have hrank := hs.linked.rank_le_size
  have hquery := Linked.contains_of_shape hright
  -- the match of the components may go one level less deep, which is still deep enough
  have hpart : ∀ {x y}, x ∈ left.parts → s.contains y →
      Decides (s.fitsWithin (2 * s.size) x y) (s.Suits x y) := by
    intro x y hx hy
    obtain ⟨hx, hlt⟩ := hs.descends hleft hx
    have ha := hrank a
    have hy' := hrank y
    rw [hs.fitsWithin_eq _ (2 * s.size + 1) hx hy (by omega) (by omega)]
    exact .self (fits_answered hs hx hy)
  refine (fitsWithin_decides_step hs hleft hplain htarget hright ?_ ?_).eq_true_iff
  · exact fun x hx => hpart hx hquery
  · exact fun x hx y hy => hpart hx (hs.descends hright hy).1

/-- A type fits a query that is neither annotated nor the wildcard if what is left of it does. -/
theorem WellFormed.suits_core (hcore : s.Core a core) (hshape : s.shape b = .ok shape)
    (hwild : shape ≠ .wildcard) (hbare : ∀ label inner, shape ≠ .annotated label inner) :
    s.Suits a b ↔ s.Suits core b := by
  have hb := Linked.contains_of_shape hshape
  induction hcore with
  | self => exact Iff.rfl
  | annotated hleft hcore ih =>
    have htarget := unannotated_of_shape hshape hbare
    rw [hs.suits_iff hleft nofun htarget hshape, or_iff_right (hs.ne_wildcard hshape hwild)]
    exact ih
  | promoted hleft hcore ih =>
    obtain ⟨answer, hfirst, hsecond⟩ := hs.fits_promoted hleft hb
    refine Iff.trans ?_ ih
    rw [Suits, Suits, hfirst, hsecond]

/-- Array types are equal if their elements are. -/
theorem WellFormed.same_arrays (ha : s.shape a = .ok (.generic .arrayClass [e]))
    (hb : s.shape b = .ok (.generic .arrayClass [element])) : s.Same a b ↔ s.Same e element := by
  rw [hs.same_iff ha hb]
  constructor
  · rintro (heq | ⟨-, hparams⟩)
    · rw [← heq, ha] at hb
      cases hb
      exact s.same_refl e
    · exact (List.forall₂_cons.mp hparams).1
  · exact fun hsame => .inr ⟨rfl, .cons hsame .nil⟩

/-- An array type fits another as a query if its element fits the element. -/
theorem WellFormed.suits_arrays (ha : s.shape a = .ok (.generic .arrayClass [e]))
    (hb : s.shape b = .ok (.generic .arrayClass [element])) : s.Suits a b ↔ s.Suits e element := by
  have htarget := unannotated_of_shape hb nofun
  rw [hs.suits_iff ha nofun htarget hb, or_iff_right (hs.ne_wildcard hb nofun)]
  exact ⟨fun ⟨_, hparams⟩ => (List.forall₂_cons.mp hparams).1, fun h => ⟨rfl, .cons h .nil⟩⟩

/-- What is no array type fits one as a query only if it is equal to it, unless it is annotated or
promoted. -/
theorem WellFormed.suits_array_iff_same (hleft : s.shape a = .ok left)
    (hplain : ∀ array, left ≠ .promoted array)
    (hbare : ∀ label inner, left ≠ .annotated label inner)
    (hother : ∀ e, left ≠ .generic .arrayClass [e])
    (hb : s.shape b = .ok (.generic .arrayClass [element])) : s.Suits a b ↔ s.Same a b := by
  have hne : a ≠ b := by
    rintro rfl
    rw [hleft] at hb
    cases hb
    exact hother element rfl
  rw [hs.suits_iff hleft hplain (target_array left hb) hb, or_iff_right (hs.ne_wildcard hb nofun)]
  cases left with
  | annotated label inner => exact absurd rfl (hbare label inner)
  | promoted array => exact absurd rfl (hplain array)
  | tuple params =>
    rw [hs.same_iff hleft hb, or_iff_right hne]
    exact Iff.rfl
  | generic base params =>
    rw [hs.same_iff hleft hb, or_iff_right hne]
    -- neither relation pairs the parameters, which are not those of an array type
    have hfalse : ∀ {r : Handle → Handle → Prop},
        ¬ (base = .arrayClass ∧ List.Forall₂ r params [element]) := by
      rintro r ⟨rfl, hparams⟩
      obtain ⟨e, rest, -, hrest, rfl⟩ := List.forall₂_cons_right_iff.mp hparams
      cases hrest
      exact hother e rfl
    exact iff_of_false hfalse hfalse
  | _ => exact Iff.rfl

/-- What is neither annotated nor promoted fits a promoted tuple as a query exactly if it is equal
to the array type the tuple stands for. -/
theorem WellFormed.suits_promoted_iff_same (htuple : s.shape tuple = .ok (.promoted array))
    (hleft : s.shape a = .ok left) (hplain : ∀ array, left ≠ .promoted array)
    (hbare : ∀ label inner, left ≠ .annotated label inner) : s.Suits a tuple ↔ s.Same a array := by
  obtain ⟨element, harray⟩ := hs.shape_of_array htuple
  have hquery := unannotated_of_shape htuple nofun
  cases left with
  | annotated label inner => exact absurd rfl (hbare label inner)
  | promoted array' => exact absurd rfl (hplain array')
  | tuple params =>
    -- a fixed tuple looks through the promotion, so that both queries are one
    have htarget : s.target (.tuple params) tuple = .ok array := by
      refine bind_eq_ok_iff.mpr ⟨array, canonical_of_promoted htuple, ?_⟩
      exact bind_eq_ok_iff.mpr ⟨array, unannotated_of_shape harray nofun,
        canonical_of_shape harray nofun⟩
    rw [← hs.suits_array_iff_same hleft hplain hbare nofun harray,
      hs.suits_iff hleft hplain htarget harray,
      hs.suits_iff hleft hplain (target_array _ harray) harray]
  | _ =>
    rw [hs.suits_iff hleft hplain hquery htuple, or_iff_right (hs.ne_wildcard htuple nofun)]
    exact hs.same_promoted_right htuple (Linked.contains_of_shape hleft)

end Matching

end Store

/-- As a query, a promoted tuple asks for equality: a type fits it exactly if, with its outer
annotations and promotions taken off, it is equal to the array type the tuple stands for. Unless
what is left is an array type itself, the array type is met in the same way. An array type is equal
to it if their elements are equal, and fits it as a query if the one element fits the other. -/
theorem Reachable.fits_promoted_query {s : Store} {x tuple array : Handle} (hs : Reachable s)
    (hx : s.contains x) (hpromoted : s.isPromoted tuple = .ok true)
    (harray : s.canonical tuple = .ok array) :
    ∃ core element, s.Core x core ∧ s.shape array = .ok (.generic .arrayClass [element]) ∧
      SameAnswer (s.fits x tuple) (s.equal core array) ∧
      ((∀ e, s.shape core ≠ .ok (.generic .arrayClass [e])) →
        SameAnswer (s.fits x tuple) (s.fits x array)) ∧
      ∀ e, s.shape core = .ok (.generic .arrayClass [e]) →
        SameAnswer (s.fits x tuple) (s.equal e element) ∧
          SameAnswer (s.fits x array) (s.fits e element) := by
  have hwf := hs.wellFormed
  obtain ⟨array', htuple⟩ := hwf.isPromoted_iff.mp hpromoted
  rw [Store.canonical_of_promoted htuple] at harray
  cases harray
  obtain ⟨element, harray⟩ := hwf.shape_of_array htuple
  obtain ⟨core, hcore⟩ := hwf.exists_core hx
  obtain ⟨left, hleft, hplain, hbare⟩ := hcore.exists_shape
  have hcontains := Store.Linked.contains_of_shape hleft
  have hcontains' := Store.Linked.contains_of_shape harray
  have helement := (hwf.descends harray (List.mem_cons_of_mem _ List.mem_cons_self)).1
  have hfits := fun {y} => Store.fits_answered hwf hx (b := y)
  have hanswer := hfits (Store.Linked.contains_of_shape htuple)
  have hequal := fun {y z} => Store.equal_answered (a := y) (b := z) hwf.linked hwf.acyclic
  have hsame : s.Suits x tuple ↔ s.Same core array :=
    (hwf.suits_core hcore htuple nofun nofun).trans
      (hwf.suits_promoted_iff_same htuple hleft hplain hbare)
  have hsuits := hwf.suits_core hcore harray nofun nofun
  refine ⟨core, element, hcore, harray, .of_iff hsame hanswer (hequal hcontains hcontains'), ?_, ?_⟩
  · intro hother
    have hleft' : ∀ e, left ≠ .generic .arrayClass [e] := by
      rintro e rfl
      exact hother e hleft
    have hiff := hwf.suits_array_iff_same hleft hplain hbare hleft' harray
    exact .of_iff (hsame.trans (hsuits.trans hiff).symm) hanswer (hfits hcontains')
  · intro e he
    have hpart := (hwf.descends he (List.mem_cons_of_mem _ List.mem_cons_self)).1
    constructor
    · exact .of_iff (hsame.trans (hwf.same_arrays he harray)) hanswer (hequal hpart helement)
    · exact .of_iff (hsuits.trans (hwf.suits_arrays he harray)) (hfits hcontains')
        (Store.fits_answered hwf hpart helement)

/-- The array type of integers under an annotation, and a promoted tuple of the wildcard. -/
def queryStore : Store :=
  .after [.nominal "Integer", .array ⟨5⟩, .tuple [.wildcard], .promote ⟨7⟩, .annotated "list" ⟨6⟩]

/-- The integers are not equal to the wildcard, so the annotated array type does not fit the
promoted tuple of `queryStore`. -/
theorem queryStore_fits_promoted_query :
    queryStore.contains ⟨9⟩ ∧ queryStore.isPromoted ⟨7⟩ = .ok true ∧
      queryStore.canonical ⟨7⟩ = .ok ⟨8⟩ ∧ queryStore.fits ⟨9⟩ ⟨7⟩ = .ok false ∧
      ∃ core element, queryStore.Core ⟨9⟩ core ∧
        queryStore.shape ⟨8⟩ = .ok (.generic .arrayClass [element]) ∧
        SameAnswer (queryStore.fits ⟨9⟩ ⟨7⟩) (queryStore.equal core ⟨8⟩) ∧
        ((∀ e, queryStore.shape core ≠ .ok (.generic .arrayClass [e])) →
          SameAnswer (queryStore.fits ⟨9⟩ ⟨7⟩) (queryStore.fits ⟨9⟩ ⟨8⟩)) ∧
        ∀ e, queryStore.shape core = .ok (.generic .arrayClass [e]) →
          SameAnswer (queryStore.fits ⟨9⟩ ⟨7⟩) (queryStore.equal e element) ∧
            SameAnswer (queryStore.fits ⟨9⟩ ⟨8⟩) (queryStore.fits e element) := by
  have hs : Reachable queryStore := .after (by decide)
  have hx : queryStore.contains ⟨9⟩ := by decide +kernel
  have hpromoted : queryStore.isPromoted ⟨7⟩ = .ok true := by decide +kernel
  have harray : queryStore.canonical ⟨7⟩ = .ok ⟨8⟩ := by decide +kernel
  exact ⟨hx, hpromoted, harray, by decide +kernel,
    Reachable.fits_promoted_query hs hx hpromoted harray⟩

/-- The array type of integers fits the array type of a wildcard, and not the tuple that stands for
it. -/
theorem queryStore_queries_differ :
    Reachable queryStore ∧ queryStore.isPromoted ⟨7⟩ = .ok true ∧
      queryStore.canonical ⟨7⟩ = .ok ⟨8⟩ ∧ queryStore.fits ⟨6⟩ ⟨7⟩ = .ok false ∧
      queryStore.fits ⟨6⟩ ⟨8⟩ = .ok true :=
  ⟨.after (by decide), by decide +kernel, by decide +kernel, by decide +kernel, by decide +kernel⟩

end GradualTypes
