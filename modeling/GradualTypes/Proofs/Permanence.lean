import GradualTypes.Proofs.TupleStates

/-!
What operations leave as it was. A store only grows: whatever an operation does, and whether or not
it fails, the types that were there keep their nodes, traits and digests and their order, and the
names keep their texts. The one thing that changes is the state of a tuple, and it changes in one
direction: bounds are added behind those that are there, until the tuple is promoted for good. Only
a search changes it at all; formation leaves the states of all tuples alone.
-/

namespace GradualTypes

namespace TupleState

/-- How the state of a tuple may go on. A fixed tuple gets further bounds behind those it has, or it
is promoted; a promoted tuple stays as it is. -/
inductive Precedes : TupleState → TupleState → Prop where
  | bounded {upper lower : List Handle} (upper' lower' : List Handle) :
      Precedes (fixed upper lower) (fixed (upper ++ upper') (lower ++ lower'))
  | promotion {upper lower : List Handle} (array : Handle) :
      Precedes (fixed upper lower) (promoted array)
  | promoted (array : Handle) : Precedes (promoted array) (promoted array)

namespace Precedes

variable {state next last : TupleState}

theorem refl (state : TupleState) : state.Precedes state := by
  cases state with
  | fixed upper lower =>
    have h : (fixed upper lower).Precedes (fixed (upper ++ []) (lower ++ [])) := bounded [] []
    simpa using h
  | promoted array => exact promoted array

theorem trans (h : state.Precedes next) (h' : next.Precedes last) : state.Precedes last := by
  cases h with
  | bounded upper lower =>
    cases h' with
    | bounded upper' lower' =>
      simpa using bounded (upper ++ upper') (lower ++ lower')
    | promotion array => exact promotion array
  | promotion array =>
    cases h'
    exact promotion array
  | promoted array => exact h'

theorem addUpper (bound : Handle) (state : TupleState) : state.Precedes (state.addUpper bound) := by
  cases state with
  | fixed upper lower =>
    rw [TupleState.addUpper]
    split
    · exact refl _
    · have h : (fixed upper lower).Precedes (fixed (upper ++ [bound]) (lower ++ [])) :=
        bounded [bound] []
      simpa using h
  | promoted array => exact promoted array

theorem addLower (bound : Handle) (state : TupleState) : state.Precedes (state.addLower bound) := by
  cases state with
  | fixed upper lower =>
    rw [TupleState.addLower]
    split
    · exact refl _
    · have h : (fixed upper lower).Precedes (fixed (upper ++ []) (lower ++ [bound])) :=
        bounded [] [bound]
      simpa using h
  | promoted array => exact promoted array

end Precedes

end TupleState

private theorem NameTable.Keeps.text_eq {t t' : NameTable} {name : Name} {text : String}
    (h : t.Keeps t') (htext : t.text name = .ok text) : t'.text name = .ok text := by
  rw [NameTable.text] at htext ⊢
  cases hknown : t.text? name with
  | none => simp [hknown] at htext
  | some known =>
    rw [h hknown]
    simpa [hknown] using htext

namespace Store

variable {s t u : Store} {h : Handle}

section States

theorem IsTuple.exists_state (hs : s.Linked) (hh : s.IsTuple h) :
    ∃ state, s.tupleState? h = some state := by
  obtain ⟨params, digest, entry, traits, hslot⟩ := hh
  have hlt := hs.entry_lt hslot
  rw [tupleState?_of_slot hslot]
  exact ⟨s.states[entry], Array.getElem?_eq_getElem hlt⟩

theorem contains_of_tupleState {state : TupleState} (hstate : s.tupleState? h = some state) :
    s.contains h := by
  obtain ⟨slot, hslot, -⟩ := Option.bind_eq_some_iff.mp hstate
  exact contains_of_slot hslot

/-- A store that only grows keeps the states of all tuples. -/
theorem Extends.tupleState?_eq (hst : s.Extends t) (hs : s.Linked) (hh : s.contains h) :
    t.tupleState? h = s.tupleState? h := by
  obtain ⟨slot, hslot⟩ := exists_slot hh
  rw [tupleState?_of_slot hslot, tupleState?_of_slot (hst.slots hslot)]
  apply Option.bind_congr
  intro entry hentry
  have hstate := Array.getElem?_eq_getElem (hs.entry_lt_of_slot hslot hentry)
  rw [hst.states hstate, hstate]

def Advances (s t : Store) : Prop :=
  ∀ ⦃h state⦄, s.tupleState? h = some state →
    ∃ next, t.tupleState? h = some next ∧ state.Precedes next

theorem Advances.of_eq (heq : ∀ h, s.contains h → t.tupleState? h = s.tupleState? h) :
    s.Advances t := by
  intro h state hstate
  have hh := contains_of_tupleState hstate
  exact ⟨state, (heq h hh).trans hstate, .refl state⟩

theorem Advances.trans (hst : s.Advances t) (htu : t.Advances u) : s.Advances u := by
  intro h state hstate
  obtain ⟨next, hnext, hprecedes⟩ := hst hstate
  obtain ⟨last, hlast, hprecedes'⟩ := htu hnext
  exact ⟨last, hlast, hprecedes.trans hprecedes'⟩

theorem Extends.advances (hst : s.Extends t) (hs : s.Linked) : s.Advances t :=
  .of_eq fun _ hh => hst.tupleState?_eq hs hh

/-- A change that takes every state to one that may come after it. Whose state it is depends on the
slots only. -/
theorem Linked.advances_withState {change : TupleState → TupleState} (hs : s.Linked)
    (hslots : t.slots = s.slots) (hchange : ∀ state : TupleState, state.Precedes (change state)) :
    t.Advances (t.withState h change) := by
  intro x state hstate
  by_cases hx : x = h
  · subst hx
    exact ⟨change state, by rw [tupleState?_withState_self, hstate]; rfl, hchange state⟩
  · exact ⟨state, (hs.tupleState?_withState_of_ne hslots change hx).trans hstate, .refl state⟩

theorem Move.advances (hst : Move s t) (hs : s.WellFormed) : s.Advances t := by
  cases hst with
  | @bound lower upper _ _ _ =>
    have hlower : s.Advances (s.withState lower (·.addUpper upper)) :=
      hs.linked.advances_withState rfl (.addUpper upper)
    exact hlower.trans (hs.linked.advances_withState slots_withState (.addLower lower))
  | @promotion tuple element array params t u hshape hunion harray =>
    intro x state hstate
    rw [tupleState?_promotedTo hs hshape hunion harray]
    split
    next hx =>
      subst hx
      have hfixed := isFixed_of_shape hshape
      rw [IsFixed, hstate] at hfixed
      cases state with
      | fixed upper lower => exact ⟨_, rfl, .promotion array⟩
      | promoted array' => simp [TupleState.array?] at hfixed
    next => exact ⟨state, hstate, .refl state⟩
  | broken tuple => exact .of_eq fun _ _ => rfl

theorem Step.advances (hst : Step s t) (hs : s.WellFormed) : s.Advances t := by
  cases hst with
  | add hadds =>
    obtain ⟨node, traits, digest, ha, rfl⟩ := hadds
    exact (Extends.allocate s node traits digest).advances hs.linked
  | move hmove => exact hmove.advances hs
  | intern hintern => exact .of_eq fun _ _ => rfl

theorem Steps.advances (hst : Steps s t) (hs : s.WellFormed) : s.Advances t := by
  induction hst with
  | refl => exact .of_eq fun _ _ => rfl
  | tail hsm hstep ih =>
    have hm := (Steps.evolves hsm).wellFormed hs
    exact ih.trans (hstep.advances hm)

theorem Proceeds.advances (hst : Proceeds s t) (hs : s.WellFormed) : s.Advances t := by
  obtain ⟨m, hsm, rfl | ⟨child, parent, rfl⟩⟩ := hst
  · exact hsm.advances hs
  · exact (hsm.advances hs).trans (.of_eq fun _ _ => rfl)

end States

section Formation

theorem Interns.extends (hst : s.Interns t) : s.Extends t := by
  obtain ⟨text, name, names, -, rfl⟩ := hst
  exact ⟨.of_slots rfl rfl, id⟩

/-- Formation makes types and enters texts, so the store only grows. -/
theorem Forms.extends (hst : Forms s t) : s.Extends t := by
  induction hst with
  | refl => exact .refl s
  | tail _ hstep ih =>
    rcases hstep with ⟨node, traits, digest, -, rfl⟩ | hinterns
    · exact ih.trans (.allocate _ node traits digest)
    · exact ih.trans hinterns.extends

theorem Extends.persists (hst : s.Extends t) (hnames : s.names.Keeps t.names) : s.Persists t :=
  ⟨hst.toRetains, hnames, hst.shape_eq⟩

/-- A description is found or made, whatever the names in it. -/
private theorem internNode_leaves (s : Store) (node : Node) (traits : Traits) :
    Leaves (internNode node traits) s fun t => s.Extends t ∧ t.names = s.names := by
  rw [Leaves, internNode]
  cases s.entered? node with
  | some h => exact ⟨.refl s, rfl⟩
  | none => exact ⟨.allocate s node traits 0, names_allocate ..⟩

end Formation

end Store

namespace Operation

open Store

variable {s : Store}

/-- An operation on a name that the table does not know makes at most one type. -/
private theorem apply_of_unknown {op : Operation} (hop : ¬ op.IsGrounded s) :
    s.Extends (op.apply s) ∧ (op.apply s).names = s.names := by
  have hleaves : Leaves op.run s fun t => s.Extends t ∧ t.names = s.names := by
    cases op with
    | nominalNamed name =>
      apply Leaves.discard
      rw [Leaves, nominalNamed_run]
      exact internNode_leaves s _ _
    | symbolNamed name =>
      apply Leaves.discard
      rw [Leaves, symbolNamed_run]
      exact internNode_leaves s _ _
    | varNamed name =>
      apply Leaves.discard
      rw [Leaves, varNamed_run]
      exact internNode_leaves s _ _
    | _ => exact absurd trivial hop
  exact apply_of_leaves hleaves

private theorem apply_persists (hs : s.WellFormed) (op : Operation) : s.Persists (op.apply s) := by
  by_cases hop : op.IsGrounded s
  · exact (op.apply_evolves hs hop).persists hs
  · obtain ⟨hextends, hnames⟩ := apply_of_unknown hop
    apply hextends.persists
    rw [hnames]
    exact .refl s.names

private theorem apply_advances (hs : s.WellFormed) (op : Operation) : s.Advances (op.apply s) := by
  by_cases hop : op.IsGrounded s
  · exact (apply_of_leaves (op.run_proceeds hs hop)).advances hs
  · exact (apply_of_unknown hop).1.advances hs.linked

private theorem declareSuperclass_extends (hs : s.WellFormed) (child parent : String) :
    Leaves (Store.declareSuperclass child parent) s s.Extends := by
  have hintern : ∀ {s t u : Store}, s.Interns t → t.Extends u → s.Extends u :=
    fun hst htu => hst.extends.trans htu
  apply hs.intern_bind (R := Extends) (.refl s) hintern
  intro child names hs _
  apply hs.intern_bind (R := Extends) (.refl _) hintern
  intro parent names _ _
  exact ⟨.of_slots rfl rfl, id⟩

/-- An operation that is no search adds to the store and leaves all else as it was. -/
theorem apply_extends (hs : s.WellFormed) (op : Operation) (hsearches : op.isSearch = false) :
    s.Extends (op.apply s) := by
  by_cases hop : op.IsGrounded s
  · cases hdeclares : op.isDeclaration with
    | false => exact (apply_of_leaves (op.run_forms hs hop hdeclares hsearches)).extends
    | true =>
      cases op with
      | declareSuperclass child parent =>
        have hleaves : Leaves (run (.declareSuperclass child parent)) s s.Extends :=
          declareSuperclass_extends hs child parent
        exact apply_of_leaves hleaves
      | _ => cases hdeclares
  · exact (apply_of_unknown hop).1

end Operation

open Store in
/-- A reachable store is append-only. After any operation, whether or not it failed, every type that
was there is still there, with the same node and so with the same kind, name and components, and
with the same traits and digest. Two such types compare as before, and a name has the text that it
had. The state of a tuple is as it was or comes after it: further bounds stand behind the old ones,
or the tuple was promoted, and one that was promoted before stands for the same array type. An
operation that is no search changes no state at all. -/
theorem Reachable.append_only {s : Store} (hs : Reachable s) (op : Operation) :
    (∀ h, s.contains h → (op.apply s).contains h ∧
      (∃ node, s.node h = .ok node ∧ (op.apply s).node h = .ok node) ∧
      (∃ traits, s.traits h = .ok traits ∧ (op.apply s).traits h = .ok traits) ∧
      ∃ word, s.digest h = .ok word ∧ (op.apply s).digest h = .ok word) ∧
    (∀ a b, s.contains a → s.contains b →
      ∃ found, s.order a b = .ok found ∧ (op.apply s).order a b = .ok found) ∧
    (∀ name text, s.names.text name = .ok text → (op.apply s).names.text name = .ok text) ∧
    (∀ h, s.IsTuple h → ∃ state next, s.tupleState? h = some state ∧
      (op.apply s).tupleState? h = some next ∧ state.Precedes next) ∧
    (op.isSearch = false → ∀ h, s.contains h → (op.apply s).tupleState? h = s.tupleState? h) := by
  have hwf := hs.wellFormed
  have hpersists := op.apply_persists hwf
  have hretains := hpersists.toRetains
  refine ⟨fun h hh => ?_, fun a b ha hb => ?_, fun name text htext => ?_, fun h hh => ?_,
    fun hsearches h hh => ?_⟩
  · obtain ⟨slot, hslot⟩ := exists_slot hh
    obtain ⟨word, hword⟩ := digest_answered hwf.linked hh
    have hslot' := hretains.slots hslot
    exact ⟨hretains.contains hh, ⟨_, node_of_slot hslot, node_of_slot hslot'⟩,
      ⟨_, traits_of_slot hslot, traits_of_slot hslot'⟩,
      word, hword, (digest_eq hretains hwf.linked hh).trans hword⟩
  · have horder := order_eq hwf.linked hwf.named ha hb
    have hlater := order_eq_of_retains hretains hpersists.names hwf.linked hwf.named ha hb
    exact ⟨_, horder, hlater.trans horder⟩
  · exact hpersists.names.text_eq htext
  · obtain ⟨state, hstate⟩ := hh.exists_state hwf.linked
    obtain ⟨next, hnext, hprecedes⟩ := op.apply_advances hwf hstate
    exact ⟨state, next, hstate, hnext, hprecedes⟩
  · exact (op.apply_extends hwf hsearches).tupleState?_eq hwf.linked hh

/-- Two searches and a substitution in `pairStore`. The first search adds a bound behind the one
that a tuple has, the second promotes both tuples, and the substitution makes a copy of one. The
tuples compare equal and keep their digests all along. -/
theorem pairStore_append_only :
    let bounded := (Operation.subtype ⟨8⟩ ⟨8⟩).apply pairStore
    let promoted := (Operation.subtype ⟨7⟩ ⟨10⟩).apply pairStore
    let copied := (Operation.instantiate ⟨7⟩ .empty).apply pairStore
    Reachable pairStore ∧ pairStore.contains ⟨7⟩ ∧ pairStore.contains ⟨8⟩ ∧
      pairStore.tupleState? ⟨8⟩ = some (.fixed [⟨7⟩] [⟨7⟩]) ∧
      bounded.tupleState? ⟨8⟩ = some (.fixed ([⟨7⟩] ++ [⟨8⟩]) ([⟨7⟩] ++ [⟨8⟩])) ∧
      promoted.tupleState? ⟨8⟩ = some (.promoted ⟨10⟩) ∧ promoted.order ⟨7⟩ ⟨8⟩ = .ok .eq ∧
      promoted.digest ⟨8⟩ = pairStore.digest ⟨8⟩ ∧
      copied.size = pairStore.size + 1 ∧ copied.tupleState? ⟨8⟩ = pairStore.tupleState? ⟨8⟩ := by
  intro bounded promoted copied
  have hfirst : pairStore.contains ⟨7⟩ := by decide +kernel
  have hsecond : pairStore.contains ⟨8⟩ := by decide +kernel
  have horder : pairStore.order ⟨7⟩ ⟨8⟩ = .ok .eq := by decide +kernel
  obtain ⟨htypes, horders, -, -, -⟩ :=
    Reachable.append_only reachable_pairStore (.subtype ⟨7⟩ ⟨10⟩)
  obtain ⟨-, -, -, word, hword, hlater⟩ := htypes ⟨8⟩ hsecond
  obtain ⟨found, hfound, hstill⟩ := horders ⟨7⟩ ⟨8⟩ hfirst hsecond
  rw [horder] at hfound
  cases hfound
  obtain ⟨-, -, -, -, hstates⟩ :=
    Reachable.append_only reachable_pairStore (.instantiate ⟨7⟩ .empty)
  refine ⟨reachable_pairStore, hfirst, hsecond, ?_, ?_, ?_, hstill, hlater.trans hword.symm, ?_,
    hstates rfl ⟨8⟩ hsecond⟩
  · decide +kernel
  · decide +kernel
  · decide +kernel
  · decide +kernel

end GradualTypes
