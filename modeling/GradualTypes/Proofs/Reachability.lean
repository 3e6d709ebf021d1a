import GradualTypes.Operation
import GradualTypes.Proofs.Search
import GradualTypes.Proofs.Substitution

/-!
What operations do to a store. Whatever an operation does is a sequence of changes of four sorts: it
makes types, changes the states of tuples as a search does, enters texts and declares superclasses.
Only one operation declares superclasses; what the others do is a sequence of steps of three sorts.
Those that do not search make types and enter texts only. One that fails does so at a check, before
it has changed anything but the table of names. So what every change preserves holds of every
reachable store; in particular such a store is well formed.
-/

namespace GradualTypes

namespace Store

variable {s t u : Store} {a b : Handle}

section Evolution

/-- One change of a store: a type is made, a search changes the states of tuples, a text is entered
in the table of names, or a superclass is declared. -/
inductive Change (s : Store) : Store → Prop where
  | add {t : Store} (hadds : s.Adds t) : Change s t
  | shift {t : Store} (hshift : Shift s t) : Change s t
  | intern {text : String} {name : Name} {names : NameTable}
      (hintern : s.names.intern text = .ok (name, names)) : Change s { s with names }
  | declare (child parent : Name) :
      Change s { s with hierarchy := s.hierarchy.declare child parent }

def Evolves : Store → Store → Prop :=
  Relation.ReflTransGen Change

theorem Evolves.trans (hst : Evolves s t) (htu : Evolves t u) : Evolves s u :=
  Relation.ReflTransGen.trans hst htu

theorem Change.wellFormed (hst : Change s t) (hs : s.WellFormed) : t.WellFormed := by
  cases hst with
  | add hadds =>
    obtain ⟨node, traits, digest, ha, rfl⟩ := hadds
    exact hs.allocate ha
  | shift hshift => exact (hshift.settles hs).wellFormed
  | intern hintern => exact hs.intern hintern
  | declare child parent => exact hs.declare child parent

theorem Evolves.wellFormed (hst : Evolves s t) (hs : s.WellFormed) : t.WellFormed := by
  induction hst with
  | refl => exact hs
  | tail _ hchange ih => exact hchange.wellFormed ih

theorem Shifts.evolves (hst : Shifts s t) : Evolves s t := by
  induction hst with
  | refl => exact .refl
  | tail _ hshift ih => exact ih.tail (.shift hshift)

end Evolution

section Steps

/-- One step of an operation that declares no superclass: a type is made, a search makes a move, or
a text is entered in the table of names. -/
inductive Step (s : Store) : Store → Prop where
  | add {t : Store} (hadds : s.Adds t) : Step s t
  | move {t : Store} (hmove : Move s t) : Step s t
  | intern {text : String} {name : Name} {names : NameTable}
      (hintern : s.names.intern text = .ok (name, names)) : Step s { s with names }

def Steps : Store → Store → Prop :=
  Relation.ReflTransGen Step

def Interns (s t : Store) : Prop :=
  ∃ text name names, s.names.intern text = .ok (name, names) ∧ t = { s with names }

def Forms : Store → Store → Prop :=
  Relation.ReflTransGen fun s t => s.Adds t ∨ s.Interns t

theorem Steps.trans (hst : Steps s t) (htu : Steps t u) : Steps s u :=
  Relation.ReflTransGen.trans hst htu

theorem Step.evolves (hst : Step s t) : Evolves s t := by
  cases hst with
  | add hadds => exact .single (.add hadds)
  | move hmove => exact hmove.shifts.evolves
  | intern hintern => exact .single (.intern hintern)

theorem Steps.evolves (hst : Steps s t) : Evolves s t := by
  induction hst with
  | refl => exact .refl
  | tail _ hstep ih => exact ih.trans hstep.evolves

theorem Interns.step (hst : s.Interns t) : Step s t := by
  obtain ⟨text, name, names, hintern, rfl⟩ := hst
  exact .intern hintern

theorem Forms.steps (hst : Forms s t) : Steps s t := by
  induction hst with
  | refl => exact .refl
  | tail _ hstep ih =>
    rcases hstep with hadds | hinterns
    · exact ih.tail (.add hadds)
    · exact ih.tail hinterns.step

theorem Grows.forms (hst : s.Grows t) : Forms s t := by
  have hadded := hst.added
  clear hst
  induction hadded with
  | refl => exact .refl
  | tail _ hadds ih => exact ih.tail (.inl hadds)

theorem Grows.steps (hst : s.Grows t) : Steps s t :=
  hst.forms.steps

theorem Grows.evolves (hst : s.Grows t) : Evolves s t :=
  hst.steps.evolves

theorem Moves.steps (hst : Moves s t) : Steps s t := by
  induction hst with
  | refl => exact .refl
  | tail _ hmove ih => exact ih.tail (.move hmove)

/-- What an operation does: it takes steps, and then at most declares a superclass. -/
def Proceeds (s t : Store) : Prop :=
  ∃ m, Steps s m ∧
    (t = m ∨ ∃ child parent, t = { m with hierarchy := m.hierarchy.declare child parent })

theorem Proceeds.head (hst : Step s t) (htu : Proceeds t u) : Proceeds s u := by
  obtain ⟨m, htm, hmu⟩ := htu
  exact ⟨m, .head hst htm, hmu⟩

theorem Proceeds.evolves (hst : Proceeds s t) : Evolves s t := by
  obtain ⟨m, hsm, rfl | ⟨child, parent, rfl⟩⟩ := hst
  · exact hsm.evolves
  · exact hsm.evolves.tail (.declare child parent)

end Steps

/-- Entering a text may fail, and then the store is left as it was. -/
theorem WellFormed.intern_bind {β : Type} {text : String} {f : Name → StoreM β}
    {R : Store → Store → Prop} (hs : s.WellFormed) (hrefl : R s s)
    (hstep : ∀ {t u}, s.Interns t → R t u → R s u)
    (hf : ∀ name names, { s with names }.WellFormed → (∃ text, names.text? name = some text) →
      Leaves (f name) { s with names } (R { s with names })) :
    Leaves (Store.intern text >>= f) s (R s) := by
  cases hintern : s.names.intern text with
  | error e =>
    exact .of_error (bind_run_error (intern_run_error hintern)) hrefl
  | ok result =>
    obtain ⟨name, names⟩ := result
    have hrest := hf name names (hs.intern hintern) ⟨text, hs.orderly.text?_of_intern hintern⟩
    rw [Leaves, bind_run (intern_run hintern)]
    exact hrest.mono fun t hst => hstep ⟨text, name, names, hintern, rfl⟩ hst

private theorem Forms.of_formed {op : StoreM Handle} {node : Node}
    (h : Returns op s (Formed s node)) : Leaves op s (Forms s) :=
  .of_returns (h.mono fun _ _ hformed => hformed.grows.forms)

/-- A search for a handle that is no type of the store fails before it changes anything. -/
theorem subtypeWithin_leaves (depth : Nat) (h : ¬ s.contains a ∨ ¬ s.contains b) :
    Leaves (subtypeWithin depth a b) s (· = s) := by
  induction depth generalizing a with
  | zero => exact .of_error rfl rfl
  | succ depth ih =>
    refine .ask_bind rfl fun left hleft => ?_
    have hb : ¬ s.contains b := h.resolve_left (absurd (Linked.contains_of_shape hleft))
    have hcanonical : ∀ {sup}, s.canonical b ≠ .ok sup := by
      intro sup hsup
      obtain ⟨shape, hshape, -⟩ := bind_eq_ok_iff.mp hsup
      exact hb (Linked.contains_of_shape hshape)
    cases left with
    | promoted array => exact ih (.inr hb)
    | _ => exact .ask_bind rfl fun sup hsup => absurd hsup hcanonical

theorem WellFormed.subtype (hs : s.WellFormed) (a b : Handle) :
    Leaves (Store.subtype a b) s (Steps s) := by
  by_cases hab : s.contains a ∧ s.contains b
  · exact .of_returns ((subtype_moves hs hab.1 hab.2).mono fun _ t hst => hst.steps)
  · rw [Leaves, subtype_run]
    exact (subtypeWithin_leaves s.searchDepth (not_and_or.mp hab)).mono fun t ht => ht ▸ .refl

theorem WellFormed.promote (hs : s.WellFormed) (a : Handle) :
    Leaves (Store.promote a) s (Steps s) := by
  by_cases ha : s.contains a
  · exact .of_returns ((promote_moves hs ha).mono fun _ t hst => hst.steps)
  · rw [Leaves, promote_run]
    exact Leaves.ask_bind .refl fun shape hshape => absurd (Linked.contains_of_shape hshape) ha

end Store

namespace Operation

open Store

variable {s : Store}

def isDeclaration : Operation → Bool
  | declareSuperclass _ _ => true
  | _ => false

def isSearch : Operation → Bool
  | subtype _ _ | promote _ => true
  | _ => false

/-- Whatever an operation that neither searches nor declares a superclass does to a well-formed
store is formation, whether or not it fails. -/
theorem run_forms (hs : s.WellFormed) (op : Operation) (hop : op.IsGrounded s)
    (hdeclares : op.isDeclaration = false) (hsearches : op.isSearch = false) :
    Leaves op.run s (Forms s) := by
  have hnamed : ∀ {name}, (s.names.text? name).isSome → ∃ text, s.names.text? name = some text :=
    Option.isSome_iff_exists.mp
  -- entering a text is a step before those of the rest
  have hintern : ∀ {β : Type} {text : String} {f : Name → StoreM β} {s : Store}, s.WellFormed →
      (∀ name names, { s with names }.WellFormed → (∃ text, names.text? name = some text) →
        Leaves (f name) { s with names } (Forms { s with names })) →
      Leaves (Store.intern text >>= f) s (Forms s) := fun hs hf =>
    hs.intern_bind .refl (fun hinterns => .head (.inr hinterns)) hf
  cases op with
  | intern text =>
    change Leaves (Store.intern text >>= fun _ => pure ()) s (Forms s)
    exact hintern hs fun _ _ _ _ => .refl
  | declareSuperclass child parent => cases hdeclares
  | nominal text =>
    refine .discard (hintern hs fun name names hs hname => ?_)
    exact Forms.of_formed (nominalNamed_returns hs hname)
  | symbol text =>
    refine .discard (hintern hs fun name names hs hname => ?_)
    exact Forms.of_formed (symbolNamed_returns hs hname)
  | var text =>
    refine .discard (hintern hs fun name names hs hname => ?_)
    exact Forms.of_formed (varNamed_returns hs hname)
  | nominalNamed name =>
    exact .discard (Forms.of_formed (nominalNamed_returns hs (hnamed hop)))
  | symbolNamed name =>
    exact .discard (Forms.of_formed (symbolNamed_returns hs (hnamed hop)))
  | varNamed name =>
    exact .discard (Forms.of_formed (varNamed_returns hs (hnamed hop)))
  | generic base params =>
    refine .discard (.ask_bind .refl fun _ hbase => .ask_bind .refl fun _ hparams => ?_)
    exact Forms.of_formed (formGeneric_returns hs (nominal_of_checkBase hbase)
      (checkParamsFrom_eq_ok_iff.mp hparams))
  | array element =>
    refine .discard (.ask_bind .refl fun _ helement => ?_)
    exact Forms.of_formed (formArray_returns hs (checkParam_eq_ok_iff.mp helement))
  | annotated label inner =>
    refine .discard (.ask_bind .refl fun _ hinner => hintern hs fun name names hs' hname => ?_)
    exact Forms.of_formed (formAnnotated_returns hs' hname (checkParam_eq_ok_iff.mp hinner))
  | union types =>
    refine .discard (.ask_bind .refl fun _ htypes => .of_returns ?_)
    exact (formUnion_returns hs (checkParamsFrom_eq_ok_iff.mp htypes)).mono
      fun _ _ ⟨_, _, h⟩ => h.grows.forms
  | intersection types =>
    refine .discard (.ask_bind .refl fun _ htypes => .of_returns ?_)
    exact (formIntersection_returns hs (checkParamsFrom_eq_ok_iff.mp htypes)).mono
      fun _ _ ⟨_, _, h⟩ => h.grows.forms
  | tuple params =>
    refine .discard (.ask_bind .refl fun _ hparams => .of_returns ?_)
    exact (formTuple_returns hs (checkParamsFrom_eq_ok_iff.mp hparams)).mono
      fun _ _ ⟨_, _, h⟩ => h.grows.forms
  | instantiate h subst =>
    refine .discard (.ask_bind .refl fun _ hh => .ask_bind .refl fun _ hsubst => .of_returns ?_)
    have hrank := hs.linked.rank_le_size h
    have hinstance := instantiateWithin_returns hs (checkParamsFrom_eq_ok_iff.mp hsubst) _
      (.refl s) (checkParam_eq_ok_iff.mp hh) (Nat.lt_succ_of_le hrank)
    exact .step rfl (hinstance.mono fun _ _ hpost => hpost.1.forms)
  | subtype a b => cases hsearches
  | promote a => cases hsearches

/-- Whatever an operation that declares no superclass does to a well-formed store is a sequence of
steps, whether or not it fails. -/
theorem run_steps (hs : s.WellFormed) (op : Operation) (hop : op.IsGrounded s)
    (hdeclares : op.isDeclaration = false) : Leaves op.run s (Steps s) := by
  cases hsearches : op.isSearch with
  | false => exact (op.run_forms hs hop hdeclares hsearches).mono fun t hst => hst.steps
  | true =>
    cases op with
    | subtype a b => exact .discard (hs.subtype a b)
    | promote a => exact .discard (hs.promote a)
    | _ => cases hsearches

theorem apply_of_run {α : Type} (op : Operation) {make : StoreM α} {answer : α} {t : Store}
    (hop : op.run = discard make) (hrun : make s = .ok answer t) : op.apply s = t := by
  have hdiscard : Functor.discard make s = (make >>= fun _ => pure PUnit.unit) s := rfl
  rw [apply, hop, hdiscard, bind_run hrun]
  rfl

/-- An operation that returns leaves the store that is its result. -/
theorem run_eq_apply {α : Type} {op : Operation} {make : StoreM α} {answer : α}
    (hop : op.run = discard make) (hrun : make.run' s = some answer) :
    make s = .ok answer (op.apply s) := by
  obtain ⟨t, ht⟩ := exists_run_of_run' hrun
  rw [ht, apply_of_run op hop ht]

theorem run_proceeds (hs : s.WellFormed) (op : Operation) (hop : op.IsGrounded s) :
    Leaves op.run s (Proceeds s) := by
  cases hdeclares : op.isDeclaration with
  | false =>
    exact (op.run_steps hs hop hdeclares).mono fun t hst => ⟨t, hst, .inl rfl⟩
  | true =>
    cases op with
    | declareSuperclass child parent =>
      refine hs.intern_bind ⟨_, .refl, .inl rfl⟩ (.head ·.step) fun child names hs _ => ?_
      refine hs.intern_bind ⟨_, .refl, .inl rfl⟩ (.head ·.step) fun parent names _ _ => ?_
      exact ⟨_, .refl, .inr ⟨child, parent, rfl⟩⟩
    | _ => cases hdeclares

/-- What a run of an operation leaves is the store after it. -/
theorem apply_of_leaves {post : Store → Prop} {op : Operation} (h : Leaves op.run s post) :
    post (op.apply s) := by
  rw [Leaves] at h
  rw [Operation.apply]
  cases hrun : op.run s with
  | ok answer after =>
    rw [hrun] at h
    exact h
  | error e after =>
    rw [hrun] at h
    exact h

/-- Whatever an operation does to a well-formed store is a sequence of changes, whether or not it
fails. -/
theorem apply_evolves (hs : s.WellFormed) (op : Operation) (hop : op.IsGrounded s) :
    Evolves s (op.apply s) :=
  (apply_of_leaves (op.run_proceeds hs hop)).evolves

end Operation

/-- Every reachable store is well formed. -/
theorem Reachable.wellFormed {s : Store} (hs : Reachable s) : s.WellFormed := by
  induction hs with
  | initial => exact Store.wellFormed_initial
  | @step s op _ hop ih => exact (op.apply_evolves ih hop).wellFormed ih

/-- A reachable store has evolved from an initial one. -/
theorem Reachable.evolves {s : Store} (hs : Reachable s) :
    ∃ hash, Store.Evolves (.initial hash) s := by
  induction hs with
  | initial hash => exact ⟨hash, .refl⟩
  | @step s op hs hop ih =>
    exact ih.imp fun _ hevolves => hevolves.trans (op.apply_evolves hs.wellFormed hop)

/-- What holds of the initial stores, is kept by every step and does not depend on the superclasses
holds of every reachable store. -/
theorem Reachable.invariant {holds : Store → Prop} {s : Store}
    (hinitial : ∀ hash, holds (.initial hash))
    (hstep : ∀ {s t}, s.WellFormed → Store.Step s t → holds s → holds t)
    (hdeclare : ∀ {s} hierarchy, holds s → holds { s with hierarchy }) (hs : Reachable s) :
    holds s := by
  induction hs with
  | initial hash => exact hinitial hash
  | @step s op hs hop ih =>
    have hsteps : ∀ {t}, Store.Steps s t → holds t := by
      intro t hst
      induction hst with
      | refl => exact ih
      | tail hsm hmt ih =>
        exact hstep ((Store.Steps.evolves hsm).wellFormed hs.wellFormed) hmt ih
    obtain ⟨m, hsm, heq | ⟨child, parent, heq⟩⟩ :=
      Operation.apply_of_leaves (op.run_proceeds hs.wellFormed hop)
    · rw [heq]
      exact hsteps hsm
    · rw [heq]
      exact hdeclare _ (hsteps hsm)

/-- The stores to which operations of some sort, on known names, lead from a given one. -/
inductive Leads (allowed : Operation → Prop) (s : Store) : Store → Prop where
  | refl : Leads allowed s s
  | step {t : Store} (op : Operation) :
      Leads allowed s t → allowed op → op.IsGrounded t → Leads allowed s (op.apply t)

namespace Leads

variable {allowed : Operation → Prop} {s t : Store}

theorem reachable (hst : Leads allowed s t) (hs : Reachable s) : Reachable t := by
  induction hst with
  | refl => exact hs
  | step op _ _ hop ih => exact .step op ih hop

theorem evolves (hst : Leads allowed s t) (hs : Reachable s) : Store.Evolves s t := by
  induction hst with
  | refl => exact .refl
  | step op hst _ hop ih =>
    exact ih.trans (op.apply_evolves (hst.reachable hs).wellFormed hop)

/-- Operations that declare no superclass take steps only. -/
theorem steps (hst : Leads allowed s t) (hs : Reachable s)
    (hallowed : ∀ op, allowed op → op.isDeclaration = false) : Store.Steps s t := by
  induction hst with
  | refl => exact .refl
  | step op hst hop hgrounded ih =>
    have hrun := op.run_steps (hst.reachable hs).wellFormed hgrounded (hallowed op hop)
    exact ih.trans (Operation.apply_of_leaves hrun)

theorem trans {u : Store} (hst : Leads allowed s t) (htu : Leads allowed t u) :
    Leads allowed s u := by
  induction htu with
  | refl => exact hst
  | step op _ hop hgrounded ih => exact .step op ih hop hgrounded

/-- Operations that do not search either only form types. -/
theorem forms (hst : Leads (fun op => op.isDeclaration = false ∧ op.isSearch = false) s t)
    (hs : Reachable s) : Store.Forms s t := by
  induction hst with
  | refl => exact .refl
  | step op hst hop hgrounded ih =>
    have hrun := op.run_forms (hst.reachable hs).wellFormed hgrounded hop.1 hop.2
    exact Relation.ReflTransGen.trans ih (Operation.apply_of_leaves hrun)

end Leads

/-- An operation that mentions no name is grounded in every store. -/
def Operation.isNameless : Operation → Bool
  | nominalNamed _ | symbolNamed _ | varNamed _ => false
  | _ => true

theorem Reachable.foldl {s : Store} {ops : List Operation} (hs : Reachable s)
    (hops : ops.all Operation.isNameless) :
    Reachable (ops.foldl (fun s op => op.apply s) s) := by
  induction ops generalizing s with
  | nil => exact hs
  | cons op rest ih =>
    obtain ⟨hop, hrest⟩ := Bool.and_eq_true_iff.mp hops
    have hgrounded : op.IsGrounded s := by
      cases op with
      | nominalNamed _ | symbolNamed _ | varNamed _ => cases hop
      | _ => trivial
    exact ih (.step op hs hgrounded) hrest

def Store.after (history : List Operation) : Store :=
  history.foldl (fun s op => op.apply s) .initial

theorem Reachable.after {history : List Operation} (h : history.all Operation.isNameless) :
    Reachable (.after history) :=
  .foldl (.initial _) h

/-- Two tuples of an integer and a string that were found below each other, one of them also below
itself, then the union of their elements, the array type of it, and the class of all objects. -/
def pairStore : Store :=
  .after [.nominal "Integer", .nominal "String", .tuple [⟨5⟩, ⟨6⟩], .tuple [⟨5⟩, ⟨6⟩],
    .subtype ⟨7⟩ ⟨8⟩, .subtype ⟨8⟩ ⟨7⟩, .subtype ⟨7⟩ ⟨7⟩, .union [⟨6⟩, ⟨5⟩], .array ⟨9⟩,
    .nominal "Object"]

theorem reachable_pairStore : Reachable pairStore :=
  .after (by decide)

end GradualTypes
