import GradualTypes.Proofs.Inventory
import GradualTypes.Proofs.Walks

/-!
Stores without dangling handles. Every handle that a reachable store keeps, in nodes, in the states
of tuples and in catalogs, is a type of that store. So no question about types of the store and no
operation on them meets a handle or a name that does not exist, or a walk without an end. What can
still fail is the formation of a generic type over a base that is no class, which is rejected, and
the entry of a text whose shard is full.
-/

namespace GradualTypes

def TupleState.handles : TupleState → List Handle
  | fixed upper lower => upper ++ lower
  | promoted array => [array]

/-- The operation ends without a failure, unless one of some texts finds its shard full. -/
def Completes {α : Type} (op : StoreM α) (texts : List String) (s : Store) : Prop :=
  (∃ answer after, op s = .ok answer after) ∨ ∃ text ∈ texts, ∃ after,
    after.names.IsFull (NameTable.shardOf text) ∧ op s = .error (after.names.overflow text) after

namespace Completes

variable {α β : Type} {op : StoreM α} {f : α → StoreM β} {texts : List String} {s : Store}

theorem of_returns {post : α → Store → Prop} (h : Returns op s post) : Completes op texts s := by
  obtain ⟨answer, after, hrun, -⟩ := h
  exact .inl ⟨answer, after, hrun⟩

theorem ask_bind {question : Store → Except Error α} {answer : α}
    (hask : question s = .ok answer) (h : Completes (f answer) texts s) :
    Completes (Store.ask question >>= f) texts s := by
  rw [Completes, bind_run (ask_run hask)]
  exact h

theorem discard (h : Completes op texts s) : Completes (Functor.discard op) texts s := by
  have hrun : Functor.discard op s = (op >>= fun _ => pure PUnit.unit) s := rfl
  rw [Completes, hrun]
  rcases h with ⟨answer, after, hop⟩ | ⟨text, htext, after, hfull, hop⟩
  · exact .inl ⟨_, after, bind_run hop⟩
  · exact .inr ⟨text, htext, after, hfull, bind_run_error hop⟩

/-- Entering one of the texts, with the rest done in the store that knows it. -/
theorem intern_bind {text : String} {f : Name → StoreM β} (hs : s.WellFormed)
    (htext : text ∈ texts)
    (hf : ∀ name names, { s with names }.WellFormed → (∃ text, names.text? name = some text) →
      Completes (f name) texts { s with names }) :
    Completes (Store.intern text >>= f) texts s := by
  cases hintern : s.names.intern text with
  | error e =>
    obtain ⟨rfl, hfull⟩ := NameTable.intern_error hintern
    exact .inr ⟨text, htext, s, hfull, bind_run_error (intern_run_error hintern)⟩
  | ok result =>
    obtain ⟨name, names⟩ := result
    rw [Completes, bind_run (intern_run hintern)]
    exact hf name names (hs.intern hintern) ⟨text, hs.orderly.text?_of_intern hintern⟩

end Completes

namespace Store

variable {s : Store} {x : Handle}

/-- A store keeps a handle in the node of a type, in the state of a tuple, in the key of a catalog
or as the value of an entry. -/
inductive Mentions (s : Store) (x : Handle) : Prop where
  | node {h : Handle} {node : Node} (hnode : s.node h = .ok node) (hx : x ∈ node.refs)
  | state {entry : Nat} {state : TupleState} (hstate : s.states[entry]? = some state)
      (hx : x ∈ state.handles)
  | key {kind : Kind} {node : Node} {h : Handle} (hentry : (node, h) ∈ s.listing kind)
      (hx : x ∈ node.refs)
  | value {kind : Kind} {node : Node} (hentry : (node, x) ∈ s.listing kind)
  | set {kind : SetKind} {digest : UInt64} (hentry : (digest, x) ∈ (s.sets kind).entries)

/-- What a store keeps is there: handles are types of it, the bases of generic types are classes,
and every tuple has a state, which no other type has. -/
structure Closed (s : Store) : Prop where
  contains : ∀ x, s.Mentions x → s.contains x
  base : ∀ h base params, s.node h = .ok (.generic base params) →
    ∃ name, s.node base = .ok (.nominal name)
  entry : ∀ h params digest entry, s.node h = .ok (.tuple params digest entry) →
    entry < s.tupleCount ∧
      ∀ h' params' digest', s.node h' = .ok (.tuple params' digest' entry) → h' = h

theorem WellFormed.closed (hs : s.WellFormed) (hi : s.Inventoried) : s.Closed where
  contains x hx := by
    cases hx with
    | node hnode hx =>
      obtain ⟨traits, hslot⟩ := exists_slot_of_node hnode
      exact hs.linked.contains_of_refs hslot hx
    | @state entry state hstate hx =>
      cases state with
      | fixed upper lower => exact (hs.linked.bound_tuple hstate x hx).contains
      | promoted array =>
        obtain ⟨element, traits, hslot⟩ := hs.linked.promoted_array hstate
        rw [List.mem_singleton.mp hx]
        exact contains_of_slot hslot
    | key hentry hx =>
      obtain ⟨traits, hslot⟩ := hi.slot_of_listing hentry
      exact hs.linked.contains_of_refs hslot hx
    | value hentry =>
      obtain ⟨traits, hslot⟩ := hi.slot_of_listing hentry
      exact contains_of_slot hslot
    | set hentry =>
      obtain ⟨members, traits, hslot⟩ := hs.gathered.slot_of_entry hentry
      exact contains_of_slot hslot
  base h base params hnode := by
    obtain ⟨traits, hslot⟩ := exists_slot_of_node hnode
    exact hs.linked.base_nominal hslot
  entry h params digest entry hnode := hs.linked.own_entry hnode

/-- Every question about types of the store has an answer. The name in a node has a text, and what a
type stands for is a type of the store. -/
structure Answering (s : Store) : Prop where
  node : ∀ h, s.contains h → ∃ node, s.node h = .ok node ∧
    ∀ name, node.name? = some name → ∃ text, s.names.text name = .ok text
  traits : ∀ h, s.contains h → ∃ traits, s.traits h = .ok traits
  canonical : ∀ h, s.contains h → ∃ x, s.canonical h = .ok x ∧ s.contains x
  isPromoted : ∀ h, s.contains h → ∃ answer, s.isPromoted h = .ok answer
  digest : ∀ h, s.contains h → ∃ word, s.digest h = .ok word
  render : ∀ h, s.contains h → ∃ text, s.render h = .ok text
  member : ∀ h v, s.contains h → ∃ answer, s.member h v = .ok answer
  order : ∀ a b, s.contains a → s.contains b → ∃ found, s.order a b = .ok found
  equal : ∀ a b, s.contains a → s.contains b → ∃ answer, s.equal a b = .ok answer
  fits : ∀ a b, s.contains a → s.contains b → ∃ answer, s.fits a b = .ok answer

theorem WellFormed.answering (hs : s.WellFormed) : s.Answering where
  node h hh := by
    obtain ⟨slot, hslot⟩ := exists_slot hh
    exact ⟨slot.node, node_of_slot hslot, fun name hname => text_answered (hs.named hslot hname)⟩
  traits h hh := by
    obtain ⟨slot, hslot⟩ := exists_slot hh
    exact ⟨slot.traits, traits_of_slot hslot⟩
  canonical h hh := by
    obtain ⟨x, hx, hcontains, -⟩ := canonical_spec hs hh
    exact ⟨x, hx, hcontains⟩
  isPromoted h hh := by
    obtain ⟨x, hx, -⟩ := canonical_spec hs hh
    exact answered_bind hx ⟨_, rfl⟩
  digest h hh := digest_answered hs.linked hh
  render h hh := render_answered hs hh
  member h v hh := member_answered hs hh v
  order a b ha hb := ⟨_, order_eq hs.linked hs.named ha hb⟩
  equal a b ha hb := equal_answered hs.linked hs.acyclic ha hb
  fits a b ha hb := fits_answered hs ha hb

end Store

namespace Operation

open Store

variable {s : Store}

def handles : Operation → List Handle
  | generic base params => base :: params
  | array element => [element]
  | annotated _ inner => [inner]
  | union types | intersection types => types
  | tuple params => params
  | instantiate h subst => h :: subst.types
  | subtype sub sup => [sub, sup]
  | promote t => [t]
  | _ => []

def texts : Operation → List String
  | intern text | nominal text | symbol text | var text => [text]
  | declareSuperclass child parent => [child, parent]
  | annotated label _ => [label]
  | _ => []

/-- A generic type over types of the store is formed if its base is a class, and rejected if not. -/
private theorem run_generic (hs : s.WellFormed) {base : Handle} {params : List Handle}
    (hvalid : ∀ h ∈ base :: params, s.contains h) :
    Completes (run (generic base params)) [] s ∨
      (∀ name, s.node base ≠ .ok (.nominal name)) ∧
        run (generic base params) s = .error (.notNominal base) s := by
  obtain ⟨hbase, hparams⟩ := List.forall_mem_cons.mp hvalid
  by_cases hclass : ∃ name, s.node base = .ok (.nominal name)
  · have hname := hclass
    obtain ⟨name, hname⟩ := hname
    refine .inl (.discard (.ask_bind (checkBase_of_nominal hname) ?_))
    refine .ask_bind (checkParamsFrom_eq_ok_iff.mpr hparams) ?_
    exact .of_returns (formGeneric_returns hs hclass hparams)
  · have hclass := not_exists.mp hclass
    have hcheck : ask (·.checkBase base) s = .error (.notNominal base) s :=
      ask_run_error (checkBase_error hbase hclass)
    refine .inr ⟨hclass, ?_⟩
    change (Store.generic base params >>= fun _ => pure ()) s = _
    exact bind_run_error (bind_run_error hcheck)

/-- Any other operation on types of the store and known names completes. -/
private theorem run_completes (hs : s.WellFormed) {op : Operation} (hop : op.IsGrounded s)
    (hvalid : ∀ h ∈ op.handles, s.contains h) (hgeneric : ∀ base params, op ≠ generic base params) :
    Completes op.run op.texts s := by
  have hnamed : ∀ {name}, (s.names.text? name).isSome → ∃ text, s.names.text? name = some text :=
    Option.isSome_iff_exists.mp
  cases op with
  | intern text =>
    change Completes (Store.intern text >>= fun _ => pure ()) [text] s
    exact .intern_bind hs List.mem_cons_self fun _ _ _ _ => .inl ⟨_, _, rfl⟩
  | declareSuperclass child parent =>
    refine .intern_bind hs List.mem_cons_self fun _ _ hs _ => ?_
    refine .intern_bind hs (List.mem_cons_of_mem _ List.mem_cons_self) fun _ _ _ _ => ?_
    exact .inl ⟨_, _, rfl⟩
  | nominal text =>
    refine .discard (.intern_bind hs List.mem_cons_self fun name names hs hname => ?_)
    exact .of_returns (nominalNamed_returns hs hname)
  | symbol text =>
    refine .discard (.intern_bind hs List.mem_cons_self fun name names hs hname => ?_)
    exact .of_returns (symbolNamed_returns hs hname)
  | var text =>
    refine .discard (.intern_bind hs List.mem_cons_self fun name names hs hname => ?_)
    exact .of_returns (varNamed_returns hs hname)
  | nominalNamed name => exact .discard (.of_returns (nominalNamed_returns hs (hnamed hop)))
  | symbolNamed name => exact .discard (.of_returns (symbolNamed_returns hs (hnamed hop)))
  | varNamed name => exact .discard (.of_returns (varNamed_returns hs (hnamed hop)))
  | generic base params => exact absurd rfl (hgeneric base params)
  | array element =>
    have helement := hvalid element List.mem_cons_self
    refine .discard (.ask_bind (checkParam_eq_ok_iff.mpr helement) ?_)
    exact .of_returns (formArray_returns hs helement)
  | annotated label inner =>
    have hinner := hvalid inner List.mem_cons_self
    refine .discard (.ask_bind (checkParam_eq_ok_iff.mpr hinner) ?_)
    refine .intern_bind hs List.mem_cons_self fun name names hs' hname => ?_
    exact .of_returns (formAnnotated_returns hs' hname hinner)
  | union types =>
    refine .discard (.ask_bind (checkParamsFrom_eq_ok_iff.mpr hvalid) ?_)
    exact .of_returns (formUnion_returns hs hvalid)
  | intersection types =>
    refine .discard (.ask_bind (checkParamsFrom_eq_ok_iff.mpr hvalid) ?_)
    exact .of_returns (formIntersection_returns hs hvalid)
  | tuple params =>
    refine .discard (.ask_bind (checkParamsFrom_eq_ok_iff.mpr hvalid) ?_)
    exact .of_returns (formTuple_returns hs hvalid)
  | instantiate h subst =>
    obtain ⟨hh, hsubst⟩ := List.forall_mem_cons.mp hvalid
    exact .discard (.of_returns (instantiate_returns hs hh hsubst))
  | subtype sub sup =>
    obtain ⟨hsub, hsup⟩ := List.forall_mem_cons.mp hvalid
    have hsup := hsup sup List.mem_cons_self
    exact .discard (.of_returns (subtype_returns hs hsub hsup))
  | promote t =>
    have ht := hvalid t List.mem_cons_self
    exact .discard (.of_returns (promote_returns hs ht))

end Operation

open Store in
/-- A reachable store is closed: every handle that it keeps is a type of it, every generic type is
over a class, and every tuple has a state of its own. So every question about its types has an
answer, and an operation on its types and on known names ends without a failure, unless it forms a
generic type over a type that is no class, which is rejected, or enters a text whose shard is
full. -/
theorem Reachable.faultless {s : Store} (hs : Reachable s) :
    s.Closed ∧ s.Answering ∧
    ∀ op : Operation, op.IsGrounded s → (∀ h ∈ op.handles, s.contains h) →
      (∃ after, op.run s = .ok () after) ∨
      (∃ base params, op = .generic base params ∧ (∀ name, s.node base ≠ .ok (.nominal name)) ∧
        op.run s = .error (.notNominal base) s) ∨
      ∃ text ∈ op.texts, ∃ after, after.names.IsFull (NameTable.shardOf text) ∧
        op.run s = .error (after.names.overflow text) after := by
  have hwf := hs.wellFormed
  refine ⟨hwf.closed hs.inventoried, hwf.answering, fun op hop hvalid => ?_⟩
  by_cases hgeneric : ∃ base params, op = .generic base params
  · obtain ⟨base, params, rfl⟩ := hgeneric
    rcases Operation.run_generic hwf hvalid with (⟨_, after, hrun⟩ | ⟨_, hnone, -⟩) | hrejected
    · exact .inl ⟨after, hrun⟩
    · cases hnone
    · exact .inr (.inl ⟨base, params, rfl, hrejected⟩)
  · have hgeneric : ∀ base params, op ≠ .generic base params := by simpa using hgeneric
    rcases Operation.run_completes hwf hop hvalid hgeneric with ⟨_, after, hrun⟩ | hfull
    · exact .inl ⟨after, hrun⟩
    · exact .inr (.inr hfull)

/-- In `pairStore` the bounds of the first tuple, which are mentioned in its state, are types of the
store. The tuple can be promoted, though its bounds are checked again, and as the base of a generic
type it is rejected. -/
theorem pairStore_faultless :
    Reachable pairStore ∧ pairStore.tupleState? ⟨7⟩ = some (.fixed [⟨8⟩, ⟨7⟩] [⟨8⟩, ⟨7⟩]) ∧
      pairStore.contains ⟨8⟩ ∧ (∃ found, pairStore.order ⟨7⟩ ⟨8⟩ = .ok found) ∧
      (∃ after, (Operation.promote ⟨7⟩).run pairStore = .ok () after) ∧
      (Operation.generic ⟨7⟩ [⟨5⟩]).run pairStore = .error (.notNominal ⟨7⟩) pairStore := by
  have hstate : pairStore.tupleState? ⟨7⟩ = some (.fixed [⟨8⟩, ⟨7⟩] [⟨8⟩, ⟨7⟩]) := by
    decide +kernel
  have hentry : pairStore.states[0]? = some (.fixed [⟨8⟩, ⟨7⟩] [⟨8⟩, ⟨7⟩]) := by decide +kernel
  have htuple : pairStore.contains ⟨7⟩ := by decide +kernel
  have hinteger : pairStore.contains ⟨5⟩ := by decide +kernel
  obtain ⟨hclosed, hanswering, hruns⟩ := Reachable.faultless reachable_pairStore
  have hbound : pairStore.contains ⟨8⟩ := hclosed.contains ⟨8⟩ (.state hentry List.mem_cons_self)
  refine ⟨reachable_pairStore, hstate, hbound, hanswering.order ⟨7⟩ ⟨8⟩ htuple hbound, ?_, ?_⟩
  · rcases hruns (.promote ⟨7⟩) trivial (by simpa [Operation.handles] using htuple) with
      hrun | ⟨_, _, hop, -⟩ | ⟨_, htext, -⟩
    · exact hrun
    · cases hop
    · cases htext
  · have hfails : ((Operation.generic ⟨7⟩ [⟨5⟩]).run.run' pairStore).isNone := by decide +kernel
    rcases hruns (.generic ⟨7⟩ [⟨5⟩]) trivial
      (by simpa [Operation.handles] using ⟨htuple, hinteger⟩) with
      ⟨after, hrun⟩ | ⟨_, _, hop, -, hrun⟩ | ⟨_, htext, -⟩
    · simp [EStateM.run', EStateM.run, hrun] at hfails
    · cases hop
      exact hrun
    · cases htext

end GradualTypes
