import GradualTypes.Store.Subtyping
import GradualTypes.Store.Substitution

/-!
Histories of a store. Every way to change a store from outside is an operation, and a store is
reachable when some sequence of operations leads to it from the initial one. An operation that
fails still counts, with whatever it did before it failed.
-/

namespace GradualTypes

inductive Operation where
  | intern (text : String)
  | declareSuperclass (child parent : String)
  | nominal (text : String)
  | symbol (text : String)
  | var (text : String)
  | nominalNamed (name : Name)
  | symbolNamed (name : Name)
  | varNamed (name : Name)
  | generic (base : Handle) (params : List Handle)
  | array (element : Handle)
  | annotated (label : String) (inner : Handle)
  | union (types : List Handle)
  | intersection (types : List Handle)
  | tuple (params : List Handle)
  | instantiate (h : Handle) (subst : Substitution)
  | subtype (sub sup : Handle)
  | promote (t : Handle)
  deriving DecidableEq, Repr

namespace Operation

/-- Performs an operation and drops its answer. -/
def run : Operation → StoreM Unit
  | intern text => discard (Store.intern text)
  | declareSuperclass child parent => Store.declareSuperclass child parent
  | nominal text => discard (Store.nominal text)
  | symbol text => discard (Store.symbol text)
  | var text => discard (Store.var text)
  | nominalNamed name => discard (Store.nominalNamed name)
  | symbolNamed name => discard (Store.symbolNamed name)
  | varNamed name => discard (Store.varNamed name)
  | generic base params => discard (Store.generic base params)
  | array element => discard (Store.array element)
  | annotated label inner => discard (Store.annotated label inner)
  | union types => discard (Store.union types)
  | intersection types => discard (Store.intersection types)
  | tuple params => discard (Store.tuple params)
  | instantiate h subst => discard (Store.instantiate h subst)
  | subtype sub sup => discard (Store.subtype sub sup)
  | promote t => discard (Store.promote t)

/-- The store after an operation, whether or not it failed. -/
def apply (op : Operation) (s : Store) : Store :=
  match op.run s with
  | .ok _ after => after
  | .error _ after => after

/-- Whether the names that an operation mentions are in the table of names. Texts are entered on
the way and handles are checked, so they need no condition. -/
def IsGrounded (s : Store) : Operation → Prop
  | nominalNamed name | symbolNamed name | varNamed name => (s.names.text? name).isSome
  | _ => True

end Operation

/-- The stores that operations on known names can lead to. -/
inductive Reachable : Store → Prop where
  | initial (hash : WordHash) : Reachable (.initial hash)
  | step {s : Store} (op : Operation) :
      Reachable s → op.IsGrounded s → Reachable (op.apply s)

end GradualTypes
