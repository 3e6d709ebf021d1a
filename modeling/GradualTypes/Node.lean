import GradualTypes.Kind
import GradualTypes.Traits
import GradualTypes.Name
import GradualTypes.Handle

/-!
What a store holds at a handle. A node describes one type by its kind and the handles of its
components, and never changes. A tuple also has a state, which does change; the node says only
where the state is kept. The shape of a type is its node read together with that state: it shows a
fixed tuple by its elements and a promoted one by the array type that it stands for.
-/

namespace GradualTypes

/-- A tuple starts out fixed and remembers the tuples above and below which it was found, in the
order of the findings. Once it is promoted it stands for an array type, and its bounds are
forgotten. -/
inductive TupleState where
  | fixed (upper lower : List Handle)
  | promoted (array : Handle)
  deriving DecidableEq, Repr

namespace TupleState

def unbounded : TupleState := fixed [] []

def upper : TupleState → List Handle
  | fixed upper _ => upper
  | promoted _ => []

def lower : TupleState → List Handle
  | fixed _ lower => lower
  | promoted _ => []

def addUpper (bound : Handle) : TupleState → TupleState
  | fixed upper lower => fixed (if bound ∈ upper then upper else upper ++ [bound]) lower
  | promoted array => promoted array

def addLower (bound : Handle) : TupleState → TupleState
  | fixed upper lower => fixed upper (if bound ∈ lower then lower else lower ++ [bound])
  | promoted array => promoted array

end TupleState

inductive Node where
  | top
  | nil
  | wildcard
  | nominal (name : Name)
  | symbol (name : Name)
  | var (name : Name)
  | generic (base : Handle) (params : List Handle)
  | tuple (params : List Handle) (digest : UInt64) (entry : Nat)
  | union (members : List Handle)
  | intersection (members : List Handle)
  | annotated (label : Name) (inner : Handle)
  deriving DecidableEq, Repr

namespace Node

def kind : Node → Kind
  | top => .top
  | nil => .nil
  | wildcard => .wildcard
  | nominal _ => .nominal
  | symbol _ => .symbol
  | var _ => .var
  | generic _ _ => .generic
  | tuple _ _ _ => .tuple
  | union _ => .union
  | intersection _ => .intersection
  | annotated _ _ => .annotated

def name? : Node → Option Name
  | nominal name | symbol name | var name | annotated name _ => some name
  | _ => none

def members : Node → List Handle
  | union members | intersection members => members
  | _ => []

def intersectionMembers : Node → List Handle
  | intersection members => members
  | _ => []

def generic? : Node → Option (Handle × List Handle)
  | generic base params => some (base, params)
  | _ => none

def inner? : Node → Option Handle
  | annotated _ inner => some inner
  | _ => none

/-- The elements of a tuple, promoted or not. -/
def elements? : Node → Option (List Handle)
  | tuple params _ _ => some params
  | _ => none

/-- Where the state of a tuple is kept. -/
def entry? : Node → Option Nat
  | tuple _ _ entry => some entry
  | _ => none

/-- An array type is a generic type over the class `Array` with one parameter. -/
def isArray : Node → Bool
  | generic base [_] => base = Handle.arrayClass
  | _ => false

end Node

inductive SetKind where
  | union
  | intersection
  deriving DecidableEq, Repr

def SetKind.node : SetKind → List Handle → Node
  | union, members => .union members
  | intersection, members => .intersection members

/-- A type as it stands: like a node, but a tuple is either fixed, with its elements, or promoted,
with the array type it stands for. -/
inductive Shape where
  | top
  | nil
  | wildcard
  | nominal (name : Name)
  | symbol (name : Name)
  | var (name : Name)
  | generic (base : Handle) (params : List Handle)
  | tuple (params : List Handle)
  | promoted (array : Handle)
  | union (members : List Handle)
  | intersection (members : List Handle)
  | annotated (label : Name) (inner : Handle)
  deriving DecidableEq, Repr

/-- The shape of a node, given the states of the tuples. A tuple without a state has none. -/
def Node.shape? (states : Array TupleState) : Node → Option Shape
  | top => some .top
  | nil => some .nil
  | wildcard => some .wildcard
  | nominal name => some (.nominal name)
  | symbol name => some (.symbol name)
  | var name => some (.var name)
  | generic base params => some (.generic base params)
  | tuple params _ entry =>
    match states[entry]? with
    | some (.fixed _ _) => some (.tuple params)
    | some (.promoted array) => some (.promoted array)
    | none => none
  | union members => some (.union members)
  | intersection members => some (.intersection members)
  | annotated label inner => some (.annotated label inner)

structure Slot where
  node : Node
  traits : Traits := .none
  deriving DecidableEq, Repr

/-- What promotion reports: that a tuple now stands for an array type, and that a bound recorded
before no longer holds. -/
inductive Event where
  | promoted (tuple array : Handle)
  | boundBroken (tuple : Handle)
  deriving DecidableEq, Repr

def Event.message : Event → String
  | promoted tuple array =>
    "promoted tuple to array tuple=" ++ tuple.text ++ " array=" ++ array.text
  | boundBroken tuple => "recorded bound broken by promotion tuple=" ++ tuple.text

end GradualTypes
