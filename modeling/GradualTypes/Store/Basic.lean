import GradualTypes.Digest
import GradualTypes.Node
import GradualTypes.Catalog
import GradualTypes.Hierarchy
import GradualTypes.NameTable
import GradualTypes.Error

/-!
The store of types. Types are only ever added, each at the next free handle, and one description
has one handle; tuples are the exception, since every tuple is a type of its own. Beside the types
the store holds the states of the tuples, the class hierarchy, the table of names and the journal
of promotions.

Questions about a store are functions into `Except Error`. Operations that may change it run in
`StoreM`, where a failure keeps what was done before it.
-/

namespace GradualTypes

structure Store where
  slots : Array Slot
  states : Array TupleState := #[]
  nominals : Catalog Name := .empty
  symbols : Catalog Name := .empty
  vars : Catalog Name := .empty
  generics : Catalog (Handle × List Handle) := .empty
  unions : SetCatalog := .empty
  intersections : SetCatalog := .empty
  annotations : Catalog (Name × Handle) := .empty
  hierarchy : Hierarchy := .core
  names : NameTable
  journal : Array Event := #[]
  hash : WordHash

abbrev StoreM := EStateM Error Store

namespace Store

/-- The store that holds only the built-in types and uses a given hash and a given table of names,
which is expected to hold the core classes. -/
def ofNames (names : NameTable) (hash : WordHash) : Store where
  slots :=
    #[⟨.top, .none⟩, ⟨.nil, .none⟩, ⟨.wildcard, .none⟩,
      ⟨.nominal CoreClass.array.name, .none⟩, ⟨.nominal CoreClass.hash.name, .none⟩]
  nominals :=
    Catalog.empty.insert CoreClass.array.name Handle.arrayClass
      |>.insert CoreClass.hash.name Handle.hashClass
  names := names
  hash := hash

def initial (hash : WordHash := .mixing) : Store :=
  ofNames .core hash

def builtinCount : Nat := 5

def size (s : Store) : Nat :=
  s.slots.size

/-- A store is empty as long as it holds the built-in types only. -/
def isEmpty (s : Store) : Bool :=
  s.size == builtinCount

def contains (s : Store) (h : Handle) : Bool :=
  h.index < s.size

def handles (s : Store) : List Handle :=
  (List.range s.size).map Handle.mk

def slot? (s : Store) (h : Handle) : Option Slot :=
  s.slots[h.index]?

def node (s : Store) (h : Handle) : Except Error Node :=
  match s.slot? h with
  | some slot => .ok slot.node
  | none => .error (.unknownHandle h)

def traits (s : Store) (h : Handle) : Except Error Traits :=
  match s.slot? h with
  | some slot => .ok slot.traits
  | none => .error (.unknownHandle h)

/-- The shape of a type, which follows the state if the type is a tuple. -/
def shape (s : Store) (h : Handle) : Except Error Shape :=
  match (s.slot? h).bind fun slot => slot.node.shape? s.states with
  | some shape => .ok shape
  | none => .error (.unknownHandle h)

def tupleState? (s : Store) (h : Handle) : Option TupleState := do
  let slot ← s.slot? h
  let entry ← slot.node.entry?
  s.states[entry]?

/-- The handle that a type currently stands for: the array type of a promoted tuple, and the type
itself otherwise. -/
def canonical (s : Store) (h : Handle) : Except Error Handle := do
  match ← s.shape h with
  | .promoted array => return array
  | _ => return h

/-- Whether a type is a promoted tuple, that is, whether it stands for another. -/
def isPromoted (s : Store) (h : Handle) : Except Error Bool := do
  return (← s.canonical h) ≠ h

def upperBounds (s : Store) (h : Handle) : List Handle :=
  ((s.tupleState? h).map TupleState.upper).getD []

def lowerBounds (s : Store) (h : Handle) : List Handle :=
  ((s.tupleState? h).map TupleState.lower).getD []

def traitsOfAll (s : Store) (types : List Handle) : Except Error Traits := do
  return Traits.mergeAll (← types.mapM s.traits)

def sets (s : Store) : SetKind → SetCatalog
  | .union => s.unions
  | .intersection => s.intersections

def enterSet (s : Store) (kind : SetKind) (digest : UInt64) (h : Handle) : Store :=
  match kind with
  | .union => { s with unions := s.unions.insert digest h }
  | .intersection => { s with intersections := s.intersections.insert digest h }

def tupleCount (s : Store) : Nat :=
  s.states.size

/-- The sizes of the catalogs: nominal types, symbols, variables, generic types, unions,
intersections and annotated types. -/
def catalogSizes (s : Store) : List Nat :=
  [s.nominals.size, s.symbols.size, s.vars.size, s.generics.size, s.unions.size,
    s.intersections.size, s.annotations.size]

def summary (s : Store) : String :=
  "Pool \x7b types: " ++ toString s.size ++ ", tuples: " ++ toString s.tupleCount ++ ", .. \x7d"

/-- The tuples of `after` whose state is not what it was in `before`, in the order of their making.
A tuple that `before` does not have counts. -/
def changedTuples (before after : Store) : List Handle :=
  after.handles.filter fun h =>
    (after.tupleState? h).isSome && before.tupleState? h ≠ after.tupleState? h

theorem size_initial (hash : WordHash) : (initial hash).size = builtinCount := rfl

/-- A handle is a type of the store exactly when there is a slot for it. -/
theorem contains_iff_slot? (s : Store) (h : Handle) :
    s.contains h = true ↔ (s.slot? h).isSome = true := by
  rw [contains, decide_eq_true_iff, slot?, size]
  simp

def ask {α : Type} (question : Store → Except Error α) : StoreM α := fun s =>
  match question s with
  | .ok answer => .ok answer s
  | .error e => .error e s

/-- Adds a type at the next free handle. -/
def add (node : Node) (traits : Traits) : StoreM Handle := fun s =>
  .ok ⟨s.size⟩ { s with slots := s.slots.push ⟨node, traits⟩ }

/-- Changes the state of a tuple; any other type is left alone. -/
def updateTuple (h : Handle) (change : TupleState → TupleState) : StoreM Unit :=
  modify fun s =>
    match (s.slot? h).bind fun slot => slot.node.entry? with
    | some entry => { s with states := s.states.modify entry change }
    | none => s

def report (event : Event) : StoreM Unit :=
  modify fun s => { s with journal := s.journal.push event }

def intern (text : String) : StoreM Name := fun s =>
  match s.names.intern text with
  | .ok (name, names) => .ok name { s with names := names }
  | .error e => .error e s

/-- Declares a superclass by the texts of the two class names. -/
def declareSuperclass (child parent : String) : StoreM Unit := do
  let child ← intern child
  let parent ← intern parent
  modify fun s => { s with hierarchy := s.hierarchy.declare child parent }

end Store

end GradualTypes
