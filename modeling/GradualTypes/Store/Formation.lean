import GradualTypes.Store.Digest
import GradualTypes.Store.Order

/-!
Formation of types. A constructor checks that its arguments are types of the store, in order, and
rejects the first that is not. The `form` operations below them take that check for granted. Both
return the handle that was given to the same description before, if there is one; a tuple is always
new.
-/

namespace GradualTypes.Store

def checkParam (s : Store) (position : Nat) (h : Handle) : Except Error Unit :=
  if s.contains h then .ok () else .error (.invalidParam position h)

/-- Rejects the first argument that is no type of the store, counting positions from a given one. -/
def checkParamsFrom (s : Store) : Nat → List Handle → Except Error Unit
  | _, [] => .ok ()
  | position, h :: rest => do
    s.checkParam position h
    s.checkParamsFrom (position + 1) rest

def checkParams (s : Store) (types : List Handle) : Except Error Unit :=
  s.checkParamsFrom 0 types

def checkBase (s : Store) (base : Handle) : Except Error Unit := do
  s.checkParam 0 base
  match ← s.node base with
  | .nominal _ => return ()
  | _ => throw (.notNominal base)

def nominalNamed (name : Name) : StoreM Handle := do
  let (h, nominals) ← (← get).nominals.internWith name fun name => add (.nominal name) .none
  modify fun s => { s with nominals := nominals }
  return h

def symbolNamed (name : Name) : StoreM Handle := do
  let (h, symbols) ← (← get).symbols.internWith name fun name => add (.symbol name) .none
  modify fun s => { s with symbols := symbols }
  return h

def varNamed (name : Name) : StoreM Handle := do
  let (h, vars) ← (← get).vars.internWith name fun name => add (.var name) .var
  modify fun s => { s with vars := vars }
  return h

def nominal (text : String) : StoreM Handle := do
  nominalNamed (← intern text)

def symbol (text : String) : StoreM Handle := do
  symbolNamed (← intern text)

def var (text : String) : StoreM Handle := do
  varNamed (← intern text)

/-- The generic type with a base and parameters, which are taken to be types of the store. -/
def formGeneric (base : Handle) (params : List Handle) : StoreM Handle := do
  let traits ← ask (·.traitsOfAll params)
  let (h, generics) ← (← get).generics.internWith (base, params) fun key =>
    add (.generic key.1 key.2) traits
  modify fun s => { s with generics := generics }
  return h

def formArray (element : Handle) : StoreM Handle :=
  formGeneric .arrayClass [element]

def formAnnotated (label : Name) (inner : Handle) : StoreM Handle := do
  let traits ← ask (·.traitsOfAll [inner])
  let (h, annotations) ← (← get).annotations.internWith (label, inner) fun key =>
    add (.annotated key.1 key.2) traits
  modify fun s => { s with annotations := annotations }
  return h

def addTuple (params : List Handle) (digest : UInt64) (traits : Traits) : StoreM Handle := do
  let entry := (← get).states.size
  modify fun s => { s with states := s.states.push .unbounded }
  add (.tuple params digest entry) traits

/-- A new tuple. Its digest is computed here and kept. -/
def formTuple (params : List Handle) : StoreM Handle := do
  let digest ← ask fun s => return Digest.ofTuple s.hash (← params.mapM s.digest)
  let traits ← ask (·.traitsOfAll params)
  addTuple params digest (traits.merge .tuple)

/-- The set of a kind with given members, which are arranged and at least two. -/
def internSet (kind : SetKind) (members : List Handle) : StoreM Handle := do
  let digest ← ask fun s => return kind.digest (← members.mapM s.digest)
  let found ← ask fun s =>
    (s.sets kind).findM? digest fun h => do s.equalSets (← s.node h).members members
  match found with
  | some h => return h
  | none =>
    let h ← add (kind.node members) (← ask (·.traitsOfAll members))
    modify fun s => s.enterSet kind digest h
    return h

def isTop (s : Store) (h : Handle) : Except Error Bool := do
  return (← s.node h) = .top

/-- What a type contributes to a set of a kind: nil nothing, a set of that kind its members. -/
def setPart (s : Store) (kind : SetKind) (h : Handle) : Except Error (List Handle) := do
  match kind, ← s.node h with
  | _, .nil => return []
  | .union, .union members | .intersection, .intersection members => return members
  | _, _ => return [h]

/-- The set of types of a kind: flattened, arranged, and looked up before it is made. Without
members it is nil, and with one member it is that member. -/
def formSet (kind : SetKind) (types : List Handle) : StoreM Handle := do
  let parts ← ask fun s => types.mapM (s.setPart kind)
  match ← ask (·.arrange parts.flatten) with
  | [] => return .nil
  | [only] => return only
  | members => internSet kind members

/-- The union of types. A top among them absorbs the rest. -/
def formUnion (types : List Handle) : StoreM Handle := do
  if ← ask fun s => types.anyM s.isTop then return .top
  else formSet .union types

def formIntersection (types : List Handle) : StoreM Handle :=
  formSet .intersection types

def generic (base : Handle) (params : List Handle) : StoreM Handle := do
  ask (·.checkBase base)
  ask (·.checkParams params)
  formGeneric base params

def array (element : Handle) : StoreM Handle := do
  ask (·.checkParam 0 element)
  formArray element

/-- A type with a label, for instance the name of an argument. The label is entered in the table of
names only after the type was checked. -/
def annotated (label : String) (inner : Handle) : StoreM Handle := do
  ask (·.checkParam 0 inner)
  formAnnotated (← intern label) inner

def union (types : List Handle) : StoreM Handle := do
  ask (·.checkParams types)
  formUnion types

def intersection (types : List Handle) : StoreM Handle := do
  ask (·.checkParams types)
  formIntersection types

/-- A tuple with the given elements, different from every other tuple. -/
def tuple (params : List Handle) : StoreM Handle := do
  ask (·.checkParams params)
  formTuple params

end GradualTypes.Store
