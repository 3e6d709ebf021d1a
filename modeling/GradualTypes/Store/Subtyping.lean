import GradualTypes.Store.Formation

/-!
Subtyping and the promotion of tuples. A fixed tuple that is asked to be an array type becomes one:
it is promoted to the array of the union of its elements. Fixed tuples remember which tuples they
were found below and above, and promotion checks those findings again against the array type,
which may promote further tuples in turn.
-/

namespace GradualTypes.Store

/-- Remembers on both sides that one tuple was found below another. Each side remembers it only as
long as it is fixed. -/
def recordBound (lower upper : Handle) : StoreM Unit := do
  updateTuple lower (·.addUpper upper)
  updateTuple upper (·.addLower lower)

/-- Whether a tuple is related as recorded to all its lower bounds and then to all its upper bounds.
The check ends at the first that fails. -/
def boundsHold (below : Handle → Handle → StoreM Bool) (t : Handle) (lower upper : List Handle) :
    StoreM Bool := do
  if ← lower.allM fun bound => below bound t then upper.allM fun bound => below t bound
  else return false

/-- Promotes a fixed tuple and checks its bounds again by a given relation. The answer tells
whether all of them still hold. Any other type is left alone. -/
def promoteBy (below : Handle → Handle → StoreM Bool) (t : Handle) : StoreM Bool := do
  match ← ask (·.shape t) with
  | .tuple params =>
    let lower := (← get).lowerBounds t
    let upper := (← get).upperBounds t
    let array ← formArray (← formUnion params)
    updateTuple t fun _ => .promoted array
    report (.promoted t array)
    if ← boundsHold below t lower upper then return true
    else
      report (.boundBroken t)
      return false
  | _ => return true

/-- The class by which a type is below nominal types: its own, `Symbol` for a symbol, and the base
for a generic type. -/
def classOf? (s : Store) : Shape → Except Error (Option Name)
  | .nominal name => return some name
  | .symbol _ => return some CoreClass.symbol.name
  | .generic base _ => return (← s.node base).name?
  | _ => return none

def belowClass (s : Store) (sub : Shape) (ancestor : Name) : Except Error Bool := do
  match ← s.classOf? sub with
  | some name => return s.hierarchy.isDescendant name ancestor
  | none => return false

/-- One step of the search for a fixed tuple: a tuple above it is compared element by element and
remembered, and an array type above it promotes it. -/
def belowTuple (below : Handle → Handle → StoreM Bool) (sub : Handle) (params : List Handle)
    (sup : Handle) : StoreM Bool := do
  if sup = .top then return true
  else
    match ← ask (·.node sup) with
    | .tuple others _ _ =>
      if ← Lifting.pointwise below params others then
        recordBound sub sup
        return true
      else return false
    | node =>
      if node.isArray then
        let consistent ← promoteBy below sub
        let holds ← below sub sup
        return holds && consistent
      else return false

/-- One step of the search for two types that are given by handle and shape. The left one is no
tuple and the right one is not promoted. -/
def belowShapes (below : Handle → Handle → StoreM Bool) (sub : Handle) (left : Shape)
    (sup : Handle) (right : Shape) : StoreM Bool :=
  match left, right with
  | .annotated _ inner, _ => below inner sup
  | _, .annotated _ inner => below sub inner
  | .union members, _ => members.allM fun member => below member sup
  | _, .intersection members => members.allM fun member => below sub member
  | _, .union members => members.anyM fun member => below sub member
  | .intersection members, _ => members.anyM fun member => below member sup
  | .generic base as, .generic base' bs =>
    if base = base' then
      Lifting.pointwise (fun x y => do if ← below x y then below y x else return false) as bs
    else return false
  | left, .nominal ancestor => ask (·.belowClass left ancestor)
  | _, _ => return false

/-- One step of the search, which leaves the components to a relation. -/
def belowStep (below : Handle → Handle → StoreM Bool) (sub sup : Handle) : StoreM Bool := do
  match ← ask (·.shape sub) with
  | .promoted array => below array sup
  | .tuple params => belowTuple below sub params (← ask (·.canonical sup))
  | left =>
    let sup ← ask (·.canonical sup)
    if sub = sup ∨ sup = .top ∨ sub = .nil then return true
    else belowShapes below sub left sup (← ask (·.shape sup))

def subtypeWithin : Nat → Handle → Handle → StoreM Bool
  | 0, _, _ => throw .endless
  | depth + 1, sub, sup => belowStep (fun x y => subtypeWithin depth x y) sub sup

/-- How deep the search for a subtype relation can nest. A search goes down two types at most once
before a tuple is promoted; each promotion adds at most two types and leaves one tuple less to
promote. -/
def searchDepth (s : Store) : Nat :=
  (s.size + 1) * (6 * s.size + 2)

/-- Whether one type is below another. Tuples met on the way may be promoted, and fixed tuples that
are found below one another are remembered. -/
def subtype (sub sup : Handle) : StoreM Bool := do
  subtypeWithin (← get).searchDepth sub sup

def promote (t : Handle) : StoreM Bool := do
  let depth := (← get).searchDepth
  promoteBy (subtypeWithin depth) t

end GradualTypes.Store
