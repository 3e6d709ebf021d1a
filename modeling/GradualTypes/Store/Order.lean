import GradualTypes.Store.Equality

/-!
The order of types, which arranges the members of unions and intersections. Kinds come first, then
the texts of names, so the order does not depend on when a type was made. A tuple is ordered by its
own elements even after promotion.
-/

namespace GradualTypes.Store

/-- Compares two names by their texts, code point by code point. -/
def orderNames (s : Store) (a b : Name) : Except Error Ordering := do
  return compare (← s.names.text a) (← s.names.text b)

/-- One step of the comparison of two nodes, which leaves their components to a comparison. -/
def orderNodes (s : Store) (cmp : Handle → Handle → Except Error Ordering) (left right : Node) :
    Except Error Ordering :=
  match left, right with
  | .nominal x, .nominal y | .symbol x, .symbol y | .var x, .var y => s.orderNames x y
  | .generic x as, .generic y bs => do
    match ← cmp x y with
    | .eq => Lifting.lexicographic cmp as bs
    | decided => return decided
  | .tuple as _ _, .tuple bs _ _ | .union as, .union bs | .intersection as, .intersection bs =>
    Lifting.lexicographic cmp as bs
  | .annotated label x, .annotated label' y => do
    match ← cmp x y with
    | .eq => s.orderNames label label'
    | decided => return decided
  | x, y => return x.kind.order y.kind

def orderWithin (s : Store) : Nat → Handle → Handle → Except Error Ordering
  | 0, _, _ => .error .endless
  | depth + 1, a, b =>
    if a = b then .ok .eq
    else do s.orderNodes (fun x y => orderWithin s depth x y) (← s.node a) (← s.node b)

/-- Compares two types. A handle compares equal to itself even if it is no type of the store. -/
def order (s : Store) (a b : Handle) : Except Error Ordering :=
  s.orderWithin (s.size + 1) a b

/-- Arranges types as the members of a union or intersection: sorted, and of equal types only the
first. -/
def arrange (s : Store) (types : List Handle) : Except Error (List Handle) := do
  Lifting.distinct s.equal (← Lifting.sort s.order types)

end GradualTypes.Store
