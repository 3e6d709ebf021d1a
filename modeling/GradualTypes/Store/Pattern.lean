import GradualTypes.Store.Equality

/-!
Queries. A query is a type in which wildcards stand for any type. One layer of annotation on the
query is dropped first, and the annotations on the type are looked through. Members of a union or
an intersection are matched by position, and what holds no wildcard is compared by equality.
-/

namespace GradualTypes.Store

/-- The query below one layer of annotation. -/
def unannotated (s : Store) (query : Handle) : Except Error Handle := do
  return (← s.node query).inner?.getD query

/-- One step of matching a type, which is no tuple, and a query, both given by handle and shape. -/
def fitsShapes (s : Store) (fits : Handle → Handle → Except Error Bool) (h : Handle) (left : Shape)
    (query : Handle) (right : Shape) : Except Error Bool :=
  match left, right with
  | .generic base params, .generic base' queries =>
    if base = base' then Lifting.pointwise fits params queries else return false
  | .union members, .union queries | .intersection members, .intersection queries =>
    Lifting.pointwise fits members queries
  | .annotated _ inner, _ => fits inner query
  | _, _ => s.equal h query

def fitsWithin (s : Store) : Nat → Handle → Handle → Except Error Bool
  | 0, _, _ => .error .endless
  | depth + 1, h, query => do
    match ← s.shape h with
    | .promoted array => fitsWithin s depth array query
    | .tuple params =>
      let query ← s.canonical (← s.unannotated (← s.canonical query))
      if query = .wildcard then return true
      else
        match ← s.shape query with
        | .tuple queries => Lifting.pointwise (fun x y => fitsWithin s depth x y) params queries
        | _ => return false
    | left =>
      let query ← s.unannotated query
      if query = .wildcard then return true
      else s.fitsShapes (fun x y => fitsWithin s depth x y) h left query (← s.shape query)

def fits (s : Store) (h query : Handle) : Except Error Bool :=
  s.fitsWithin (2 * s.size + 1) h query

end GradualTypes.Store
