import GradualTypes.Lifting
import GradualTypes.Store.Basic

/-!
Equality of types. A promoted tuple is equal to the array type it stands for. Two fixed tuples are
equal when their elements are, although they are different handles; unions and intersections
compare as sets; all else compares by structure.
-/

namespace GradualTypes

/-- One step of the comparison of two types, given by handle and shape, which leaves the components
to a relation. -/
def equalShapes (rel : Handle → Handle → Except Error Bool) (a : Handle) (left : Shape)
    (b : Handle) (right : Shape) : Except Error Bool :=
  match left, right with
  | .promoted array, _ => rel array b
  | _, .promoted array => rel a array
  | .tuple as, .tuple bs => Lifting.pointwise rel as bs
  | .generic base as, .generic base' bs =>
    if base = base' then Lifting.pointwise rel as bs else .ok false
  | .union as, .union bs | .intersection as, .intersection bs => Lifting.sameSet rel as bs
  | .annotated label x, .annotated label' y => if label = label' then rel x y else .ok false
  | _, _ => .ok false

namespace Store

/-- Equality of two types whose components nest at most `depth` deep, both counted together. -/
def equalWithin (s : Store) : Nat → Handle → Handle → Except Error Bool
  | 0, _, _ => .error .endless
  | depth + 1, a, b =>
    if a = b then .ok true
    else do
      equalShapes (fun x y => equalWithin s depth x y) a (← s.shape a) b (← s.shape b)

/-- Whether two types are equal. A handle is equal to itself even if it is no type of the store. -/
def equal (s : Store) (a b : Handle) : Except Error Bool :=
  s.equalWithin (2 * s.size + 1) a b

def equalSets (s : Store) (as bs : List Handle) : Except Error Bool :=
  Lifting.sameSet s.equal as bs

end Store

end GradualTypes
