import GradualTypes.Lifting
import GradualTypes.Value
import GradualTypes.Store.Basic

/-!
Membership of values in types. Nil belongs to every nominal and generic type. An array or a hash is
looked into when the type says what it holds; other generic types only see the class of the value.
-/

namespace GradualTypes.Store

def isInstance (s : Store) (v : Value) (ancestor : Name) : Bool :=
  s.hierarchy.isDescendant v.className ancestor

def isInstanceOfBase (s : Store) (base : Handle) (v : Value) : Except Error Bool := do
  match (← s.node base).name? with
  | some name => return s.isInstance v name
  | none => return false

def memberWithin (s : Store) : Nat → Handle → Value → Except Error Bool
  | 0, _, _ => .error .endless
  | depth + 1, h, v => do
    match ← s.shape h with
    | .top | .wildcard => return true
    | .nil => return v.isNil
    | .nominal name => return v.isNil || s.isInstance v name
    | .symbol name =>
      match v with
      | .symbol other => return other = name
      | _ => return false
    | .var _ => return false
    | .generic base params =>
      match v, params with
      | .nil, _ => return true
      | .array items, [element] =>
        if base = .arrayClass then items.allM fun item => memberWithin s depth element item
        else s.isInstanceOfBase base v
      | .hash pairs, [key, value] =>
        if base = .hashClass then
          pairs.allM fun pair => do
            if ← memberWithin s depth key pair.1 then memberWithin s depth value pair.2
            else return false
        else s.isInstanceOfBase base v
      | _, _ => s.isInstanceOfBase base v
    | .promoted array => memberWithin s depth array v
    | .tuple params =>
      match v.items? with
      | some items => Lifting.pointwise (fun x item => memberWithin s depth x item) params items
      | none => return false
    | .union members => members.anyM fun member => memberWithin s depth member v
    | .intersection members => members.allM fun member => memberWithin s depth member v
    | .annotated _ inner => memberWithin s depth inner v

def member (s : Store) (h : Handle) (v : Value) : Except Error Bool :=
  s.memberWithin (s.size + 1) h v

end GradualTypes.Store
