import GradualTypes.Store.Basic

/-!
The text of a type. A promoted tuple is written as the array type it stands for.
-/

namespace GradualTypes.Store

def renderWithin (s : Store) : Nat → Handle → Except Error String
  | 0, _ => .error .endless
  | depth + 1, h => do
    match ← s.shape h with
    | .top => return "%any"
    | .nil => return "nil"
    | .wildcard => return "*"
    | .nominal name | .symbol name => s.names.text name
    | .var name => return ":" ++ (← s.names.text name)
    | .generic base params =>
      let head ← renderWithin s depth base
      let parts ← params.mapM fun param => renderWithin s depth param
      return head ++ "<" ++ ", ".intercalate parts ++ ">"
    | .promoted array => renderWithin s depth array
    | .tuple params =>
      let parts ← params.mapM fun param => renderWithin s depth param
      return "[" ++ ", ".intercalate parts ++ "]"
    | .union members =>
      let parts ← members.mapM fun member => renderWithin s depth member
      return "(" ++ " or ".intercalate parts ++ ")"
    | .intersection members =>
      let parts ← members.mapM fun member => renderWithin s depth member
      return "(" ++ " and ".intercalate parts ++ ")"
    | .annotated label inner =>
      let text ← renderWithin s depth inner
      return text ++ " " ++ (← s.names.text label)

def render (s : Store) (h : Handle) : Except Error String :=
  s.renderWithin (s.size + 1) h

end GradualTypes.Store
