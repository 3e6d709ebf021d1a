import GradualTypes.CoreClass

/-!
Values that can be tested for membership in a type. Values of the core classes are given in full;
of any other object only its class matters.
-/

namespace GradualTypes

inductive Value where
  | nil
  | bool (b : Bool)
  | int (n : Int64)
  | float (x : Float)
  | str (text : String)
  | symbol (name : Name)
  | array (items : List Value)
  | hash (pairs : List (Value × Value))
  | object (className : Name)

namespace Value

def className : Value → Name
  | nil => CoreClass.nilClass.name
  | bool true => CoreClass.trueClass.name
  | bool false => CoreClass.falseClass.name
  | int _ => CoreClass.integer.name
  | float _ => CoreClass.float.name
  | str _ => CoreClass.string.name
  | symbol _ => CoreClass.symbol.name
  | array _ => CoreClass.array.name
  | hash _ => CoreClass.hash.name
  | object className => className

def isNil : Value → Bool
  | nil => true
  | _ => false

def items? : Value → Option (List Value)
  | array items => some items
  | _ => none

def wrap (v : Value) : Value :=
  array [v]

mutual

/-- Equality of values. Two values of different shape differ, floats compare as numbers, so that a
NaN differs from itself and the two zeros agree, symbols and objects compare by name, and hashes
compare as lists of pairs in order. -/
def agrees : Value → Value → Bool
  | nil, nil => true
  | bool a, bool b => a == b
  | int a, int b => a == b
  | float a, float b => a == b
  | str a, str b => a == b
  | symbol a, symbol b => a == b
  | array as, array bs => agreesList as bs
  | hash as, hash bs => agreesPairs as bs
  | object a, object b => a == b
  | _, _ => false

def agreesList : List Value → List Value → Bool
  | [], [] => true
  | a :: as, b :: bs => a.agrees b && agreesList as bs
  | _, _ => false

def agreesPairs : List (Value × Value) → List (Value × Value) → Bool
  | [], [] => true
  | (a, c) :: as, (b, d) :: bs => a.agrees b && c.agrees d && agreesPairs as bs
  | _, _ => false

end

end Value

end GradualTypes
