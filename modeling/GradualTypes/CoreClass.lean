import GradualTypes.NameTable

/-!
The classes that exist before any declaration. They are the first texts of every table of names, so
their names are the same everywhere, and each but the root has a superclass among them.
-/

namespace GradualTypes

inductive CoreClass where
  | basicObject
  | object
  | numeric
  | integer
  | float
  | string
  | symbol
  | array
  | hash
  | nilClass
  | trueClass
  | falseClass
  deriving DecidableEq, Repr

namespace CoreClass

/-- All core classes, in the order in which a new table of names enters them. -/
def all : List CoreClass :=
  [basicObject, object, numeric, integer, float, string, symbol, array, hash, nilClass, trueClass,
    falseClass]

def text : CoreClass → String
  | basicObject => "BasicObject"
  | object => "Object"
  | numeric => "Numeric"
  | integer => "Integer"
  | float => "Float"
  | string => "String"
  | symbol => "Symbol"
  | array => "Array"
  | hash => "Hash"
  | nilClass => "NilClass"
  | trueClass => "TrueClass"
  | falseClass => "FalseClass"

def parent? : CoreClass → Option CoreClass
  | basicObject => none
  | object => some basicObject
  | numeric => some object
  | integer | float => some numeric
  | string | symbol | array | hash | nilClass | trueClass | falseClass => some object

def name : CoreClass → Name
  | basicObject => .fixed 9 0
  | object => .fixed 15 0
  | numeric => .fixed 13 0
  | integer => .fixed 14 0
  | float => .fixed 12 0
  | string => .fixed 1 0
  | symbol => .fixed 8 0
  | array => .fixed 9 1
  | hash => .fixed 14 1
  | nilClass => .fixed 7 0
  | trueClass => .fixed 9 2
  | falseClass => .fixed 5 0

end CoreClass

/-- The table of names that holds the core classes and nothing else. They are entered like any other
text, and there is room for all of them. -/
def NameTable.core : NameTable :=
  CoreClass.all.foldl
    (fun table c => match table.intern c.text with
      | .ok (_, next) => next
      | .error _ => table)
    .empty

/-- The fixed names are the ones that the core table gives. -/
theorem NameTable.find?_core (c : CoreClass) : NameTable.core.find? c.text = some c.name := by
  cases c <;> decide +kernel

theorem NameTable.text?_core (c : CoreClass) : NameTable.core.text? c.name = some c.text := by
  cases c <;> decide +kernel

theorem NameTable.size_core : NameTable.core.size = CoreClass.all.length := by
  decide +kernel

end GradualTypes
