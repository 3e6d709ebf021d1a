/-!
The eleven kinds of type. Their order decides how the members of a union are arranged, so it is
part of what a store shows: kinds without components come first.
-/

namespace GradualTypes

inductive Kind where
  | nil
  | top
  | wildcard
  | nominal
  | symbol
  | var
  | generic
  | tuple
  | union
  | intersection
  | annotated
  deriving DecidableEq, Repr

namespace Kind

def rank : Kind → Nat
  | nil => 0
  | top => 1
  | wildcard => 2
  | nominal => 3
  | symbol => 4
  | var => 5
  | generic => 6
  | tuple => 7
  | union => 8
  | intersection => 9
  | annotated => 10

def label : Kind → String
  | nil => "nil"
  | top => "top"
  | wildcard => "wildcard"
  | nominal => "nominal"
  | symbol => "symbol"
  | var => "variable"
  | generic => "generic"
  | tuple => "tuple"
  | union => "union"
  | intersection => "intersection"
  | annotated => "annotated"

def isLeaf : Kind → Bool
  | nil | top | wildcard | nominal | symbol | var => true
  | generic | tuple | union | intersection | annotated => false

def order (a b : Kind) : Ordering :=
  compare a.rank b.rank

/-- Kinds of one rank are the same kind. -/
theorem rank_injective (a b : Kind) : a.rank = b.rank → a = b := by
  cases a <;> cases b <;> decide

/-- Leaves are the kinds before `generic`. -/
theorem isLeaf_iff (k : Kind) : k.isLeaf = true ↔ k.rank < generic.rank := by
  cases k <;> decide

end Kind

end GradualTypes
