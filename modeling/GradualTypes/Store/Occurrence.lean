import GradualTypes.Store.Basic

/-!
What occurs in a type. A type is looked at in two ways: as it was built, where a tuple has its
elements whatever became of it, and as it stands, where a promoted tuple has its array type
instead.
-/

namespace GradualTypes

/-- The components from which a type was built. The base of a generic type is not among them. -/
def Node.parts : Node → List Handle
  | generic _ params => params
  | tuple params _ _ => params
  | union members | intersection members => members
  | annotated _ inner => [inner]
  | _ => []

/-- The types that the meaning of a type refers to. -/
def Shape.parts : Shape → List Handle
  | generic base params => base :: params
  | tuple params => params
  | promoted array => [array]
  | union members | intersection members => members
  | annotated _ inner => [inner]
  | _ => []

namespace Store

/-- `b` is a component from which `a` was built. -/
def HasPart (s : Store) (a b : Handle) : Prop :=
  ∃ node, s.node a = .ok node ∧ b ∈ node.parts

/-- `b` is a type that the meaning of `a` refers to. -/
def RefersTo (s : Store) (a b : Handle) : Prop :=
  ∃ shape, s.shape a = .ok shape ∧ b ∈ shape.parts

/-- `b` is `a` itself or is found below it, as `a` was built. -/
inductive Occurs (s : Store) : Handle → Handle → Prop where
  | self (a : Handle) : Occurs s a a
  | part {a b c : Handle} : s.HasPart a b → Occurs s b c → Occurs s a c

/-- A type in which no tuple occurs, by its traits. -/
def IsTupleFree (s : Store) (h : Handle) : Prop :=
  ∃ traits, s.traits h = .ok traits ∧ traits.hasTuple = false

def IsUnpromoted (s : Store) (h : Handle) : Prop :=
  ∀ t, s.Occurs h t → s.canonical t = .ok t

end Store

end GradualTypes
