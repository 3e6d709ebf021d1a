import GradualTypes.CoreClass

/-!
The class hierarchy: which class is declared as the superclass of which. A class has at most one
superclass, the one declared last. Nothing prevents a circle of declarations, so the search for an
ancestor stops after as many steps as there are classes with a superclass.
-/

namespace GradualTypes

/-- The declared superclasses, one entry per class that has one. -/
structure Hierarchy where
  entries : List (Name × Name) := []
  deriving DecidableEq, Repr

namespace Hierarchy

def size (t : Hierarchy) : Nat :=
  t.entries.length

def parent? (t : Hierarchy) (child : Name) : Option Name :=
  (t.entries.find? (fun entry => entry.1 = child)).map Prod.snd

/-- Declares a superclass. An earlier declaration for the same class is forgotten. -/
def declare (t : Hierarchy) (child parent : Name) : Hierarchy :=
  ⟨(child, parent) :: t.entries.filter (fun entry => entry.1 ≠ child)⟩

/-- Whether a class meets an ancestor among the first `steps` classes of its line, itself first. -/
def reaches (t : Hierarchy) : Nat → Name → Name → Bool
  | 0, _, _ => false
  | steps + 1, current, ancestor =>
    if current = ancestor then true
    else
      match t.parent? current with
      | some parent => t.reaches steps parent ancestor
      | none => false

def isDescendant (t : Hierarchy) (child ancestor : Name) : Bool :=
  t.reaches (t.size + 1) child ancestor

def core : Hierarchy :=
  CoreClass.all.foldl
    (fun t c =>
      match c.parent? with
      | some parent => t.declare c.name parent.name
      | none => t)
    {}

@[simp] theorem parent?_declare_self (t : Hierarchy) (child parent : Name) :
    (t.declare child parent).parent? child = some parent := by
  simp [parent?, declare]

theorem parent?_declare_of_ne (t : Hierarchy) {child other : Name} (parent : Name)
    (h : child ≠ other) : (t.declare child parent).parent? other = t.parent? other := by
  simp only [parent?, declare, List.find?_cons, h, decide_false, List.find?_filter]
  congr 2
  funext entry
  by_cases he : entry.1 = other <;> simp [he, Ne.symm h]

end Hierarchy

end GradualTypes
