import GradualTypes.Store.Formation

/-!
Substitution of types for variables. Types without variables and tuples are returned as they are.
Everything else is formed again from its parts, so unions may collapse, and a fixed tuple becomes a
new one with no bounds.
-/

namespace GradualTypes

structure Substitution where
  bindings : List (Name × Handle) := []
  deriving DecidableEq, Repr

namespace Substitution

def empty : Substitution := {}

/-- Binds a variable. An earlier binding of it is replaced. -/
def bind (subst : Substitution) (name : Name) (h : Handle) : Substitution :=
  ⟨subst.bindings.filter (fun binding => binding.1 ≠ name) ++ [(name, h)]⟩

def find? (subst : Substitution) (name : Name) : Option Handle :=
  (subst.bindings.find? (fun binding => binding.1 = name)).map Prod.snd

def types (subst : Substitution) : List Handle :=
  subst.bindings.map Prod.snd

def size (subst : Substitution) : Nat :=
  subst.bindings.length

@[simp] theorem find?_bind_self (subst : Substitution) (name : Name) (h : Handle) :
    (subst.bind name h).find? name = some h := by
  have hnone : (subst.bindings.filter (fun binding => binding.1 ≠ name)).find?
      (fun binding => binding.1 = name) = none := by
    rw [List.find?_eq_none]
    intro binding hmem
    have hkept := (List.mem_filter.mp hmem).2
    simpa using hkept
  simp only [find?, bind, List.find?_append, hnone]
  simp

theorem find?_bind_of_ne (subst : Substitution) {name other : Name} (h : Handle)
    (hne : name ≠ other) : (subst.bind name h).find? other = subst.find? other := by
  have hsame : (subst.bindings.filter (fun binding => binding.1 ≠ name)).find?
      (fun binding => binding.1 = other) =
        subst.bindings.find? (fun binding => binding.1 = other) := by
    rw [List.find?_filter]
    congr 1
    funext binding
    by_cases hb : binding.1 = other <;> simp [hb, Ne.symm hne]
  simp only [find?, bind, List.find?_append, hsame]
  simp [hne]

end Substitution

namespace Store

def instantiateWithin (subst : Substitution) : Nat → Handle → StoreM Handle
  | 0, _ => throw .endless
  | depth + 1, h => do
    if (← ask (·.traits h)).isInert then return h
    else
      match ← ask (·.shape h) with
      | .var name => return (subst.find? name).getD h
      | .generic base params =>
        formGeneric base (← params.mapM fun param => instantiateWithin subst depth param)
      | .promoted array => instantiateWithin subst depth array
      | .tuple params =>
        formTuple (← params.mapM fun param => instantiateWithin subst depth param)
      | .union members =>
        formUnion (← members.mapM fun member => instantiateWithin subst depth member)
      | .intersection members =>
        formIntersection (← members.mapM fun member => instantiateWithin subst depth member)
      | .annotated label inner =>
        formAnnotated label (← instantiateWithin subst depth inner)
      | .top | .nil | .wildcard | .nominal _ | .symbol _ => return h

/-- Replaces the variables of a type by the types bound to them. The type is checked first and then
the bound types, which count as the arguments after it. -/
def instantiate (h : Handle) (subst : Substitution) : StoreM Handle := do
  ask (·.checkParam 0 h)
  ask (·.checkParamsFrom 1 subst.types)
  instantiateWithin subst ((← get).size + 1) h

end Store

end GradualTypes
