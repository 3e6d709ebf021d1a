/-!
Handles. A store numbers its types in the order in which they were made, and a handle is such a
number. The five types that every store starts with have fixed handles, so they can be named
without a store at hand. One further number is reserved for "no type".
-/

namespace GradualTypes

/-- The position of a type in its store. A handle says nothing by itself: it is a type of a store
exactly when the store is larger than it. -/
structure Handle where
  index : Nat
  deriving DecidableEq, Repr

namespace Handle

/-- The type of every value. -/
def top : Handle := ⟨0⟩

/-- The type of the nil value alone, which lies below every type. -/
def nil : Handle := ⟨1⟩

/-- The wildcard of a query, which every type fits. -/
def wildcard : Handle := ⟨2⟩

def arrayClass : Handle := ⟨3⟩

def hashClass : Handle := ⟨4⟩

/-- The largest 32-bit number, kept for "no type". -/
def absent : Handle := ⟨4294967295⟩

instance : Inhabited Handle := ⟨absent⟩

def decEqList : (as bs : List Handle) → Decidable (as = bs)
  | [], [] => isTrue rfl
  | [], _ :: _ | _ :: _, [] => isFalse (by simp)
  | a :: as, b :: bs =>
    if h : a = b then
      match decEqList as bs with
      | isTrue hs => isTrue (by rw [h, hs])
      | isFalse hs => isFalse (by simp [hs])
    else isFalse (by simp [h])

/-- A handle with a list of handles is the key of the largest catalog. The lists are compared first,
since most keys of a catalog share the handle. -/
instance : DecidableEq (Handle × List Handle) := fun (a, as) (b, bs) =>
  match decEqList as bs with
  | isTrue hs => if h : a = b then isTrue (by rw [h, hs]) else isFalse (by simp [h])
  | isFalse hs => isFalse (by simp [hs])

/-- How a handle is written in messages: three built-in types and the absent one by name, all
others by number. -/
def text (h : Handle) : String :=
  if h = top then "Idx::TOP"
  else if h = nil then "Idx::NIL"
  else if h = wildcard then "Idx::WILD"
  else if h = absent then "Idx::NONE"
  else "Idx(" ++ toString h.index ++ ")"

end Handle

end GradualTypes
