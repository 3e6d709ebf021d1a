import GradualTypes.Handle
import GradualTypes.Name

/-!
What can go wrong. A constructor rejects arguments that are not types of the store. Everything else
here is a fault: a question about a handle or a name that does not exist, a full shard of the table
of names, or a walk that found no end.
-/

namespace GradualTypes

inductive Error where
  | invalidParam (position : Nat) (handle : Handle)
  | notNominal (handle : Handle)
  | unknownHandle (handle : Handle)
  | unknownName (name : Name)
  | shardFull (shard count : Nat)
  | endless
  deriving DecidableEq, Repr

namespace Error

/-- A rejection is the answer of a constructor to a bad argument; it leaves the store as it was. -/
def isRejection : Error → Bool
  | invalidParam _ _ | notNominal _ => true
  | unknownHandle _ | unknownName _ | shardFull _ _ | endless => false

def message : Error → String
  | invalidParam position handle =>
    "invalid type parameter at position " ++ toString position ++ ": " ++ handle.text ++
      " is not a type"
  | notNominal handle => "generic base " ++ handle.text ++ " is not a nominal type"
  | unknownHandle handle => handle.text ++ " is not a type"
  | unknownName name => name.text ++ " is not a name"
  | shardFull shard count =>
    "interner shard " ++ toString shard ++ " exceeded capacity: " ++ toString count ++ " strings"
  | endless => "a type that contains itself"

end Error

end GradualTypes
