import GradualTypes.Store.Formation

/-!
Descriptors: types written down as trees, without a store. Building one in a store makes its parts
first, from left to right, and then the type itself, all by the checked constructors.
-/

namespace GradualTypes

inductive Descriptor where
  | top
  | nil
  | wildcard
  | nominal (text : String)
  | symbol (text : String)
  | var (text : String)
  | generic (base : String) (params : List Descriptor)
  | array (element : Descriptor)
  | annotated (label : String) (inner : Descriptor)
  | union (types : List Descriptor)
  | intersection (types : List Descriptor)
  | tuple (params : List Descriptor)

namespace Descriptor

mutual

def build : Descriptor → StoreM Handle
  | top => return .top
  | nil => return .nil
  | wildcard => return .wildcard
  | nominal text => Store.nominal text
  | symbol text => Store.symbol text
  | var text => Store.var text
  | generic base params => do
    let base ← Store.nominal base
    Store.generic base (← buildAll params)
  | array element => do Store.array (← element.build)
  | annotated label inner => do Store.annotated label (← inner.build)
  | union types => do Store.union (← buildAll types)
  | intersection types => do Store.intersection (← buildAll types)
  | tuple params => do Store.tuple (← buildAll params)

def buildAll : List Descriptor → StoreM (List Handle)
  | [] => return []
  | d :: ds => do
    let h ← d.build
    return h :: (← buildAll ds)

end

end Descriptor

end GradualTypes
