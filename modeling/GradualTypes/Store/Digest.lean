import GradualTypes.Store.Basic

/-!
The digest of a type. It depends on names and structure only, and on the hash of the store. A
tuple's digest was computed when the tuple was made, so promotion does not change it.
-/

namespace GradualTypes

def SetKind.digest : SetKind → List UInt64 → UInt64
  | union, parts => Digest.ofUnion parts
  | intersection, parts => Digest.ofIntersection parts

/-- One step of the digest of a node, which leaves its components to a digest. -/
def digestNode (hash : WordHash) (digest : Handle → Except Error UInt64) :
    Node → Except Error UInt64
  | .top => return hash [UInt64.ofNat Kind.top.rank]
  | .nil => return hash [UInt64.ofNat Kind.nil.rank]
  | .wildcard => return hash [UInt64.ofNat Kind.wildcard.rank]
  | .nominal name | .symbol name | .var name => return hash [UInt64.ofNat name.raw]
  | .generic base params => do
    let head ← digest base
    let parts ← params.mapM digest
    return hash [head, Digest.ofList hash parts]
  | .tuple _ own _ => return own
  | .union members => return Digest.ofUnion (← members.mapM digest)
  | .intersection members => return Digest.ofIntersection (← members.mapM digest)
  | .annotated label inner => return hash [UInt64.ofNat label.raw, ← digest inner]

namespace Store

def digestWithin (s : Store) : Nat → Handle → Except Error UInt64
  | 0, _ => .error .endless
  | depth + 1, h => do digestNode s.hash (fun x => digestWithin s depth x) (← s.node h)

/-- The digest of a type. Types do not contain themselves, so they nest no deeper than the store is
large. -/
def digest (s : Store) (h : Handle) : Except Error UInt64 :=
  s.digestWithin (s.size + 1) h

end Store

end GradualTypes
