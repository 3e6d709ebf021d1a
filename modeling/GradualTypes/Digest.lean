/-!
Digests. A type is summarised by a 64-bit word, which narrows the search for a union or an
intersection that was made before. How a sequence of words is hashed is left open: a store is given
its hash when it is made, and digests are built on it.
-/

namespace GradualTypes

abbrev WordHash := List UInt64 → UInt64

namespace WordHash

def factor : UInt64 := 0xf1357aea2e62a9c5

def absorb (state word : UInt64) : UInt64 :=
  (state + word) * factor

def finish (state : UInt64) : UInt64 :=
  (state <<< 26) ||| (state >>> 38)

/-- The hash of the program. Words are absorbed one after the other by adding and multiplying, and
the state is turned left at the end, so that the well-mixed high bits come down. -/
def mixing : WordHash := fun words =>
  finish (words.foldl absorb 0)

end WordHash

namespace Digest

/-- The digest of a list from those of its elements. The length comes first. -/
def ofList (hash : WordHash) (parts : List UInt64) : UInt64 :=
  hash (UInt64.ofNat parts.length :: parts)

def ofTuple (hash : WordHash) (parts : List UInt64) : UInt64 :=
  73 * ofList hash parts

/-- The digest of a union from those of its members, whatever their order. -/
def ofUnion (parts : List UInt64) : UInt64 :=
  31 + parts.foldl (· + ·) 0

def ofIntersection (parts : List UInt64) : UInt64 :=
  47 + parts.foldl (· + ·) 0

end Digest

end GradualTypes
