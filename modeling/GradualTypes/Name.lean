/-!
Names. A text is entered once in a table of names and from then on is known by its name. The table
has sixteen shards; a name is the shard of its text together with the text's position there. Both
fit in one 32-bit number, the position in the upper twenty-eight bits.
-/

namespace GradualTypes

abbrev shardCount : Nat := 16

abbrev slotLimit : Nat := 268435456

structure Name where
  shard : Fin shardCount
  slot : Fin slotLimit
  deriving DecidableEq, Repr

namespace Name

/-- The name of the text at a position of a shard, if the shard reaches that far. -/
def pack? (shard : Fin shardCount) (slot : Nat) : Option Name :=
  if h : slot < slotLimit then some ⟨shard, ⟨slot, h⟩⟩ else none

def fixed (shard slot : Nat) (hshard : shard < shardCount := by decide)
    (hslot : slot < slotLimit := by decide) : Name :=
  ⟨⟨shard, hshard⟩, ⟨slot, hslot⟩⟩

def raw (n : Name) : Nat :=
  n.slot.val * shardCount + n.shard.val

/-- The name with a given number; numbers from 2^32 on name nothing. -/
def ofRaw? (n : Nat) : Option Name :=
  pack? ⟨n % shardCount, Nat.mod_lt n (by decide)⟩ (n / shardCount)

/-- How a name is written in messages: its position, then its shard. -/
def text (n : Name) : String :=
  "Name(" ++ toString n.slot.val ++ "@" ++ toString n.shard.val ++ ")"

theorem raw_lt (n : Name) : n.raw < 4294967296 := by
  have hslot := n.slot.isLt
  have hshard := n.shard.isLt
  simp only [raw, shardCount, slotLimit] at *
  omega

@[simp] theorem ofRaw?_raw (n : Name) : ofRaw? n.raw = some n := by
  obtain ⟨⟨shard, hshard⟩, ⟨slot, hslot⟩⟩ := n
  have hmod : (slot * shardCount + shard) % shardCount = shard := by
    simp only [shardCount] at *
    omega
  have hdiv : (slot * shardCount + shard) / shardCount = slot := by
    simp only [shardCount] at *
    omega
  simp [ofRaw?, raw, pack?, hmod, hdiv, hslot]

/-- Different names have different numbers. -/
theorem raw_injective {a b : Name} (h : a.raw = b.raw) : a = b := by
  have hab : ofRaw? a.raw = ofRaw? b.raw := congrArg ofRaw? h
  simpa using hab

end Name

end GradualTypes
