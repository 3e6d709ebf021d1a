/-!
Traits. Every type of a store carries a word whose bits tell facts about its whole structure: the
lowest whether a type variable occurs in it, the next whether a tuple does. The word is computed
once, from those of the components, when the type is made.
-/

namespace GradualTypes

structure Traits where
  word : UInt32 := 0
  deriving DecidableEq, Repr

namespace Traits

def none : Traits := {}

def var : Traits := ⟨1⟩

def tuple : Traits := ⟨2⟩

instance : Inhabited Traits := ⟨none⟩

def merge (a b : Traits) : Traits :=
  ⟨a.word ||| b.word⟩

/-- The traits that a component passes on to what is made of it. -/
def passedOn (t : Traits) : Traits :=
  ⟨t.word &&& (var.merge tuple).word⟩

def mergeAll (parts : List Traits) : Traits :=
  parts.foldl (fun sum part => sum.merge part.passedOn) none

def intersects (a b : Traits) : Bool :=
  a.word &&& b.word != 0

def hasVar (t : Traits) : Bool :=
  t.intersects var

def hasTuple (t : Traits) : Bool :=
  t.intersects tuple

/-- A type is inert when substitution cannot change it: it holds no variable, and no tuple, of
which substitution would make a fresh copy. -/
def isInert (t : Traits) : Bool :=
  !t.intersects (var.merge tuple)

def bits (t : Traits) : Nat :=
  t.word.toNat

def ofBits (n : Nat) : Traits :=
  ⟨UInt32.ofNat n⟩

@[simp] theorem ofBits_bits (t : Traits) : ofBits t.bits = t := by
  simp [ofBits, bits]

@[simp] theorem bits_merge (a b : Traits) : (a.merge b).bits = a.bits ||| b.bits := by
  simp [bits, merge]

@[simp] theorem none_merge (t : Traits) : none.merge t = t := by
  simp [merge, none]

@[simp] theorem merge_none (t : Traits) : t.merge none = t := by
  simp [merge, none]

@[simp] theorem bits_passedOn (t : Traits) : t.passedOn.bits = t.bits &&& 3 := by
  simp [bits, passedOn, merge, var, tuple]

theorem intersects_iff (a b : Traits) : a.intersects b = true ↔ a.bits &&& b.bits ≠ 0 := by
  simp [intersects, bits, ← UInt32.toNat_inj]

private theorem and_ne_zero_iff_testBit {n mask i : Nat}
    (hmask : ∀ j, mask.testBit j = decide (i = j)) : n &&& mask ≠ 0 ↔ n.testBit i = true := by
  constructor
  · intro hne
    obtain ⟨j, hj⟩ := Nat.exists_testBit_of_ne_zero hne
    rw [Nat.testBit_and, hmask, Bool.and_eq_true, decide_eq_true_eq] at hj
    rw [hj.2]
    exact hj.1
  · intro hbit hzero
    have hclear : (n &&& mask).testBit i = false := by rw [hzero, Nat.zero_testBit]
    rw [Nat.testBit_and, hbit, hmask, decide_eq_true rfl] at hclear
    cases hclear

theorem hasVar_eq (t : Traits) : t.hasVar = t.bits.testBit 0 := by
  rw [Bool.eq_iff_iff, hasVar, intersects_iff]
  exact and_ne_zero_iff_testBit fun j => @Nat.testBit_two_pow 0 j

theorem hasTuple_eq (t : Traits) : t.hasTuple = t.bits.testBit 1 := by
  rw [Bool.eq_iff_iff, hasTuple, intersects_iff]
  exact and_ne_zero_iff_testBit fun j => @Nat.testBit_two_pow 1 j

@[simp] theorem hasVar_none : none.hasVar = false := rfl

@[simp] theorem hasVar_var : var.hasVar = true := rfl

@[simp] theorem hasVar_tuple : tuple.hasVar = false := rfl

@[simp] theorem hasTuple_none : none.hasTuple = false := rfl

@[simp] theorem hasTuple_var : var.hasTuple = false := rfl

@[simp] theorem hasTuple_tuple : tuple.hasTuple = true := rfl

@[simp] theorem hasVar_merge (a b : Traits) : (a.merge b).hasVar = (a.hasVar || b.hasVar) := by
  simp [hasVar_eq]

@[simp] theorem hasTuple_merge (a b : Traits) :
    (a.merge b).hasTuple = (a.hasTuple || b.hasTuple) := by
  simp [hasTuple_eq]

/-- Both traits are passed on. -/
@[simp] theorem hasVar_passedOn (t : Traits) : t.passedOn.hasVar = t.hasVar := by
  simp [hasVar_eq]

@[simp] theorem hasTuple_passedOn (t : Traits) : t.passedOn.hasTuple = t.hasTuple := by
  have hpassed : Nat.testBit 3 1 = true := by decide
  simp [hasTuple_eq, hpassed]

theorem intersects_merge (a b c : Traits) :
    a.intersects (b.merge c) = (a.intersects b || a.intersects c) := by
  rw [Bool.eq_iff_iff, Bool.or_eq_true, intersects_iff, intersects_iff, intersects_iff, bits_merge,
    Nat.and_or_distrib_left, ne_eq, Nat.or_eq_zero_iff, Decidable.not_and_iff_not_or_not]

theorem isInert_eq (t : Traits) : t.isInert = (!t.hasVar && !t.hasTuple) := by
  rw [isInert, intersects_merge, Bool.not_or, hasVar, hasTuple]

end Traits

end GradualTypes
