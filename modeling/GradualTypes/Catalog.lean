import GradualTypes.Handle

/-!
Catalogs. A store keeps one type per description, and a catalog remembers which handle stands for
which description. A keyed catalog compares descriptions for identity. A set catalog serves unions
and intersections, whose descriptions are sets: it narrows the search by digest and leaves the
comparison to its user.
-/

namespace GradualTypes

/-- Handles by description, the newest first. -/
structure Catalog (κ : Type) where
  entries : List (κ × Handle) := []

namespace Catalog

variable {κ : Type}

def empty : Catalog κ := {}

def insert (c : Catalog κ) (key : κ) (handle : Handle) : Catalog κ :=
  ⟨(key, handle) :: c.entries⟩

def size (c : Catalog κ) : Nat :=
  c.entries.length

def isEmpty (c : Catalog κ) : Bool :=
  c.entries.isEmpty

@[simp] theorem size_insert (c : Catalog κ) (key : κ) (handle : Handle) :
    (c.insert key handle).size = c.size + 1 := rfl

variable [DecidableEq κ]

def find? (c : Catalog κ) (key : κ) : Option Handle :=
  (c.entries.find? (fun entry => entry.1 = key)).map Prod.snd

/-- The handle for a description. If the catalog has none, one is made from the description and
entered; otherwise nothing is made. -/
def internWith {m : Type → Type} [Monad m] (c : Catalog κ) (key : κ) (make : κ → m Handle) :
    m (Handle × Catalog κ) :=
  match c.find? key with
  | some handle => return (handle, c)
  | none => do
    let handle ← make key
    return (handle, c.insert key handle)

@[simp] theorem find?_insert_self (c : Catalog κ) (key : κ) (handle : Handle) :
    (c.insert key handle).find? key = some handle := by
  simp [find?, insert]

theorem find?_insert_of_ne (c : Catalog κ) {key other : κ} (handle : Handle) (h : key ≠ other) :
    (c.insert key handle).find? other = c.find? other := by
  simp [find?, insert, h]

end Catalog

/-- Handles by digest, in the order of their entry. -/
structure SetCatalog where
  entries : List (UInt64 × Handle) := []

namespace SetCatalog

def empty : SetCatalog := {}

/-- The handles entered under a digest, oldest first. -/
def bucket (c : SetCatalog) (digest : UInt64) : List Handle :=
  (c.entries.filter (fun entry => entry.1 == digest)).map Prod.snd

/-- The oldest handle under a digest that passes a test. -/
def findM? {m : Type → Type} [Monad m] (c : SetCatalog) (digest : UInt64)
    (same : Handle → m Bool) : m (Option Handle) :=
  (c.bucket digest).findM? same

/-- Enters a handle under a digest, whether or not it was entered before. -/
def insert (c : SetCatalog) (digest : UInt64) (handle : Handle) : SetCatalog :=
  ⟨c.entries ++ [(digest, handle)]⟩

def size (c : SetCatalog) : Nat :=
  c.entries.length

def isEmpty (c : SetCatalog) : Bool :=
  c.entries.isEmpty

@[simp] theorem size_insert (c : SetCatalog) (digest : UInt64) (handle : Handle) :
    (c.insert digest handle).size = c.size + 1 := by
  simp [size, insert]

/-- A new entry goes to the end of its bucket and leaves the others alone. -/
theorem bucket_insert (c : SetCatalog) (digest other : UInt64) (handle : Handle) :
    (c.insert digest handle).bucket other =
      c.bucket other ++ (if digest = other then [handle] else []) := by
  by_cases h : digest = other <;> simp [bucket, insert, h]

end SetCatalog

end GradualTypes
