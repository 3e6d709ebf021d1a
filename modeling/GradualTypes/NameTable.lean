import GradualTypes.Error

/-!
The table of names. It gives every text one name and every name it gave one text. A text belongs to
the shard that its first eight bytes select, and its position there is the number of texts that the
shard held before it. A shard finds names by text and texts by position, each in a list of its own,
and the table counts the texts of all shards as they are entered.
-/

namespace GradualTypes

/-- The names by text, newest first, and the texts by position. -/
structure Shard where
  names : List (String × Name) := []
  texts : List String := []
  deriving DecidableEq, Repr

structure NameTable where
  shards : Vector Shard shardCount
  count : Nat
  deriving DecidableEq, Repr

namespace NameTable

/-- The first eight bytes of a text, read as a numeral in base 31, modulo the number of shards. A
character may be cut. -/
def shardOf (text : String) : Fin shardCount :=
  Fin.ofNat shardCount
    ((text.toUTF8.data.toList.take 8).foldl (fun sum byte => sum * 31 + byte.toNat) 0)

def empty : NameTable :=
  ⟨Vector.replicate shardCount {}, 0⟩

def shard (t : NameTable) (i : Fin shardCount) : Shard :=
  t.shards[i.val]

def texts (t : NameTable) (i : Fin shardCount) : List String :=
  (t.shard i).texts

def find? (t : NameTable) (text : String) : Option Name :=
  (t.shard (shardOf text)).names.lookup text

/-- Puts a text at the end of its shard, enters the name it is to have there, and counts it. -/
def enter (t : NameTable) (text : String) (name : Name) : NameTable where
  shards := t.shards.set (shardOf text).val
    ⟨(text, name) :: (t.shard (shardOf text)).names, t.texts (shardOf text) ++ [text]⟩
  count := t.count + 1

/-- The name of a text, which is entered if it is new. A shard that is full refuses, and the table
stays as it was. -/
def intern (t : NameTable) (text : String) : Except Error (Name × NameTable) :=
  match t.find? text with
  | some name => .ok (name, t)
  | none =>
    let position := (t.texts (shardOf text)).length
    match Name.pack? (shardOf text) position with
    | some name => .ok (name, t.enter text name)
    | none => .error (.shardFull (shardOf text) position)

def text? (t : NameTable) (name : Name) : Option String :=
  (t.texts name.shard)[name.slot.val]?

/-- The text of a name, or a fault if the table never gave that name. -/
def text (t : NameTable) (name : Name) : Except Error String :=
  match t.text? name with
  | some text => .ok text
  | none => .error (.unknownName name)

def size (t : NameTable) : Nat :=
  t.count

def isEmpty (t : NameTable) : Bool :=
  t.size == 0

def summary (t : NameTable) : String :=
  "SharedInterner \x7b len: " ++ toString t.size ++ " \x7d"

section Enter

variable (t : NameTable) (text : String) (name : Name)

@[simp] theorem shard_enter_self : (t.enter text name).shard (shardOf text) =
    ⟨(text, name) :: (t.shard (shardOf text)).names, t.texts (shardOf text) ++ [text]⟩ := by
  simp [shard, enter]

theorem shard_enter_of_ne {i : Fin shardCount} (h : i ≠ shardOf text) :
    (t.enter text name).shard i = t.shard i := by
  have hval : (shardOf text).val ≠ i.val := fun heq => h (Fin.ext heq.symm)
  simp [shard, enter, hval]

@[simp] theorem texts_enter_self :
    (t.enter text name).texts (shardOf text) = t.texts (shardOf text) ++ [text] := by
  rw [texts, shard_enter_self]

theorem texts_enter_of_ne {i : Fin shardCount} (h : i ≠ shardOf text) :
    (t.enter text name).texts i = t.texts i := by
  rw [texts, shard_enter_of_ne t text name h, texts]

@[simp] theorem size_enter : (t.enter text name).size = t.size + 1 := rfl

end Enter

/-- A name keeps its text when another text is entered. -/
theorem text?_enter (t : NameTable) (text : String) (new : Name) {name : Name} {known : String}
    (h : t.text? name = some known) : (t.enter text new).text? name = some known := by
  by_cases hshard : name.shard = shardOf text
  · rw [text?, hshard] at h
    rw [text?, hshard, texts_enter_self]
    obtain ⟨hlt, hget⟩ := List.getElem?_eq_some_iff.mp h
    rw [List.getElem?_append_left hlt]
    exact h
  · rw [text?, texts_enter_of_ne t text new hshard]
    exact h

end NameTable

end GradualTypes
