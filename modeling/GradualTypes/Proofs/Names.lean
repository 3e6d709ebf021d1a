import GradualTypes.Proofs.Growth

/-!
Names that are known. A table of names gives back the text that it was given, also after other
texts were entered, so the names in the nodes of a store keep their texts. No text is entered twice,
so no two names have the same text.
-/

namespace GradualTypes

namespace NameTable

variable {t t' : NameTable} {text known : String} {name other : Name}

private theorem pack?_eq_some_iff {shard : Fin shardCount} {slot : Nat} :
    Name.pack? shard slot = some name ↔ name.shard = shard ∧ name.slot.val = slot := by
  rw [Name.pack?]
  split
  · constructor
    · intro h
      cases h
      exact ⟨rfl, rfl⟩
    · rintro ⟨rfl, rfl⟩
      rfl
  · constructor
    · intro h
      cases h
    · rintro ⟨-, rfl⟩
      exact absurd name.slot.isLt ‹_›

def IsFull (t : NameTable) (shard : Fin shardCount) : Prop :=
  slotLimit ≤ (t.texts shard).length

def overflow (t : NameTable) (text : String) : Error :=
  .shardFull (shardOf text) (t.texts (shardOf text)).length

/-- A text that gets a name is either found, and the table stays as it was, or put at the end of its
shard. -/
theorem intern_eq_ok_iff : t.intern text = .ok (name, t') ↔
    t.find? text = some name ∧ t' = t ∨
      t.find? text = none ∧
        Name.pack? (shardOf text) (t.texts (shardOf text)).length = some name ∧
        t' = t.enter text name := by
  rw [intern]
  cases hfind : t.find? text with
  | some found => simp [eq_comm]
  | none =>
    cases hpack : Name.pack? (shardOf text) (t.texts (shardOf text)).length with
    | none => simp [hpack]
    | some new =>
      simp only [hpack, Except.ok.injEq, Prod.mk.injEq, Option.some.injEq, reduceCtorEq, false_and,
        true_and, false_or]
      exact ⟨fun ⟨hname, htable⟩ => ⟨hname, hname ▸ htable.symm⟩,
        fun ⟨hname, htable⟩ => ⟨hname, hname ▸ htable.symm⟩⟩

/-- A text is refused exactly if it is new and its shard is full. -/
theorem intern_eq_error_iff {e : Error} : t.intern text = .error e ↔
    t.find? text = none ∧ t.IsFull (shardOf text) ∧ e = t.overflow text := by
  rw [intern]
  cases hfind : t.find? text with
  | some found => simp
  | none =>
    by_cases hfull : slotLimit ≤ (t.texts (shardOf text)).length
    · simp [Name.pack?, Nat.not_lt.mpr hfull, IsFull, hfull, overflow, eq_comm]
    · simp [Name.pack?, Nat.lt_of_not_le hfull, IsFull, hfull]

/-- A text is refused only if its shard is full. -/
theorem intern_error {e : Error} (h : t.intern text = .error e) :
    e = t.overflow text ∧ t.IsFull (shardOf text) := by
  obtain ⟨-, hfull, heq⟩ := intern_eq_error_iff.mp h
  exact ⟨heq, hfull⟩

def Keeps (t t' : NameTable) : Prop :=
  ∀ ⦃name known⦄, t.text? name = some known → t'.text? name = some known

theorem Keeps.refl (t : NameTable) : t.Keeps t :=
  fun _ _ hknown => hknown

/-- Names keep their texts when a text is entered. -/
theorem Keeps.intern (h : t.intern text = .ok (name, t')) : t.Keeps t' := by
  intro other known hknown
  rcases intern_eq_ok_iff.mp h with ⟨-, rfl⟩ | ⟨-, -, rfl⟩
  · exact hknown
  · exact text?_enter t text name hknown

/-- The names by text and the texts by position of one shard are inverses of each other. -/
def Inverts (entries : Shard) (shard : Fin shardCount) : Prop :=
  ∀ text name, entries.names.lookup text = some name ↔
    name.shard = shard ∧ entries.texts[name.slot.val]? = some text

/-- A text that is not found goes to the end, and its name is entered with it. -/
theorem Inverts.enter {entries : Shard} {shard : Fin shardCount} (hs : Inverts entries shard)
    (hnew : entries.names.lookup text = none)
    (hname : Name.pack? shard entries.texts.length = some name) :
    Inverts ⟨(text, name) :: entries.names, entries.texts ++ [text]⟩ shard := by
  intro known other
  -- a name stands for an old text, or it is the new name
  have hstands : other.shard = shard ∧ (entries.texts ++ [text])[other.slot.val]? = some known ↔
      entries.names.lookup known = some other ∨ other = name ∧ known = text := by
    have hsame : other = name ↔ other.shard = shard ∧ other.slot.val = entries.texts.length := by
      rw [← pack?_eq_some_iff, hname, Option.some.injEq, eq_comm]
    rw [hs, hsame, List.getElem?_append]
    split <;> grind
  rw [hstands, List.lookup_cons]
  by_cases hknown : known = text
  · simp [hknown, hnew, eq_comm]
  · rw [beq_false_of_ne hknown]
    simp [hknown]

/-- Every text stands in the shard it belongs to, each shard finds names by text and texts by
position as inverses of each other, and the count is that of the texts of all shards. -/
structure IsOrderly (t : NameTable) : Prop where
  placed : ∀ {shard text}, text ∈ t.texts shard → shardOf text = shard
  inverse : ∀ shard, Inverts (t.shard shard) shard
  counted : t.size = ∑ shard, (t.texts shard).length

namespace IsOrderly

/-- A text is found under a name exactly if it is the text of that name. -/
theorem find?_eq_some_iff (ht : t.IsOrderly) :
    t.find? text = some name ↔ t.text? name = some text := by
  rw [find?, ht.inverse, text?]
  constructor
  · rintro ⟨hshard, htext⟩
    rw [hshard]
    exact htext
  · intro htext
    have hshard := ht.placed (List.mem_of_getElem? htext)
    rw [hshard]
    exact ⟨rfl, htext⟩

/-- Two names of one text are the same name. -/
theorem eq_of_text? (ht : t.IsOrderly) (hname : t.text? name = some text)
    (hother : t.text? other = some text) : name = other := by
  rw [← ht.find?_eq_some_iff] at hname hother
  exact Option.some.inj (hname.symm.trans hother)

/-- A text that is not found goes to the end of its shard, and its name is entered with it. -/
theorem enter (ht : t.IsOrderly) (hnew : t.find? text = none)
    (hname : Name.pack? (shardOf text) (t.texts (shardOf text)).length = some name) :
    (t.enter text name).IsOrderly where
  placed {shard other} hother := by
    by_cases hshard : shard = shardOf text
    · rw [hshard, texts_enter_self, List.mem_append, List.mem_singleton] at hother
      rcases hother with hother | rfl
      · rw [ht.placed hother, hshard]
      · exact hshard.symm
    · rw [texts_enter_of_ne t text name hshard] at hother
      exact ht.placed hother
  inverse shard := by
    by_cases hshard : shard = shardOf text
    · rw [hshard, shard_enter_self]
      exact (ht.inverse _).enter hnew hname
    · rw [shard_enter_of_ne t text name hshard]
      exact ht.inverse shard
  counted := by
    have hlength : ∀ shard, ((t.enter text name).texts shard).length =
        (t.texts shard).length + if shard = shardOf text then 1 else 0 := by
      intro shard
      by_cases hshard : shard = shardOf text
      · simp [hshard]
      · simp [hshard, texts_enter_of_ne t text name hshard]
    simp [hlength, Finset.sum_add_distrib, ht.counted]

theorem empty : NameTable.empty.IsOrderly where
  placed {shard text} htext := by simp [NameTable.empty, texts, NameTable.shard] at htext
  inverse shard text name := by simp [NameTable.empty, NameTable.shard]
  counted := by simp [NameTable.empty, texts, NameTable.shard, size]

/-- Entering a text keeps the order: it is put at the end only if it was not found. -/
theorem intern (ht : t.IsOrderly) (h : t.intern text = .ok (name, t')) : t'.IsOrderly := by
  rcases intern_eq_ok_iff.mp h with ⟨-, rfl⟩ | ⟨hnone, hpack, rfl⟩
  · exact ht
  · exact ht.enter hnone hpack

theorem core : NameTable.core.IsOrderly := by
  rw [NameTable.core]
  refine List.foldlRecOn _ _ empty fun t ht c _ => ?_
  cases hintern : t.intern c.text with
  | ok result => exact ht.intern hintern
  | error e => exact ht

/-- The name that a text gets is the name of that text. -/
theorem text?_of_intern (ht : t.IsOrderly) (h : t.intern text = .ok (name, t')) :
    t'.text? name = some text := by
  rcases intern_eq_ok_iff.mp h with ⟨hfind, rfl⟩ | ⟨-, hpack, rfl⟩
  · exact ht.find?_eq_some_iff.mp hfind
  · obtain ⟨hshard, hval⟩ := pack?_eq_some_iff.mp hpack
    rw [text?, hshard, hval, texts_enter_self]
    simp

end IsOrderly

end NameTable

namespace Store

def Named (s : Store) : Prop :=
  ∀ ⦃h slot name⦄, s.slot? h = some slot → slot.node.name? = some name →
    ∃ text, s.names.text? name = some text

variable {s : Store}

theorem Named.allocate {node : Node} {traits : Traits} {digest : UInt64} (hs : s.Named)
    (ha : s.Admits node traits digest) : (s.allocate node traits digest).Named := by
  intro h slot name hslot hname
  rw [names_allocate]
  rcases slot_of_slot_allocate hslot with hold | ⟨-, rfl⟩
  · exact hs hold hname
  · exact ha.named name hname

theorem Named.keeps {t : Store} (hs : s.Named) (hslots : t.slots = s.slots)
    (hnames : s.names.Keeps t.names) : t.Named := by
  intro h slot name hslot hname
  rw [slot?_of_slots hslots] at hslot
  obtain ⟨text, htext⟩ := hs hslot hname
  exact ⟨text, hnames htext⟩

end Store

end GradualTypes
