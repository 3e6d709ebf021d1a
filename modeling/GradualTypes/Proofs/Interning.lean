import GradualTypes.Proofs.WellFormed

/-!
Names and texts correspond. A table of names that started with the core classes holds exactly the
texts that got a name from it. Entering a text adds one pair to the correspondence or none, and a
text that is refused changes nothing, so a pair that was ever given stays. The number of a name
shows the shard of its text and the position in the shard.
-/

namespace GradualTypes

namespace Name

/-- The number of a name holds the shard in its four lowest bits and the position above them, and it
fits in thirty-two bits. -/
private theorem raw_bits (n : Name) :
    n.raw = n.slot.val <<< 4 ||| n.shard.val ∧ n.raw &&& 15 = n.shard.val ∧
      n.raw >>> 4 = n.slot.val ∧ n.raw < 2 ^ 32 := by
  have hshard : n.shard.val < 2 ^ 4 := n.shard.isLt
  have hraw : n.raw = 2 ^ 4 * n.slot.val + n.shard.val := by
    rw [raw, Nat.mul_comm]
    rfl
  refine ⟨?_, ?_, ?_, n.raw_lt⟩
  · rw [hraw, Nat.shiftLeft_eq, Nat.mul_comm n.slot.val, Nat.two_pow_add_eq_or_of_lt hshard]
  · rw [hraw, show (15 : Nat) = 2 ^ 4 - 1 from rfl, Nat.and_two_pow_sub_one_eq_mod]
    omega
  · rw [hraw, Nat.shiftRight_eq_div_pow]
    omega

/-- Every position below the limit has a name, from which it can be read off. -/
private theorem exists_pack? (shard : Fin shardCount) {slot : Nat} (hslot : slot < slotLimit) :
    ∃ n, pack? shard slot = some n ∧ n.raw = slot <<< 4 ||| shard.val ∧
      n.raw &&& 15 = shard.val ∧ n.raw >>> 4 = slot ∧ n.raw < 2 ^ 32 :=
  ⟨⟨shard, slot, hslot⟩, dif_pos hslot, raw_bits ⟨shard, slot, hslot⟩⟩

end Name

namespace NameTable

variable {t t' : NameTable} {text known : String} {name : Name}
  {given : List (String × Name)}

/-- What stands in a table after a text was put at the end of its shard. -/
private theorem text?_of_enter {new : Name} (h : (t.enter text new).text? name = some known) :
    t.text? name = some known ∨ known = text := by
  by_cases hshard : name.shard = shardOf text
  · rw [text?, hshard, texts_enter_self] at h
    rcases Nat.lt_or_ge name.slot.val (t.texts (shardOf text)).length with hlt | hge
    · rw [List.getElem?_append_left hlt, ← hshard] at h
      exact .inl h
    · rw [List.getElem?_append_right hge] at h
      exact .inr (List.mem_singleton.mp (List.mem_of_getElem? h))
  · rw [text?, texts_enter_of_ne t text new hshard] at h
    exact .inl h

/-- A table that holds the texts of some pairs under the names of these, and nothing else. -/
structure Registers (t : NameTable) (given : List (String × Name)) : Prop where
  orderly : t.IsOrderly
  mem_iff : ∀ {text name}, (text, name) ∈ given ↔ t.text? name = some text
  size_eq : t.size = (given.map Prod.fst).toFinset.card

namespace Registers

theorem find?_eq_some_iff (ht : t.Registers given) :
    t.find? text = some name ↔ (text, name) ∈ given :=
  ht.orderly.find?_eq_some_iff.trans ht.mem_iff.symm

/-- A text that got a name gets it again, and the table stays as it is. -/
theorem intern_again (ht : t.Registers given) (hgiven : (text, name) ∈ given) :
    t.intern text = .ok (name, t) :=
  intern_eq_ok_iff.mpr (.inl ⟨ht.find?_eq_some_iff.mpr hgiven, rfl⟩)

/-- Texts that got a name are equal exactly if their names are. -/
theorem name_eq_iff (ht : t.Registers given) {other : Name} (hname : (text, name) ∈ given)
    (hother : (known, other) ∈ given) : name = other ↔ text = known := by
  rw [ht.mem_iff] at hname hother
  constructor
  · rintro rfl
    rw [hname] at hother
    exact Option.some.inj hother
  · rintro rfl
    exact ht.orderly.eq_of_text? hname hother

/-- Entering a text adds its pair to the correspondence. A text that was found was there before, and
one that is put at the end of its shard is one text more. -/
theorem intern (ht : t.Registers given) (h : t.intern text = .ok (name, t')) :
    t'.Registers (given ++ [(text, name)]) where
  orderly := ht.orderly.intern h
  mem_iff {other n} := by
    simp only [List.mem_append, List.mem_singleton, Prod.mk.injEq]
    constructor
    · rintro (hgiven | ⟨rfl, rfl⟩)
      · exact Keeps.intern h (ht.mem_iff.mp hgiven)
      · exact ht.orderly.text?_of_intern h
    · intro htext
      have hcases : t.text? n = some other ∨ other = text := by
        rcases intern_eq_ok_iff.mp h with ⟨-, rfl⟩ | ⟨-, -, rfl⟩
        · exact .inl htext
        · exact text?_of_enter htext
      rcases hcases with hold | rfl
      · exact .inl (ht.mem_iff.mpr hold)
      · exact .inr ⟨rfl, (ht.orderly.intern h).eq_of_text? htext (ht.orderly.text?_of_intern h)⟩
  size_eq := by
    rw [List.map_append, List.toFinset_append, List.map_singleton, List.toFinset_cons,
      List.toFinset_nil, insert_empty_eq, Finset.union_singleton]
    rcases intern_eq_ok_iff.mp h with ⟨hfind, rfl⟩ | ⟨hnone, -, rfl⟩
    · have hmem : text ∈ (given.map Prod.fst).toFinset :=
        List.mem_toFinset.mpr (List.mem_map_of_mem (ht.find?_eq_some_iff.mp hfind))
      rw [Finset.insert_eq_of_mem hmem, ht.size_eq]
    · have hnew : text ∉ (given.map Prod.fst).toFinset := by
        rw [List.mem_toFinset, List.mem_map]
        rintro ⟨⟨_, n⟩, hgiven, rfl⟩
        rw [ht.find?_eq_some_iff.mpr hgiven] at hnone
        cases hnone
      rw [Finset.card_insert_of_notMem hnew, size_enter, ht.size_eq]

end Registers

def coreNames : List (String × Name) :=
  CoreClass.all.map fun c => (c.text, c.name)

private theorem registers_core : NameTable.core.Registers coreNames where
  orderly := .core
  mem_iff {text name} := by
    have hknown : ∀ shard, ∀ text ∈ NameTable.core.texts shard, text ∈ coreNames.map Prod.fst := by
      decide +kernel
    constructor
    · intro hgiven
      obtain ⟨c, -, heq⟩ := List.mem_map.mp hgiven
      cases heq
      exact text?_core c
    · intro htext
      obtain ⟨⟨_, n⟩, hgiven, rfl⟩ := List.mem_map.mp (hknown _ text (List.mem_of_getElem? htext))
      obtain ⟨c, -, heq⟩ := List.mem_map.mp hgiven
      cases heq
      rw [IsOrderly.core.eq_of_text? htext (text?_core c)]
      exact hgiven
  size_eq := by
    have hnodup : (coreNames.map Prod.fst).Nodup := by decide +kernel
    rw [List.toFinset_card_of_nodup hnodup, size_core]
    rfl

end NameTable

namespace Store

variable {s t : Store} {text : String} {name : Name} {given : List (String × Name)} {e : Error}

private theorem intern_run_eq_ok_iff : intern text s = .ok name t ↔
    ∃ names, s.names.intern text = .ok (name, names) ∧ t = { s with names } := by
  rw [intern]
  cases hintern : s.names.intern text with
  | ok result => simp [Prod.ext_iff, eq_comm, and_assoc]
  | error e => simp

/-- A text that is refused changes nothing. -/
theorem intern_run_eq_error_iff : intern text s = .error e t ↔
    s.names.intern text = .error e ∧ t = s := by
  rw [intern]
  cases hintern : s.names.intern text with
  | ok result => simp
  | error e => simp [eq_comm]

/-- Offers texts to the table of names of a store one after the other, whether or not it refuses
some of them. Gives the texts that got a name, each with its name, and the store after all. -/
def internAll : List String → Store → List (String × Name) × Store
  | [], s => ([], s)
  | text :: rest, s =>
    match intern text s with
    | .ok name t => ((text, name) :: (internAll rest t).1, (internAll rest t).2)
    | .error _ t => internAll rest t

/-- After any sequence of texts the table holds what it held before and what it gave names to. -/
theorem registers_internAll (hs : s.names.Registers given) (texts : List String) :
    (internAll texts s).2.names.Registers (given ++ (internAll texts s).1) := by
  induction texts generalizing s given with
  | nil => simpa [internAll] using hs
  | cons text rest ih =>
    rw [internAll]
    cases hrun : intern text s with
    | ok name t =>
      obtain ⟨names, hintern, rfl⟩ := intern_run_eq_ok_iff.mp hrun
      simpa using ih (hs.intern hintern)
    | error e t =>
      obtain ⟨-, rfl⟩ := intern_run_eq_error_iff.mp hrun
      exact ih hs

end Store

open NameTable in
/-- Whatever texts are offered to a new table of names, one after the other: a text that got a name
is the text of that name ever after, and gets it again without a change. Of two texts the names are
equal exactly if the texts are. A name is the shard of its text and the position at which the text
stands there, and both can be read off its number, which fits in thirty-two bits for every position
that a shard may have. The two ways to look up, names by text and texts by name, are inverses of
each other. The counter is the number of different texts that the table was given, and the number of
texts that its shards hold. A text is refused exactly if it is new and its shard is full, and then
nothing changes. -/
theorem Store.names_bijective (texts : List String) :
    let given := (internAll texts .initial).1
    let s := (internAll texts .initial).2
    (∀ text name, (text, name) ∈ given → ∀ more, let later := (internAll more s).2
      later.names.text name = .ok text ∧ Store.intern text later = .ok name later) ∧
    (∀ text name text' name', (text, name) ∈ given → (text', name') ∈ given →
      (name = name' ↔ text = text')) ∧
    (∀ text name, (text, name) ∈ given → name.raw &&& 15 = shardOf text ∧
      (s.names.texts (shardOf text))[name.raw >>> 4]? = some text) ∧
    (∀ text name, s.names.find? text = some name ↔ s.names.text? name = some text) ∧
    (∀ (shard : Fin shardCount) (slot : Nat), slot < 2 ^ 28 → ∃ n, Name.pack? shard slot = some n ∧
      n.raw = slot <<< 4 ||| shard.val ∧ n.raw &&& 15 = shard.val ∧ n.raw >>> 4 = slot ∧
      n.raw < 2 ^ 32) ∧
    (∀ n n' : Name, n.raw = n'.raw → n = n') ∧
    s.names.size = (CoreClass.all.map CoreClass.text ++ given.map Prod.fst).toFinset.card ∧
    s.names.size = ∑ shard, (s.names.texts shard).length ∧
    ∀ text e after, Store.intern text s = .error e after ↔
      (∀ name, (text, name) ∉ coreNames ++ given) ∧ s.names.IsFull (shardOf text) ∧
        e = s.names.overflow text ∧ after = s := by
  intro given s
  have hs : s.names.Registers (coreNames ++ given) :=
    registers_internAll (s := .initial) registers_core texts
  have hmem : ∀ {text name}, (text, name) ∈ given → (text, name) ∈ coreNames ++ given :=
    fun hgiven => List.mem_append_right _ hgiven
  refine ⟨fun text name hgiven more => ?_, fun text name text' name' hgiven hgiven' => ?_,
    fun text name hgiven => ?_, fun text name => hs.orderly.find?_eq_some_iff,
    fun shard slot hslot => Name.exists_pack? shard hslot, fun n n' => Name.raw_injective, ?_,
    hs.orderly.counted, fun text e after => ?_⟩
  · have hlater := registers_internAll hs more
    have hkept := List.mem_append_left (internAll more s).1 (hmem hgiven)
    refine ⟨?_, intern_run_eq_ok_iff.mpr ⟨_, hlater.intern_again hkept, rfl⟩⟩
    rw [NameTable.text, hlater.mem_iff.mp hkept]
  · exact hs.name_eq_iff (hmem hgiven) (hmem hgiven')
  · have htext := hs.mem_iff.mp (hmem hgiven)
    obtain ⟨-, hshard, hslot, -⟩ := name.raw_bits
    have hplaced := hs.orderly.placed (List.mem_of_getElem? htext)
    rw [hshard, hslot, hplaced]
    exact ⟨rfl, htext⟩
  · rw [hs.size_eq, List.map_append]
    rfl
  · rw [intern_run_eq_error_iff, intern_eq_error_iff, Option.eq_none_iff_forall_ne_some]
    simp only [ne_eq, hs.find?_eq_some_iff, and_assoc]

/-- A text that is known from the start, one that shares its first eight bytes and therefore its
shard with a core class, the first again, and one of another shard. The two texts that are new make
fourteen with the core classes, and the second keeps its name whatever comes after. -/
theorem initial_names_bijective :
    let given := (Store.internAll ["Array", "BasicObjective", "Array", "é"] .initial).1
    let s := (Store.internAll ["Array", "BasicObjective", "Array", "é"] .initial).2
    given = [("Array", ⟨9, 1⟩), ("BasicObjective", ⟨9, 3⟩), ("Array", ⟨9, 1⟩), ("é", ⟨6, 0⟩)] ∧
      s.names.size = 14 ∧
      ∀ more, (Store.internAll more s).2.names.text ⟨9, 3⟩ = .ok "BasicObjective" := by
  intro given s
  have hgiven : given = [("Array", ⟨9, 1⟩), ("BasicObjective", ⟨9, 3⟩), ("Array", ⟨9, 1⟩),
      ("é", ⟨6, 0⟩)] := by
    decide +kernel
  obtain ⟨hkeeps, -, -, -, -, -, hsize, -⟩ :=
    Store.names_bijective ["Array", "BasicObjective", "Array", "é"]
  have hmem : ("BasicObjective", ⟨9, 3⟩) ∈ given := by
    rw [hgiven]
    simp
  refine ⟨hgiven, hsize.trans ?_, fun more => (hkeeps _ _ hmem more).1⟩
  change (_ ++ given.map Prod.fst).toFinset.card = 14
  rw [hgiven]
  decide +kernel

end GradualTypes
