import GradualTypes.Proofs.Runs
import GradualTypes.Proofs.WellFormed

/-!
What formation returns. From types of a well-formed store formation never fails. It returns a type
with the node that was asked for, and the store is either left as it was or grows by that one type.
A union or an intersection may collapse to one of its parts, and one that is found in its catalog
has members equal to those asked for, though they need not be the same handles.
-/

namespace GradualTypes

namespace Store

variable {s t : Store} {h : Handle} {node : Node}

def Adds (s t : Store) : Prop :=
  ∃ node traits digest, s.Admits node traits digest ∧ t = s.allocate node traits digest

/-- `t` is a later stage of a well-formed store `s` to which only types were added. -/
structure Grows (s t : Store) : Prop extends s.Extends t where
  wellFormed : s.WellFormed → t.WellFormed
  names_eq : t.names = s.names
  added : Relation.ReflTransGen Adds s t

theorem Grows.refl (s : Store) : s.Grows s :=
  ⟨.refl s, fun hs => hs, rfl, .refl⟩

theorem Grows.trans {u : Store} (hst : s.Grows t) (htu : t.Grows u) : s.Grows u :=
  ⟨hst.toExtends.trans htu.toExtends, fun hs => htu.wellFormed (hst.wellFormed hs),
    htu.names_eq.trans hst.names_eq, hst.added.trans htu.added⟩

instance : IsPreorder Store Grows where
  refl := Grows.refl
  trans _ _ _ := Grows.trans

/-- `h` is a type with a given node, and `t` is `s` with at most that type added. -/
structure Formed (s : Store) (node : Node) (h : Handle) (t : Store) : Prop where
  slot : ∃ traits, t.slot? h = some ⟨node, traits⟩
  grown : t = s ∨ ∃ traits digest, s.Admits node traits digest ∧ t = s.allocate node traits digest

namespace Formed

theorem made {traits : Traits} {digest : UInt64} (ha : s.Admits node traits digest) :
    Formed s node ⟨s.size⟩ (s.allocate node traits digest) :=
  ⟨⟨traits, slot?_allocate_new⟩, .inr ⟨traits, digest, ha, rfl⟩⟩

theorem contains (hformed : Formed s node h t) : t.contains h := by
  obtain ⟨traits, hslot⟩ := hformed.slot
  exact contains_of_slot hslot

theorem grows (hformed : Formed s node h t) : s.Grows t := by
  rcases hformed.grown with rfl | ⟨traits, digest, ha, rfl⟩
  · exact .refl t
  · exact ⟨.allocate s node traits digest, fun hs => hs.allocate ha, names_allocate ..,
      .single ⟨node, traits, digest, ha, rfl⟩⟩

theorem states_eq (hformed : Formed s node h t) (hnode : node.entry? = none) :
    t.states = s.states := by
  rcases hformed.grown with rfl | ⟨traits, digest, -, rfl⟩
  · rfl
  · rw [states_allocate, hnode]
    rfl

theorem size_le (hformed : Formed s node h t) : t.size ≤ s.size + 1 := by
  rcases hformed.grown with rfl | ⟨traits, digest, -, rfl⟩
  · omega
  · rw [size_allocate]

end Formed

section Checks

variable {position : Nat}

theorem checkParam_eq_ok_iff : s.checkParam position h = .ok () ↔ s.contains h := by
  rw [checkParam]
  split
  next hh => simp [hh]
  next hh => simp [hh]

/-- The arguments pass the check exactly when all are types of the store. -/
theorem checkParamsFrom_eq_ok_iff {types : List Handle} :
    s.checkParamsFrom position types = .ok () ↔ ∀ p ∈ types, s.contains p := by
  induction types generalizing position with
  | nil => simp [checkParamsFrom]
  | cons p rest ih =>
    rw [checkParamsFrom, bind_eq_ok_iff, List.forall_mem_cons, ← ih]
    constructor
    · rintro ⟨⟨⟩, hp, hrest⟩
      exact ⟨checkParam_eq_ok_iff.mp hp, hrest⟩
    · rintro ⟨hp, hrest⟩
      exact ⟨(), checkParam_eq_ok_iff.mpr hp, hrest⟩

theorem nominal_of_checkBase {base : Handle} (hcheck : s.checkBase base = .ok ()) :
    ∃ name, s.node base = .ok (.nominal name) := by
  rw [checkBase] at hcheck
  obtain ⟨⟨⟩, -, hnode⟩ := bind_eq_ok_iff.mp hcheck
  obtain ⟨node, hnode, hof⟩ := bind_eq_ok_iff.mp hnode
  cases node with
  | nominal name => exact ⟨name, hnode⟩
  | _ => cases hof

theorem checkBase_of_nominal {base : Handle} {name : Name}
    (hbase : s.node base = .ok (.nominal name)) : s.checkBase base = .ok () := by
  obtain ⟨traits, hslot⟩ := exists_slot_of_node hbase
  have hcheck : s.checkParam 0 base = .ok () := checkParam_eq_ok_iff.mpr (contains_of_slot hslot)
  rw [checkBase, hcheck, hbase]
  rfl

/-- A base that is a type of the store and no class is rejected. -/
theorem checkBase_error {base : Handle} (hbase : s.contains base)
    (hclass : ∀ name, s.node base ≠ .ok (.nominal name)) :
    s.checkBase base = .error (.notNominal base) := by
  obtain ⟨⟨node, traits⟩, hslot⟩ := exists_slot hbase
  have hnode := node_of_slot hslot
  have hcheck : s.checkParam 0 base = .ok () := checkParam_eq_ok_iff.mpr hbase
  rw [checkBase, hcheck, hnode]
  cases node with
  | nominal name => exact absurd hnode (hclass name)
  | _ => rfl

end Checks

section Keyed

/-- Looks a description up in the catalog of its kind, and makes a type for it if there is none. -/
def internNode (node : Node) (traits : Traits) : StoreM Handle := fun s =>
  match s.entered? node with
  | some h => .ok h s
  | none => .ok ⟨s.size⟩ (s.allocate node traits 0)

private theorem internNode_returns {traits : Traits} (hs : s.WellFormed) (hkeyed : node.isKeyed)
    (hrefs : ∀ p ∈ node.refs, s.contains p)
    (hnamed : ∀ name, node.name? = some name → ∃ text, s.names.text? name = some text)
    (hbase : ∀ base params, node = .generic base params →
      ∃ name, s.node base = .ok (.nominal name))
    (htraits : s.traitsOf node = .ok traits) :
    Returns (internNode node traits) s (Formed s node) := by
  rw [Returns, internNode]
  cases hentered : s.entered? node with
  | some h =>
    exact ⟨h, s, rfl, hs.catalogued.slot_of_entered hentered, .inl rfl⟩
  | none =>
    have hadmits : s.Admits node traits 0 := by
      refine ⟨hrefs, hnamed, htraits, ?_, hbase, ?_, hentered, ?_⟩
      · refine ⟨?_, ?_, ?_⟩ <;> rintro rfl <;> cases hkeyed
      · rintro params own entry rfl
        cases hkeyed
      · rintro kind members rfl
        cases kind <;> cases hkeyed
    exact ⟨_, _, rfl, .made hadmits⟩

section Equations

variable (s)

theorem nominalNamed_run (name : Name) :
    nominalNamed name s = internNode (.nominal name) .none s := by
  simp only [nominalNamed, internNode, entered?, Catalog.internWith, bind, EStateM.bind, get,
    getThe, MonadStateOf.get, EStateM.get]
  cases s.nominals.find? name <;> rfl

theorem symbolNamed_run (name : Name) :
    symbolNamed name s = internNode (.symbol name) .none s := by
  simp only [symbolNamed, internNode, entered?, Catalog.internWith, bind, EStateM.bind, get,
    getThe, MonadStateOf.get, EStateM.get]
  cases s.symbols.find? name <;> rfl

theorem varNamed_run (name : Name) :
    varNamed name s = internNode (.var name) .var s := by
  simp only [varNamed, internNode, entered?, Catalog.internWith, bind, EStateM.bind, get,
    getThe, MonadStateOf.get, EStateM.get]
  cases s.vars.find? name <;> rfl

theorem formGeneric_run (base : Handle) (params : List Handle) {traits : Traits}
    (htraits : s.traitsOfAll params = .ok traits) :
    formGeneric base params s = internNode (.generic base params) traits s := by
  rw [formGeneric, bind_run (ask_run htraits)]
  simp only [internNode, entered?, Catalog.internWith, bind, EStateM.bind, get, getThe,
    MonadStateOf.get, EStateM.get]
  cases s.generics.find? (base, params) <;> rfl

theorem formAnnotated_run (label : Name) (inner : Handle) {traits : Traits}
    (htraits : s.traitsOfAll [inner] = .ok traits) :
    formAnnotated label inner s = internNode (.annotated label inner) traits s := by
  rw [formAnnotated, bind_run (ask_run htraits)]
  simp only [internNode, entered?, Catalog.internWith, bind, EStateM.bind, get, getThe,
    MonadStateOf.get, EStateM.get]
  cases s.annotations.find? (label, inner) <;> rfl

end Equations

private theorem traitsOf_of_parts {traits : Traits} (hown : node.ownTraits = .none)
    (htraits : s.traitsOfAll node.parts = .ok traits) : s.traitsOf node = .ok traits :=
  traitsOf_eq_ok_iff.mpr ⟨traits, htraits, by rw [hown, Traits.merge_none]⟩

section Named

variable {name : Name} (hs : s.WellFormed) (hname : ∃ text, s.names.text? name = some text)
include hs hname

theorem nominalNamed_returns : Returns (nominalNamed name) s (Formed s (.nominal name)) := by
  rw [Returns, nominalNamed_run]
  exact internNode_returns hs rfl (by simp [Node.refs]) (by rintro _ ⟨⟩; exact hname) (by simp)
    (traitsOf_leaf s rfl)

theorem symbolNamed_returns : Returns (symbolNamed name) s (Formed s (.symbol name)) := by
  rw [Returns, symbolNamed_run]
  exact internNode_returns hs rfl (by simp [Node.refs]) (by rintro _ ⟨⟩; exact hname) (by simp)
    (traitsOf_leaf s rfl)

theorem varNamed_returns : Returns (varNamed name) s (Formed s (.var name)) := by
  rw [Returns, varNamed_run]
  exact internNode_returns hs rfl (by simp [Node.refs]) (by rintro _ ⟨⟩; exact hname) (by simp)
    (traitsOf_leaf s rfl)

theorem formAnnotated_returns {inner : Handle} (hinner : s.contains inner) :
    Returns (formAnnotated name inner) s (Formed s (.annotated name inner)) := by
  have hvalid : ∀ p ∈ [inner], s.contains p := by simpa using hinner
  obtain ⟨traits, htraits⟩ := traitsOfAll_answered hvalid
  rw [Returns, formAnnotated_run s name inner htraits]
  exact internNode_returns hs rfl hvalid (by rintro _ ⟨⟩; exact hname) (by simp)
    (traitsOf_of_parts rfl htraits)

end Named

theorem formGeneric_returns {base : Handle} {params : List Handle} (hs : s.WellFormed)
    (hbase : ∃ name, s.node base = .ok (.nominal name)) (hparams : ∀ p ∈ params, s.contains p) :
    Returns (formGeneric base params) s (Formed s (.generic base params)) := by
  obtain ⟨traits, htraits⟩ := traitsOfAll_answered hparams
  have hcontains : s.contains base := by
    obtain ⟨name, hname⟩ := hbase
    obtain ⟨_, hslot⟩ := exists_slot_of_node hname
    exact contains_of_slot hslot
  rw [Returns, formGeneric_run s base params htraits]
  refine internNode_returns hs rfl (List.forall_mem_cons.mpr ⟨hcontains, hparams⟩)
    (by simp [Node.name?]) ?_ (traitsOf_of_parts rfl htraits)
  rintro _ _ ⟨⟩
  exact hbase

theorem formArray_returns {element : Handle} (hs : s.WellFormed) (helement : s.contains element) :
    Returns (formArray element) s (Formed s (.generic .arrayClass [element])) := by
  have hclass := hs.linked.builtin .arrayClass (by decide)
  refine formGeneric_returns hs ⟨CoreClass.array.name, ?_⟩ (by simpa using helement)
  rw [Store.node, hclass]
  rfl

end Keyed

section Tuples

private theorem addTuple_run (s : Store) (params : List Handle) (digest : UInt64)
    (traits : Traits) : addTuple params digest traits s =
      .ok ⟨s.size⟩ (s.allocate (.tuple params digest s.states.size) traits 0) := rfl

/-- A tuple is always new. -/
theorem formTuple_returns {params : List Handle} (hs : s.WellFormed)
    (hparams : ∀ p ∈ params, s.contains p) :
    Returns (formTuple params) s fun h t =>
      h = ⟨s.size⟩ ∧ ∃ digest, Formed s (.tuple params digest s.states.size) h t := by
  obtain ⟨digests, hdigests⟩ :=
    Lifting.mapM_answered fun p hp => digest_answered hs.linked (hparams p hp)
  obtain ⟨traits, htraits⟩ := traitsOfAll_answered hparams
  have hdigest : (do return Digest.ofTuple s.hash (← params.mapM s.digest)) =
      (.ok (Digest.ofTuple s.hash digests) : Except Error UInt64) := by
    rw [hdigests]
    rfl
  have hadmits : s.Admits (.tuple params (Digest.ofTuple s.hash digests) s.states.size)
      (traits.merge .tuple) 0 := by
    refine ⟨hparams, by simp [Node.name?], ?_, by simp, by simp, ?_, rfl, ?_⟩
    · exact traitsOf_eq_ok_iff.mpr ⟨traits, htraits, rfl⟩
    · rintro _ _ _ ⟨⟩
      exact ⟨rfl, digests, hdigests, rfl⟩
    · rintro (_ | _) members ⟨⟩
  exact .ask_bind hdigest (.ask_bind htraits ⟨_, _, addTuple_run .., rfl, _, .made hadmits⟩)

/-- A new tuple is not promoted. -/
theorem Formed.shape_tuple {params : List Handle} {digest : UInt64} (hs : s.Linked)
    (hformed : Formed s (.tuple params digest s.states.size) h t) :
    t.shape h = .ok (.tuple params) := by
  obtain ⟨traits, hslot⟩ := hformed.slot
  refine shape_eq_ok_iff.mpr ⟨_, hslot, ?_⟩
  rcases hformed.grown with rfl | ⟨_, _, -, rfl⟩
  · exact absurd (hs.entry_lt hslot) (Nat.lt_irrefl _)
  · simp [Node.shape?, states_allocate, Node.entry?, TupleState.unbounded]

end Tuples

section Sets

variable {kind : SetKind}

/-- What the formation of a set of types returns: the type of every value, which absorbs a union,
nil, one of the parts, or a set whose members are equal to parts. -/
inductive FormedSet (s : Store) (kind : SetKind) (parts : List Handle) : Handle → Store → Prop where
  | top (hkind : kind = .union) : FormedSet s kind parts .top s
  | nil : FormedSet s kind parts .nil s
  | part {h : Handle} (hpart : h ∈ parts) : FormedSet s kind parts h s
  | set {h : Handle} {t : Store} {members : List Handle}
      (hformed : Formed s (kind.node members) h t)
      (hequal : ∀ x ∈ members, ∃ y ∈ parts, t.equal x y = .ok true) : FormedSet s kind parts h t

namespace FormedSet

variable {parts : List Handle}

theorem grows (hset : FormedSet s kind parts h t) : s.Grows t := by
  cases hset with
  | set hformed _ => exact hformed.grows
  | _ => exact .refl s

theorem states_eq (hset : FormedSet s kind parts h t) : t.states = s.states := by
  cases hset with
  | set hformed _ => exact hformed.states_eq (by cases kind <;> rfl)
  | _ => rfl

theorem size_le (hset : FormedSet s kind parts h t) : t.size ≤ s.size + 1 := by
  cases hset with
  | set hformed _ => exact hformed.size_le
  | _ => exact Nat.le_succ _

theorem contains (hset : FormedSet s kind parts h t) (hs : s.Linked)
    (hparts : ∀ p ∈ parts, s.contains p) : t.contains h := by
  cases hset with
  | top _ => exact hs.contains_top
  | nil => exact hs.contains_nil
  | part hpart => exact hparts h hpart
  | set hformed _ => exact hformed.contains

end FormedSet

/-- A set that is not in the catalog of its kind is made. -/
private theorem Admits.of_newSet {members : List Handle} {traits : Traits} {digest : UInt64}
    (hs : s.WellFormed) (hnew : s.IsNewSet kind members digest)
    (htraits : s.traitsOfAll members = .ok traits) :
    s.Admits (kind.node members) traits digest := by
  have hmembers := (hnew.members_spec hs.linked hs.named hs.acyclic).1
  have hgathered : ∀ kind' members', kind.node members = SetKind.node kind' members' →
      s.IsNewSet kind' members' digest := by
    intro kind' members' heq
    cases kind <;> cases kind' <;> cases heq <;> exact hnew
  cases kind <;>
    exact ⟨hmembers, by simp [SetKind.node, Node.name?], traitsOf_of_parts rfl htraits,
      by simp [SetKind.node], by simp [SetKind.node], by simp [SetKind.node], rfl, hgathered⟩

/-- Adding a set and entering it in its catalog is one step of growth. -/
private theorem enterSet_run (s : Store) (kind : SetKind) (members : List Handle) (traits : Traits)
    (digest : UInt64) :
    (do let h ← add (kind.node members) traits
        modify fun s => s.enterSet kind digest h
        return h : StoreM Handle) s =
      .ok ⟨s.size⟩ (s.allocate (kind.node members) traits digest) := by
  cases kind <;> rfl

def setDigest (s : Store) (kind : SetKind) (members : List Handle) : Except Error UInt64 := do
  return kind.digest (← members.mapM s.digest)

def findSet (s : Store) (kind : SetKind) (members : List Handle) :
    Except Error (Option Handle) := do
  (s.sets kind).findM? (← s.setDigest kind members) fun h => do
    s.equalSets (← s.node h).members members

section Search

variable {members : List Handle}

theorem setDigest_answered (kind : SetKind) (hs : s.Linked)
    (hmembers : ∀ x ∈ members, s.contains x) :
    ∃ digests, members.mapM s.digest = .ok digests ∧
      s.setDigest kind members = .ok (kind.digest digests) := by
  obtain ⟨digests, hdigests⟩ :=
    Lifting.mapM_answered fun x hx => digest_answered hs (hmembers x hx)
  exact ⟨digests, hdigests, by rw [setDigest, hdigests]; rfl⟩

theorem findSet_of_digest {digest : UInt64} (hdigest : s.setDigest kind members = .ok digest) :
    s.findSet kind members = ((s.sets kind).bucket digest).findM?
      (fun h => do s.equalSets (← s.node h).members members) := by
  rw [findSet, hdigest]
  rfl

/-- What stands in the catalog of a kind under some digest is a set of that kind. -/
private theorem Gathered.slot_of_bucket (hgathered : s.Gathered) {digest : UInt64}
    (hh : h ∈ (s.sets kind).bucket digest) :
    ∃ others traits, s.slot? h = some ⟨kind.node others, traits⟩ :=
  hgathered.slot_of_entry (SetCatalog.mem_bucket.mp hh)

variable (kind) (hs : s.WellFormed) (hmembers : ∀ x ∈ members, s.contains x)
include hs hmembers

/-- The catalog of a kind can be searched for a set of given members. -/
theorem findSet_answered : ∃ found, s.findSet kind members = .ok found := by
  obtain ⟨digests, -, hdigest⟩ := setDigest_answered kind hs.linked hmembers
  rw [findSet_of_digest hdigest]
  apply Lifting.findM?_answered
  intro h hh
  obtain ⟨others, traits, hslot⟩ := hs.gathered.slot_of_bucket hh
  exact (equalMembers_decides hs.linked hs.acyclic hmembers hslot).answered

/-- A set that is found is returned, and one that is not found is made. -/
theorem internSet_run :
    (∃ h, s.findSet kind members = .ok (some h) ∧ internSet kind members s = .ok h s) ∨
      ∃ digest traits, s.findSet kind members = .ok none ∧
        s.setDigest kind members = .ok digest ∧ s.traitsOfAll members = .ok traits ∧
        internSet kind members s =
          .ok ⟨s.size⟩ (s.allocate (kind.node members) traits digest) := by
  obtain ⟨digests, -, hdigest⟩ := setDigest_answered kind hs.linked hmembers
  obtain ⟨found, hfound⟩ := findSet_answered kind hs hmembers
  have hsearch := (findSet_of_digest hdigest).symm.trans hfound
  rw [internSet, bind_run (ask_run hdigest), bind_run (ask_run hsearch)]
  cases found with
  | some h => exact .inl ⟨h, hfound, rfl⟩
  | none =>
    obtain ⟨traits, htraits⟩ := traitsOfAll_answered hmembers
    refine .inr ⟨_, traits, hfound, hdigest, htraits, ?_⟩
    exact (bind_run (ask_run htraits)).trans (enterSet_run ..)

variable {kind}

/-- What a search of the catalog finds is a set whose members are equal to the given ones. -/
theorem findSet_some (hfound : s.findSet kind members = .ok (some h)) :
    ∃ others traits, s.slot? h = some ⟨kind.node others, traits⟩ ∧
      ∀ x ∈ others, ∃ y ∈ members, s.equal x y = .ok true := by
  obtain ⟨digests, -, hdigest⟩ := setDigest_answered kind hs.linked hmembers
  rw [findSet_of_digest hdigest] at hfound
  obtain ⟨hh, hsame⟩ := Lifting.findM?_some hfound
  obtain ⟨others, traits, hslot⟩ := hs.gathered.slot_of_bucket hh
  have hcover := (equalMembers_decides hs.linked hs.acyclic hmembers hslot).eq_true_iff.mp hsame
  exact ⟨others, traits, hslot, hcover.1⟩

end Search

theorem internSet_returns {members types : List Handle} {parts : List (List Handle)}
    (hs : s.WellFormed) (htop : kind = .union → types.anyM s.isTop = .ok false)
    (htypes : ∀ p ∈ types, s.contains p) (hparts : types.mapM (s.setPart kind) = .ok parts)
    (harranged : s.arrange parts.flatten = .ok members) (htwo : 2 ≤ members.length) :
    Returns (internSet kind members) s fun h t => ∃ others, Formed s (kind.node others) h t ∧
      ∀ x ∈ others, ∃ y ∈ members, t.equal x y = .ok true := by
  have hflat := contains_of_setPart hs.linked htypes hparts
  have hsub := (Arranged.of_arrange hs.linked hs.named hs.acyclic hflat harranged).subset
  have hmembers : ∀ x ∈ members, s.contains x := fun x hx => hflat x (hsub hx)
  rcases internSet_run kind hs hmembers with
    ⟨h, hfound, hrun⟩ | ⟨digest, traits, hnone, hdigest, htraits, hrun⟩
  · obtain ⟨others, traits, hslot, hequal⟩ := findSet_some hs hmembers hfound
    exact ⟨h, s, hrun, others, ⟨⟨traits, hslot⟩, .inl rfl⟩, hequal⟩
  · have hnew : s.IsNewSet kind members digest := by
      refine ⟨⟨types, parts, htop, htypes, hparts, harranged⟩, htwo, ?_, ?_⟩
      · obtain ⟨digests, hdigests, hword⟩ := setDigest_answered kind hs.linked hmembers
        rw [hdigest] at hword
        cases hword
        exact ⟨digests, hdigests, rfl⟩
      · exact (findSet_of_digest hdigest).symm.trans hnone
    have hformed := Formed.made (Admits.of_newSet hs hnew htraits)
    exact ⟨_, _, hrun, members, hformed, fun x hx => ⟨x, hx, equal_self _ x⟩⟩

theorem setPart_answered (kind : SetKind) (hh : s.contains h) :
    ∃ part, s.setPart kind h = .ok part := by
  obtain ⟨⟨node, traits⟩, hslot⟩ := exists_slot hh
  rw [setPart, node_of_slot hslot]
  cases kind <;> cases node <;> exact ⟨_, rfl⟩

private theorem setParts_answered (kind : SetKind) {types : List Handle}
    (htypes : ∀ p ∈ types, s.contains p) : ∃ parts, types.mapM (s.setPart kind) = .ok parts :=
  Lifting.mapM_answered fun p hp => setPart_answered kind (htypes p hp)

private theorem formSet_returns {types : List Handle} (hs : s.WellFormed)
    (htop : kind = .union → types.anyM s.isTop = .ok false) (htypes : ∀ p ∈ types, s.contains p) :
    Returns (formSet kind types) s fun h t => ∃ parts, types.mapM (s.setPart kind) = .ok parts ∧
      FormedSet s kind parts.flatten h t := by
  obtain ⟨parts, hparts⟩ := setParts_answered kind htypes
  have hflat := contains_of_setPart hs.linked htypes hparts
  obtain ⟨members, harranged, hspec⟩ := exists_arranged hs.linked hs.named hs.acyclic hflat
  have hsub := hspec.subset
  refine .ask_bind hparts (.ask_bind harranged ?_)
  match members, harranged, hsub with
  | [], _, _ => exact .pure ⟨parts, hparts, .nil⟩
  | [only], _, hsub => exact .pure ⟨parts, hparts, .part (hsub List.mem_cons_self)⟩
  | x :: y :: rest, harranged, hsub =>
    refine (internSet_returns hs htop htypes hparts harranged (by simp)).mono ?_
    rintro h t ⟨others, hformed, hequal⟩
    refine ⟨parts, hparts, .set hformed fun z hz => ?_⟩
    obtain ⟨m, hm, hzm⟩ := hequal z hz
    exact ⟨m, hsub hm, hzm⟩

theorem formUnion_returns {types : List Handle} (hs : s.WellFormed)
    (htypes : ∀ p ∈ types, s.contains p) :
    Returns (formUnion types) s fun h t => ∃ parts,
      types.mapM (s.setPart .union) = .ok parts ∧ FormedSet s .union parts.flatten h t := by
  obtain ⟨answer, hanswer⟩ := (anyTop_decides htypes).answered
  refine .ask_bind hanswer ?_
  cases answer with
  | true =>
    obtain ⟨parts, hparts⟩ := setParts_answered .union htypes
    exact .pure ⟨parts, hparts, .top rfl⟩
  | false => exact formSet_returns hs (fun _ => hanswer) htypes

theorem formIntersection_returns {types : List Handle} (hs : s.WellFormed)
    (htypes : ∀ p ∈ types, s.contains p) :
    Returns (formIntersection types) s fun h t => ∃ parts,
      types.mapM (s.setPart .intersection) = .ok parts ∧
        FormedSet s .intersection parts.flatten h t :=
  formSet_returns hs (by simp) htypes

end Sets

end Store

end GradualTypes
