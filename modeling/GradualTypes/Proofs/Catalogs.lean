import GradualTypes.Proofs.Arrangement

/-!
What the catalogs know. Every type but a tuple stands in the catalog of its kind. A keyed catalog
holds it under its own description, and the catalogs of unions and intersections hold it under its
digest, which never changes. So no description and no set of members has two handles.
-/

namespace GradualTypes

/-- A keyed node is catalogued by its own description. -/
def Node.isKeyed : Node → Bool
  | nominal _ | symbol _ | var _ | generic _ _ | annotated _ _ => true
  | _ => false

namespace Traits

/-- A test that merged traits pass exactly if all of them pass it, and that looks only at what
components pass on. -/
structure IsPassedOn (clear : Traits → Bool) : Prop where
  none : clear .none
  merge : ∀ x y, clear (x.merge y) = (clear x && clear y)
  passedOn : ∀ x, clear x.passedOn = clear x

theorem IsPassedOn.mergeAll {clear : Traits → Bool} (hclear : IsPassedOn clear)
    (parts : List Traits) : clear (mergeAll parts) = parts.all clear := by
  have hfold : ∀ start : Traits,
      clear (parts.foldl (fun sum part => sum.merge part.passedOn) start) =
        (clear start && parts.all clear) := by
    induction parts with
    | nil => simp
    | cons part rest ih =>
      intro start
      rw [List.foldl_cons, ih, hclear.merge, hclear.passedOn, List.all_cons, Bool.and_assoc]
  rw [Traits.mergeAll, hfold, hclear.none, Bool.true_and]

theorem isPassedOn_var : IsPassedOn (!·.hasVar) :=
  ⟨rfl, fun x y => by simp, fun x => by simp⟩

theorem isPassedOn_inert : IsPassedOn isInert where
  none := rfl
  merge x y := by
    simp only [isInert_eq, hasVar_merge, hasTuple_merge, Bool.not_or]
    ac_rfl
  passedOn x := by simp [isInert_eq]

theorem isPassedOn_tuple : IsPassedOn (!·.hasTuple) :=
  ⟨rfl, fun x y => by simp, fun x => by simp⟩

end Traits

/-- A node that can stand among the members of a set of a kind: neither nil nor such a set. -/
def Node.IsMember (kind : SetKind) (node : Node) : Prop :=
  node ≠ .nil ∧ ∀ members, node ≠ kind.node members

private theorem digestNode_congr {hash : WordHash} {f g : Handle → Except Error UInt64}
    {node : Node}
    (h : ∀ x ∈ node.refs, f x = g x) : digestNode hash f node = digestNode hash g node := by
  cases node with
  | generic base params =>
    have hbase := h base List.mem_cons_self
    have hparams : params.mapM f = params.mapM g :=
      Lifting.mapM_congr fun x hx => h x (List.mem_cons_of_mem base hx)
    simp only [digestNode, hbase, hparams]
  | union members =>
    have hmembers : members.mapM f = members.mapM g := Lifting.mapM_congr h
    simp only [digestNode, hmembers]
  | intersection members =>
    have hmembers : members.mapM f = members.mapM g := Lifting.mapM_congr h
    simp only [digestNode, hmembers]
  | annotated label inner => simp only [digestNode, h inner List.mem_cons_self]
  | _ => rfl

private theorem digestNode_answered {hash : WordHash} {f : Handle → Except Error UInt64}
    {node : Node} (h : ∀ x ∈ node.refs, ∃ word, f x = .ok word) :
    ∃ word, digestNode hash f node = .ok word := by
  cases node with
  | generic base params =>
    obtain ⟨head, hhead⟩ := h base List.mem_cons_self
    obtain ⟨parts, hparts⟩ := Lifting.mapM_answered fun x hx => h x (List.mem_cons_of_mem base hx)
    exact ⟨_, by rw [digestNode, hhead, hparts]; rfl⟩
  | union members =>
    have hparts : ∃ parts, members.mapM f = .ok parts := Lifting.mapM_answered h
    obtain ⟨parts, hparts⟩ := hparts
    exact ⟨_, by rw [digestNode, hparts]; rfl⟩
  | intersection members =>
    have hparts : ∃ parts, members.mapM f = .ok parts := Lifting.mapM_answered h
    obtain ⟨parts, hparts⟩ := hparts
    exact ⟨_, by rw [digestNode, hparts]; rfl⟩
  | annotated label inner =>
    obtain ⟨word, hword⟩ := h inner List.mem_cons_self
    exact ⟨_, by rw [digestNode, hword]; rfl⟩
  | _ => exact ⟨_, rfl⟩

/-- The digest of a set does not depend on the order of its members. -/
theorem SetKind.digest_perm (kind : SetKind) {parts parts' : List UInt64} (h : parts.Perm parts') :
    kind.digest parts = kind.digest parts' := by
  have hcomm : RightCommutative fun x y : UInt64 => x + y :=
    ⟨fun x y z => by rw [UInt64.add_assoc, UInt64.add_comm y, UInt64.add_assoc]⟩
  have hsum : parts.foldl (· + ·) 0 = parts'.foldl (· + ·) 0 := h.foldl_eq 0
  cases kind <;> simp only [digest, Digest.ofUnion, Digest.ofIntersection, hsum]

theorem SetCatalog.mem_bucket {catalog : SetCatalog} {digest : UInt64} {h : Handle} :
    h ∈ catalog.bucket digest ↔ (digest, h) ∈ catalog.entries := by
  simp [bucket]

namespace Store

section Digests

variable {s t : Store} {h : Handle}

theorem digestWithin_succ (s : Store) (depth : Nat) (h : Handle) :
    s.digestWithin (depth + 1) h = (do digestNode s.hash (s.digestWithin depth) (← s.node h)) :=
  rfl

/-- The digest of a type is the same in every larger store, by any walk that is deep enough. -/
theorem digestWithin_eq (hst : s.Retains t) (hs : s.Linked) (m n : Nat) (hh : s.contains h)
    (hm : h.index < m) (hn : h.index < n) : t.digestWithin n h = s.digestWithin m h := by
  induction m generalizing n h with
  | zero => omega
  | succ m ih =>
    obtain ⟨n, rfl⟩ := Nat.exists_eq_succ_of_ne_zero (Nat.ne_zero_of_lt hn)
    obtain ⟨slot, hslot⟩ := exists_slot hh
    rw [digestWithin_succ, digestWithin_succ, node_of_slot hslot, node_of_slot (hst.slots hslot),
      hst.hash]
    apply digestNode_congr
    intro x hx
    have hlt := hs.refs_lt hslot x hx
    exact ih n (hs.contains_of_refs hslot hx) (by omega) (by omega)

theorem digest_eq (hst : s.Retains t) (hs : s.Linked) (hh : s.contains h) :
    t.digest h = s.digest h := by
  have hlt := contains_iff.mp hh
  have hle := hst.size_le
  exact digestWithin_eq hst hs _ _ hh (by omega) (by omega)

/-- One step of the digest: it is made from the digests of what the type refers to. -/
theorem digest_step {slot : Slot} (hs : s.Linked) (hslot : s.slot? h = some slot) :
    s.digest h = digestNode s.hash s.digest slot.node := by
  have hh := contains_of_slot hslot
  have hlt := contains_iff.mp hh
  have hdeeper : s.digest h = s.digestWithin (s.size + 1 + 1) h :=
    digestWithin_eq (.refl s) hs _ _ hh (by omega) (by omega)
  rw [hdeeper, digestWithin_succ, node_of_slot hslot]
  rfl

private theorem digestWithin_answered (hs : s.Linked) (depth : Nat) (hh : s.contains h)
    (hdepth : h.index < depth) : ∃ word, s.digestWithin depth h = .ok word := by
  induction depth generalizing h with
  | zero => omega
  | succ depth ih =>
    obtain ⟨slot, hslot⟩ := exists_slot hh
    rw [digestWithin_succ, node_of_slot hslot]
    apply digestNode_answered
    intro x hx
    have hlt := hs.refs_lt hslot x hx
    exact ih (hs.contains_of_refs hslot hx) (by omega)

/-- Every type of the store has a digest. -/
theorem digest_answered (hs : s.Linked) (hh : s.contains h) : ∃ word, s.digest h = .ok word := by
  have hlt := contains_iff.mp hh
  exact digestWithin_answered hs _ hh (by omega)

/-- Lists of the same handles in another order have the same digests in another order. -/
theorem digests_perm {members members' : List Handle} {digests digests' : List UInt64}
    (hperm : members.Perm members') (h : members.mapM s.digest = .ok digests)
    (h' : members'.mapM s.digest = .ok digests') : digests.Perm digests' := by
  have hmap : ∀ {hs : List Handle} {ds : List UInt64}, hs.mapM s.digest = .ok ds →
      ds = hs.map fun x => ((s.digest x).toOption).getD 0 := by
    intro hs ds hds
    have hall := Lifting.mapM_eq_ok_iff.mp hds
    clear hds
    induction hall with
    | nil => rfl
    | cons hhead _ ih =>
      rw [List.map_cons, hhead, ih]
      rfl
  rw [hmap h, hmap h']
  exact hperm.map _

end Digests

section Flags

variable {s t : Store}

/-- The traits of every type are those of its components, with what the type adds itself. -/
def Flagged (s : Store) : Prop :=
  ∀ ⦃h slot⦄, s.slot? h = some slot → s.traitsOf slot.node = .ok slot.traits

theorem traitsOfAll_eq_ok_iff {types : List Handle} {traits : Traits} :
    s.traitsOfAll types = .ok traits ↔
      ∃ parts, types.mapM s.traits = .ok parts ∧ traits = Traits.mergeAll parts := by
  rw [traitsOfAll, bind_eq_ok_iff]
  constructor
  · rintro ⟨parts, hparts, h⟩
    cases h
    exact ⟨parts, hparts, rfl⟩
  · rintro ⟨parts, hparts, rfl⟩
    exact ⟨parts, hparts, rfl⟩

theorem traitsOfAll_answered {types : List Handle} (h : ∀ x ∈ types, s.contains x) :
    ∃ traits, s.traitsOfAll types = .ok traits := by
  have hanswer : ∀ x ∈ types, ∃ traits, s.traits x = .ok traits := by
    intro x hx
    obtain ⟨slot, hslot⟩ := exists_slot (h x hx)
    exact ⟨slot.traits, traits_of_slot hslot⟩
  obtain ⟨parts, hparts⟩ := Lifting.mapM_answered hanswer
  exact ⟨_, by rw [traitsOfAll, hparts]; rfl⟩

theorem traitsOf_eq_ok_iff {node : Node} {traits : Traits} :
    s.traitsOf node = .ok traits ↔
      ∃ part, s.traitsOfAll node.parts = .ok part ∧ traits = part.merge node.ownTraits := by
  rw [traitsOf, bind_eq_ok_iff]
  constructor
  · rintro ⟨part, hpart, h⟩
    cases h
    exact ⟨part, hpart, rfl⟩
  · rintro ⟨part, hpart, rfl⟩
    exact ⟨part, hpart, rfl⟩

theorem traitsOf_leaf (s : Store) {node : Node} (hparts : node.parts = []) :
    s.traitsOf node = .ok node.ownTraits := by
  refine traitsOf_eq_ok_iff.mpr ⟨.none, ?_, (Traits.none_merge _).symm⟩
  rw [hparts]
  rfl

private theorem Retains.traitsOf_eq (hst : s.Retains t) {node : Node} {traits : Traits}
    (h : s.traitsOf node = .ok traits) : t.traitsOf node = .ok traits := by
  obtain ⟨part, hpart, rfl⟩ := traitsOf_eq_ok_iff.mp h
  obtain ⟨parts, hparts, rfl⟩ := traitsOfAll_eq_ok_iff.mp hpart
  refine traitsOf_eq_ok_iff.mpr ⟨_, traitsOfAll_eq_ok_iff.mpr ⟨parts, ?_, rfl⟩, rfl⟩
  rw [← hparts]
  apply Lifting.mapM_congr
  intro x hx
  obtain ⟨part, -, hpart⟩ := Lifting.answer_mem_mapM hparts hx
  rw [hpart, hst.traits_eq hpart]

theorem Flagged.allocate {node : Node} {traits : Traits} {digest : UInt64} (hs : s.Flagged)
    (ha : s.Admits node traits digest) : (s.allocate node traits digest).Flagged := by
  intro h slot hslot
  have hext := Extends.allocate s node traits digest
  rcases slot_of_slot_allocate hslot with hold | ⟨-, rfl⟩
  · exact hext.traitsOf_eq (hs hold)
  · exact hext.traitsOf_eq ha.traits_eq

/-- What is passed on holds of a type exactly if it holds of what the type adds itself and of its
components. -/
theorem Flagged.clear_iff (hs : s.Flagged) {clear : Traits → Bool}
    (hclear : Traits.IsPassedOn clear) {h : Handle} {slot : Slot} (hslot : s.slot? h = some slot) :
    clear slot.traits ↔ clear slot.node.ownTraits ∧
      ∀ x ∈ slot.node.parts, ∃ traits, s.traits x = .ok traits ∧ clear traits := by
  obtain ⟨part, hpart, htraits⟩ := traitsOf_eq_ok_iff.mp (hs hslot)
  obtain ⟨parts, hparts, rfl⟩ := traitsOfAll_eq_ok_iff.mp hpart
  rw [htraits, hclear.merge, hclear.mergeAll, Bool.and_eq_true, List.all_eq_true, and_comm]
  refine and_congr_right fun _ => ⟨fun hall x hx => ?_, fun hall part hmem => ?_⟩
  · obtain ⟨part, hmem, hx⟩ := Lifting.answer_mem_mapM hparts hx
    exact ⟨part, hx, hall part hmem⟩
  · obtain ⟨x, hx, hpart⟩ := Lifting.exists_of_mem_mapM hparts hmem
    obtain ⟨traits, htraits', hclear⟩ := hall x hx
    rw [hpart] at htraits'
    cases htraits'
    exact hclear

/-- No tuple occurs in a type exactly if it is none and none occurs in its components. -/
theorem Flagged.isTupleFree_iff (hs : s.Flagged) {h : Handle} {slot : Slot}
    (hslot : s.slot? h = some slot) :
    s.IsTupleFree h ↔
      slot.node.ownTraits.hasTuple = false ∧ ∀ x ∈ slot.node.parts, s.IsTupleFree x := by
  have hclear := hs.clear_iff Traits.isPassedOn_tuple hslot
  have htraits : s.IsTupleFree h ↔ slot.traits.hasTuple = false := by
    rw [IsTupleFree, traits_of_slot hslot]
    simp
  rw [htraits]
  simpa only [IsTupleFree, Bool.not_eq_true'] using hclear

end Flags

section Keyed

variable {s : Store}

/-- The keyed catalogs hold exactly the types of their kinds, each under its own description. -/
structure Catalogued (s : Store) : Prop where
  entered : ∀ {h node traits}, s.slot? h = some ⟨node, traits⟩ → node.isKeyed →
    s.entered? node = some h
  slot_of_entered : ∀ {h node}, s.entered? node = some h → ∃ traits, s.slot? h = some ⟨node, traits⟩

private theorem entered?_allocate (s : Store) (node : Node) (traits : Traits) (digest : UInt64)
    (other : Node) : (s.allocate node traits digest).entered? other =
      if node = other ∧ node.isKeyed then some ⟨s.size⟩ else s.entered? other := by
  cases node <;> cases other <;>
    simp [Store.allocate, entered?, Node.isKeyed, enterSet, Catalog.find?, Catalog.insert,
      List.find?_cons] <;>
    split <;> simp_all

theorem Catalogued.allocate {node : Node} {traits : Traits} {digest : UInt64}
    (hs : s.Catalogued) (ha : s.Admits node traits digest) :
    (s.allocate node traits digest).Catalogued where
  entered {h other traits'} hslot hkeyed := by
    rw [entered?_allocate]
    rcases slot_of_slot_allocate hslot with hold | ⟨rfl, hnew⟩
    · have hentered := hs.entered hold hkeyed
      have hne : node ≠ other := by
        rintro rfl
        rw [ha.keyed] at hentered
        cases hentered
      rw [if_neg fun h => hne h.1, hentered]
    · cases hnew
      rw [if_pos ⟨rfl, hkeyed⟩]
  slot_of_entered {h other} hentered := by
    rw [entered?_allocate] at hentered
    split at hentered
    next heq =>
      cases hentered
      rw [← heq.1]
      exact ⟨traits, slot?_allocate_new⟩
    next =>
      obtain ⟨traits', hslot⟩ := hs.slot_of_entered hentered
      exact ⟨traits', slot?_allocate_of_slot hslot⟩

/-- A description has one handle. -/
theorem Catalogued.unique (hs : s.Catalogued) {h h' : Handle} {node : Node}
    {traits traits' : Traits}
    (hkeyed : node.isKeyed) (hslot : s.slot? h = some ⟨node, traits⟩)
    (hslot' : s.slot? h' = some ⟨node, traits'⟩) : h = h' := by
  have hentered := hs.entered hslot hkeyed
  rw [hs.entered hslot' hkeyed] at hentered
  exact (Option.some.inj hentered).symm

end Keyed

section Sets

variable {s : Store} {kind : SetKind} {members : List Handle} {digest : UInt64}

/-- The catalogs of unions and intersections hold exactly the types of their kind, each under its
digest, and no two types of one kind have the same members. -/
structure Gathered (s : Store) : Prop where
  entry : ∀ {h kind members traits}, s.slot? h = some ⟨SetKind.node kind members, traits⟩ →
    2 ≤ members.length ∧ members.Nodup ∧ ∃ digests, members.mapM s.digest = .ok digests ∧
      (kind.digest digests, h) ∈ (s.sets kind).entries
  slot_of_entry : ∀ {kind digest h}, (digest, h) ∈ (s.sets kind).entries →
    ∃ members traits, s.slot? h = some ⟨SetKind.node kind members, traits⟩
  unique : ∀ {h h' kind members members' traits traits'},
    s.slot? h = some ⟨SetKind.node kind members, traits⟩ →
    s.slot? h' = some ⟨SetKind.node kind members', traits'⟩ →
    (∀ x, x ∈ members ↔ x ∈ members') → h = h'

private theorem SetKind.members_node (kind : SetKind) (members : List Handle) :
    (kind.node members).members = members := by
  cases kind <;> rfl

theorem SetKind.refs_node (kind : SetKind) (members : List Handle) :
    (kind.node members).refs = members := by
  cases kind <;> rfl

/-- The members of a set are types of the store. -/
theorem Linked.contains_of_members (hs : s.Linked) {h : Handle} {traits : Traits}
    (hslot : s.slot? h = some ⟨kind.node members, traits⟩) : ∀ x ∈ members, s.contains x :=
  fun _ hx => hs.contains_of_refs hslot (by rwa [SetKind.refs_node])

private theorem mem_entries_allocate (s : Store) (node : Node) (traits : Traits)
    (digest word : UInt64) (kind : SetKind) (h : Handle) :
    (word, h) ∈ ((s.allocate node traits digest).sets kind).entries ↔
      (word, h) ∈ (s.sets kind).entries ∨
        (∃ members, node = kind.node members) ∧ word = digest ∧ h = ⟨s.size⟩ := by
  cases node <;> cases kind <;>
    simp [Store.allocate, sets, enterSet, SetCatalog.insert, SetKind.node]

/-- What is entered in a catalog of sets goes to its end. -/
theorem entries_allocate (s : Store) (node : Node) (traits : Traits) (digest : UInt64)
    (kind : SetKind) :
    ((s.allocate node traits digest).sets kind).entries = (s.sets kind).entries ∨
      ((s.allocate node traits digest).sets kind).entries =
        (s.sets kind).entries ++ [(digest, ⟨s.size⟩)] := by
  cases node <;> cases kind <;> simp [Store.allocate, sets, enterSet, SetCatalog.insert]

/-- Whether a set of the store has members equal to given types can be told. -/
theorem equalMembers_decides (hs : s.Linked) (hacyclic : s.Acyclic)
    (hmembers : ∀ x ∈ members, s.contains x) {h : Handle} {others : List Handle} {traits : Traits}
    (hslot : s.slot? h = some ⟨kind.node others, traits⟩) :
    Decides (do s.equalSets (← s.node h).members members)
      ((∀ x ∈ others, ∃ y ∈ members, s.equal x y = .ok true) ∧
        ∀ y ∈ members, ∃ x ∈ others, s.equal y x = .ok true) := by
  rw [node_of_slot hslot]
  change Decides (s.equalSets (kind.node others).members members) _
  rw [SetKind.members_node]
  exact equalSets_decides hs hacyclic (hs.contains_of_members hslot) hmembers

/-- A set that is about to be made has other members than the sets of its kind in the store: one
with the same members would be in the same bucket, and would have been found. -/
private theorem IsNewSet.ne_members (hnew : s.IsNewSet kind members digest) (hs : s.Linked)
    (hacyclic : s.Acyclic) (hgathered : s.Gathered) (hmembers : ∀ x ∈ members, s.contains x)
    (hnodup : members.Nodup) {h : Handle} {members' : List Handle} {traits : Traits}
    (hslot : s.slot? h = some ⟨kind.node members', traits⟩) :
    ¬ ∀ x, x ∈ members ↔ x ∈ members' := by
  intro hsame
  obtain ⟨digests, hdigests, rfl⟩ := hnew.digest_eq
  obtain ⟨-, hnodup', digests', hdigests', hentry⟩ := hgathered.entry hslot
  have hperm : members'.Perm members :=
    (List.perm_ext_iff_of_nodup hnodup' hnodup).mpr fun x => (hsame x).symm
  have hword : kind.digest digests' = kind.digest digests :=
    kind.digest_perm (digests_perm hperm hdigests' hdigests)
  have hbucket : h ∈ (s.sets kind).bucket (kind.digest digests) := by
    rw [← hword]
    exact SetCatalog.mem_bucket.mpr hentry
  have hfalse := Lifting.findM?_none hnew.absent h hbucket
  have htrue := (equalMembers_decides hs hacyclic hmembers hslot).eq_true_iff.mpr
    ⟨fun x hx => ⟨x, (hsame x).mpr hx, equal_self s x⟩,
      fun x hx => ⟨x, (hsame x).mp hx, equal_self s x⟩⟩
  rw [hfalse] at htrue
  cases htrue

/-- Nil contributes nothing to a set, a set of the same kind its members, and any other type
itself. -/
theorem setPart_cases {h : Handle} {slot : Slot} {part : List Handle}
    (hslot : s.slot? h = some slot) (hpart : s.setPart kind h = .ok part) :
    slot.node = .nil ∧ part = [] ∨ slot.node = kind.node part ∨
      slot.node.IsMember kind ∧ part = [h] := by
  rw [setPart, node_of_slot hslot] at hpart
  obtain ⟨node, traits⟩ := slot
  cases kind <;> cases node <;> cases hpart <;> simp [SetKind.node, Node.IsMember]

theorem digests_eq {t : Store} (hst : s.Retains t) (hs : s.Linked)
    (hmembers : ∀ x ∈ members, s.contains x) : members.mapM t.digest = members.mapM s.digest :=
  Lifting.mapM_congr fun x hx => digest_eq hst hs (hmembers x hx)

/-- The parts of types are types of the store. -/
theorem contains_of_setPart (hs : s.Linked) {types : List Handle} {parts : List (List Handle)}
    (htypes : ∀ p ∈ types, s.contains p) (hparts : types.mapM (s.setPart kind) = .ok parts) :
    ∀ x ∈ parts.flatten, s.contains x := by
  intro x hx
  obtain ⟨part, hpart, hx⟩ := List.mem_flatten.mp hx
  obtain ⟨p, hp, hof⟩ := Lifting.exists_of_mem_mapM hparts hpart
  obtain ⟨slot, hslot⟩ := exists_slot (htypes p hp)
  rcases setPart_cases hslot hof with ⟨-, rfl⟩ | hnode | ⟨-, rfl⟩
  · simp at hx
  · apply hs.contains_of_refs hslot
    rw [hnode, SetKind.refs_node]
    exact hx
  · rw [List.mem_singleton.mp hx]
    exact htypes p hp

/-- The members of a set that is about to be made are different types of the store. -/
theorem IsNewSet.members_spec (hnew : s.IsNewSet kind members digest) (hs : s.Linked)
    (hnamed : s.Named) (hacyclic : s.Acyclic) :
    (∀ x ∈ members, s.contains x) ∧ members.Nodup := by
  obtain ⟨types, parts, -, htypes, hparts, hrun⟩ := hnew.arranged
  have hvalid := contains_of_setPart hs htypes hparts
  have harranged := Arranged.of_arrange hs hnamed hacyclic hvalid hrun
  exact ⟨fun x hx => hvalid x (harranged.subset hx), nodup_of_unequal harranged.unequal⟩

theorem Gathered.allocate {node : Node} {traits : Traits} (hgathered : s.Gathered) (hs : s.Linked)
    (hnamed : s.Named) (hacyclic : s.Acyclic) (ha : s.Admits node traits digest) :
    (s.allocate node traits digest).Gathered where
  entry {h kind members traits'} hslot := by
    have hext := Extends.allocate s node traits digest
    rcases slot_of_slot_allocate hslot with hold | ⟨rfl, hnew⟩
    · obtain ⟨htwo, hnodup, digests, hdigests, hentry⟩ := hgathered.entry hold
      refine ⟨htwo, hnodup, digests, ?_, (mem_entries_allocate ..).mpr (.inl hentry)⟩
      rw [digests_eq hext.toRetains hs (hs.contains_of_members hold), hdigests]
    · cases hnew
      have hset := ha.gathered kind members rfl
      obtain ⟨hmembers, hnodup⟩ := hset.members_spec hs hnamed hacyclic
      obtain ⟨digests, hdigests, rfl⟩ := hset.digest_eq
      refine ⟨hset.two_le, hnodup, digests, ?_, ?_⟩
      · rw [digests_eq hext.toRetains hs hmembers, hdigests]
      · exact (mem_entries_allocate ..).mpr (.inr ⟨⟨members, rfl⟩, rfl, rfl⟩)
  slot_of_entry {kind word h} hentry := by
    rcases (mem_entries_allocate ..).mp hentry with hold | ⟨⟨members, rfl⟩, -, rfl⟩
    · obtain ⟨members, traits', hslot⟩ := hgathered.slot_of_entry hold
      exact ⟨members, traits', slot?_allocate_of_slot hslot⟩
    · exact ⟨members, traits, slot?_allocate_new⟩
  unique {h h' kind members members' traits₁ traits₂} hslot hslot' hsame := by
    rcases slot_of_slot_allocate hslot with hold | ⟨rfl, hnew⟩
    · rcases slot_of_slot_allocate hslot' with hold' | ⟨rfl, hnew'⟩
      · exact hgathered.unique hold hold' hsame
      · cases hnew'
        have hset := ha.gathered kind members' rfl
        obtain ⟨hmembers, hnodup⟩ := hset.members_spec hs hnamed hacyclic
        exact absurd (fun x => (hsame x).symm)
          (hset.ne_members hs hacyclic hgathered hmembers hnodup hold)
    · rcases slot_of_slot_allocate hslot' with hold' | ⟨rfl, hnew'⟩
      · cases hnew
        have hset := ha.gathered kind members rfl
        obtain ⟨hmembers, hnodup⟩ := hset.members_spec hs hnamed hacyclic
        exact absurd hsame (hset.ne_members hs hacyclic hgathered hmembers hnodup hold')
      · rfl

/-- The catalogs hold the same sets as long as neither slots nor catalogs change. -/
theorem Gathered.retain {t : Store} (hgathered : s.Gathered) (hs : s.Linked)
    (hslots : t.slots = s.slots) (hhash : t.hash = s.hash)
    (hsets : ∀ kind, t.sets kind = s.sets kind) : t.Gathered where
  entry {h kind members traits} hslot := by
    rw [slot?_of_slots hslots] at hslot
    obtain ⟨htwo, hnodup, digests, hdigests, hentry⟩ := hgathered.entry hslot
    refine ⟨htwo, hnodup, digests, ?_, ?_⟩
    · rw [digests_eq (.of_slots hslots hhash) hs (hs.contains_of_members hslot), hdigests]
    · rw [hsets]
      exact hentry
  slot_of_entry {kind word h} hentry := by
    rw [hsets] at hentry
    obtain ⟨members, traits, hslot⟩ := hgathered.slot_of_entry hentry
    exact ⟨members, traits, by rw [slot?_of_slots hslots, hslot]⟩
  unique {h h' kind members members' traits traits'} hslot hslot' hsame := by
    rw [slot?_of_slots hslots] at hslot hslot'
    exact hgathered.unique hslot hslot' hsame

end Sets

end Store

end GradualTypes
