import GradualTypes.Proofs.Collation
import GradualTypes.Proofs.Covering

/-!
How sets of types are found again. A search of a catalog returns the oldest set that has the digest
of the given members and members equal to them, and nothing only if there is none. So the search
depends on the members only through their digest and up to equality, and it finds a set from the
moment the set was made.
-/

namespace GradualTypes.Store

variable {s t : Store} {h : Handle} {kind : SetKind} {members members' : List Handle}

/-- A set of a kind has the digest of given members, and members equal to them. -/
def Fits (s : Store) (kind : SetKind) (members : List Handle) (h : Handle) : Prop :=
  s.digest h = s.setDigest kind members ∧
    ∃ others traits, s.slot? h = some ⟨kind.node others, traits⟩ ∧ s.SameTypes others members

section Digests

theorem digest_of_set {traits : Traits} (hs : s.Linked)
    (hslot : s.slot? h = some ⟨kind.node members, traits⟩) :
    s.digest h = s.setDigest kind members := by
  rw [digest_step hs hslot]
  cases kind <;> rfl

/-- Sets whose members can be matched with members of the same digests have one digest. -/
theorem setDigest_eq (kind : SetKind) {order : List Handle} (hs : s.Linked)
    (hmembers : ∀ x ∈ members, s.contains x) (hmembers' : ∀ x ∈ members', s.contains x)
    (hperm : order.Perm members')
    (halike : List.Forall₂ (fun x y => s.digest x = s.digest y) members order) :
    s.setDigest kind members = s.setDigest kind members' := by
  obtain ⟨digests, hdigests, hword⟩ := setDigest_answered kind hs hmembers
  obtain ⟨digests', hdigests', hword'⟩ := setDigest_answered kind hs hmembers'
  rw [Lifting.mapM_eq_of_forall₂ halike] at hdigests
  rw [hword, hword', kind.digest_perm (digests_perm hperm hdigests hdigests')]

private theorem Grows.setDigest_eq (hst : s.Grows t) (hs : s.WellFormed)
    (hmembers : ∀ x ∈ members, s.contains x) :
    t.setDigest kind members = s.setDigest kind members := by
  rw [setDigest, setDigest, digests_eq hst.toRetains hs.linked hmembers]

end Digests

section Search

private theorem Normal.eq_of_entries (hnormal : s.Normal) {entry entry' : UInt64 × Handle}
    (hentry : entry ∈ (s.sets kind).entries) (hentry' : entry' ∈ (s.sets kind).entries)
    (hsame : entry.2 = entry'.2) : entry = entry' := by
  have hnodup : ((s.sets kind).entries.map Prod.snd).Nodup := by
    apply List.pairwise_map.mpr
    apply (hnormal.ascending kind).imp
    intro first second hlt heq
    rw [heq] at hlt
    exact lt_irrefl _ hlt
  exact List.inj_on_of_nodup_map hnodup hentry hentry' hsame

theorem Normal.bucket_ascending (hnormal : s.Normal) (digest : UInt64) :
    ((s.sets kind).bucket digest).Pairwise fun h h' => h.index < h'.index :=
  List.pairwise_map.mpr ((hnormal.ascending kind).filter _)

variable (hs : s.WellFormed)
include hs

theorem WellFormed.mem_bucket_iff {digest : UInt64} :
    h ∈ (s.sets kind).bucket digest ↔
      s.digest h = .ok digest ∧ ∃ others traits, s.slot? h = some ⟨kind.node others, traits⟩ := by
  -- a set is entered under its digest, and under no other as it is entered once
  have hentered : ∀ {others traits}, s.slot? h = some ⟨kind.node others, traits⟩ →
      ∃ word, s.digest h = .ok word ∧ (word, h) ∈ (s.sets kind).entries := by
    intro others traits hslot
    obtain ⟨-, -, digests, hdigests, hentry⟩ := hs.gathered.entry hslot
    refine ⟨_, ?_, hentry⟩
    rw [digest_of_set hs.linked hslot, setDigest, hdigests]
    rfl
  rw [SetCatalog.mem_bucket]
  constructor
  · intro hentry
    obtain ⟨others, traits, hslot⟩ := hs.gathered.slot_of_entry hentry
    obtain ⟨word, hword, hentry'⟩ := hentered hslot
    obtain ⟨rfl, -⟩ := Prod.mk.inj (hs.normal.eq_of_entries hentry' hentry rfl)
    exact ⟨hword, others, traits, hslot⟩
  · rintro ⟨hdigest, others, traits, hslot⟩
    obtain ⟨word, hword, hentry⟩ := hentered hslot
    rw [hdigest] at hword
    cases hword
    exact hentry

variable (hmembers : ∀ x ∈ members, s.contains x)
include hmembers

/-- A set fits exactly if it passes the test in the bucket of the digest. -/
theorem WellFormed.fits_iff {digest : UInt64} (hdigest : s.setDigest kind members = .ok digest) :
    s.Fits kind members h ↔ h ∈ (s.sets kind).bucket digest ∧
      (do s.equalSets (← s.node h).members members) = .ok true := by
  rw [Fits, hdigest, hs.mem_bucket_iff]
  constructor
  · rintro ⟨hword, others, traits, hslot, hsame⟩
    exact ⟨⟨hword, others, traits, hslot⟩,
      (equalMembers_decides hs.linked hs.acyclic hmembers hslot).eq_true_iff.mpr hsame⟩
  · rintro ⟨⟨hword, others, traits, hslot⟩, htest⟩
    exact ⟨hword, others, traits, hslot,
      (equalMembers_decides hs.linked hs.acyclic hmembers hslot).eq_true_iff.mp htest⟩

/-- Nothing is found exactly if no set fits. -/
theorem WellFormed.findSet_none_iff :
    s.findSet kind members = .ok none ↔ ∀ h, ¬ s.Fits kind members h := by
  obtain ⟨digests, -, hdigest⟩ := setDigest_answered kind hs.linked hmembers
  have hfits := fun {h} => hs.fits_iff (h := h) hmembers hdigest
  constructor
  · intro hnone h hfit
    rw [findSet_of_digest hdigest] at hnone
    obtain ⟨hbucket, htrue⟩ := hfits.mp hfit
    rw [Lifting.findM?_none hnone h hbucket] at htrue
    cases htrue
  · intro hnone
    obtain ⟨found, hfound⟩ := findSet_answered kind hs hmembers
    cases found with
    | none => exact hfound
    | some h =>
      rw [findSet_of_digest hdigest] at hfound
      exact absurd (hfits.mpr (Lifting.findM?_some hfound)) (hnone h)

/-- What is found is the oldest set that fits. -/
theorem WellFormed.findSet_some_iff : s.findSet kind members = .ok (some h) ↔
    s.Fits kind members h ∧ ∀ other, s.Fits kind members other → h.index ≤ other.index := by
  obtain ⟨digests, -, hdigest⟩ := setDigest_answered kind hs.linked hmembers
  have hfits := fun {h} => hs.fits_iff (h := h) hmembers hdigest
  have holdest : ∀ {h}, s.findSet kind members = .ok (some h) →
      s.Fits kind members h ∧ ∀ other, s.Fits kind members other → h.index ≤ other.index := by
    intro h hfound
    rw [findSet_of_digest hdigest] at hfound
    refine ⟨hfits.mpr (Lifting.findM?_some hfound), fun other hother => ?_⟩
    obtain ⟨hbucket, htrue⟩ := hfits.mp hother
    rcases Lifting.findM?_first hfound (hs.normal.bucket_ascending _) other hbucket htrue with
      rfl | hlt
    · exact le_rfl
    · exact hlt.le
  constructor
  · exact holdest
  · rintro ⟨hfit, hleast⟩
    obtain ⟨found, hfound⟩ := findSet_answered kind hs hmembers
    cases found with
    | none => exact absurd hfit ((hs.findSet_none_iff hmembers).mp hfound h)
    | some other =>
      obtain ⟨hother, hfirst⟩ := holdest hfound
      obtain rfl : other = h :=
        Handle.eq_of_index (le_antisymm (hfirst h hfit) (hleast other hother))
      exact hfound

/-- Members of the same digest that are equal to each other are fitted by the same sets. -/
theorem Fits.congr (hmembers' : ∀ x ∈ members', s.contains x)
    (hdigest : s.setDigest kind members = s.setDigest kind members')
    (hsame : s.SameTypes members members') (hfit : s.Fits kind members h) :
    s.Fits kind members' h := by
  obtain ⟨hword, others, traits, hslot, hothers⟩ := hfit
  refine ⟨hword.trans hdigest, others, traits, hslot, ?_⟩
  exact hs.sameTypes_trans (hs.linked.contains_of_members hslot) hmembers hmembers' hothers hsame

/-- The search depends on the members only through their digest and up to equality. -/
theorem WellFormed.findSet_congr (hmembers' : ∀ x ∈ members', s.contains x)
    (hdigest : s.setDigest kind members = s.setDigest kind members')
    (hsame : s.SameTypes members members') (hfound : s.findSet kind members = .ok (some h)) :
    s.findSet kind members' = .ok (some h) := by
  obtain ⟨hfit, hleast⟩ := (hs.findSet_some_iff hmembers).mp hfound
  refine (hs.findSet_some_iff hmembers').mpr ⟨?_, fun other hother => hleast other ?_⟩
  · exact hfit.congr hs hmembers hmembers' hdigest hsame
  · exact hother.congr hs hmembers' hmembers hdigest.symm hsame.symm

end Search

section Growth

/-- Old sets fit old members as they did before. -/
theorem Grows.fits_iff (hst : s.Grows t) (hs : s.WellFormed)
    (hmembers : ∀ x ∈ members, s.contains x) (hh : s.contains h) :
    t.Fits kind members h ↔ s.Fits kind members h := by
  obtain ⟨slot, hslot⟩ := exists_slot hh
  have hsets : ∀ {others traits}, s.slot? h = some ⟨kind.node others, traits⟩ →
      (t.SameTypes others members ↔ s.SameTypes others members) := by
    intro others traits hset
    exact hst.sameTypes_iff hs (hs.linked.contains_of_members hset) hmembers
  rw [Fits, Fits, digest_eq hst.toRetains hs.linked hh, hst.setDigest_eq hs hmembers,
    hst.slots hslot, hslot]
  refine and_congr_right fun _ => exists_congr fun others => exists_congr fun traits => ?_
  refine and_congr_right fun hset => @hsets others traits ?_
  rw [hslot, hset]

/-- What was found is found again in a store that has grown, as new sets are younger. -/
theorem Grows.findSet_found (hst : s.Grows t) (hs : s.WellFormed)
    (hmembers : ∀ x ∈ members, s.contains x) (hfound : s.findSet kind members = .ok (some h)) :
    t.findSet kind members = .ok (some h) := by
  have hmembers' : ∀ x ∈ members, t.contains x := fun x hx => hst.contains (hmembers x hx)
  obtain ⟨hfit, hleast⟩ := (hs.findSet_some_iff hmembers).mp hfound
  have hh : s.contains h := by
    obtain ⟨-, others, traits, hslot, -⟩ := hfit
    exact contains_of_slot hslot
  refine ((hst.wellFormed hs).findSet_some_iff hmembers').mpr
    ⟨(hst.fits_iff hs hmembers hh).mpr hfit, fun other hother => ?_⟩
  by_cases hold : s.contains other
  · exact hleast other ((hst.fits_iff hs hmembers hold).mp hother)
  · have hlt := contains_iff.mp hh
    have hle := Nat.le_of_not_lt (mt contains_iff.mpr hold)
    omega

/-- A set of types is found again right after it was asked for. -/
theorem WellFormed.internSet_found (hs : s.WellFormed) (hmembers : ∀ x ∈ members, s.contains x)
    (hrun : internSet kind members s = .ok h t) (hst : s.Grows t) :
    t.findSet kind members = .ok (some h) := by
  rcases internSet_run kind hs hmembers with
    ⟨found, hfound, hrun'⟩ | ⟨digest, traits, hnone, hdigest, htraits, hrun'⟩
  · rw [hrun] at hrun'
    cases hrun'
    exact hfound
  · rw [hrun] at hrun'
    cases hrun'
    have ht := hst.wellFormed hs
    have hslot : (s.allocate (kind.node members) traits digest).slot? ⟨s.size⟩ =
        some ⟨kind.node members, traits⟩ := slot?_allocate_new
    refine (ht.findSet_some_iff fun x hx => hst.contains (hmembers x hx)).mpr ⟨?_, ?_⟩
    · exact ⟨digest_of_set ht.linked hslot, members, traits, hslot, .of_mem_iff fun _ => Iff.rfl⟩
    · intro other hother
      by_contra hlt
      have hold : s.contains other := contains_iff.mpr (Nat.lt_of_not_le hlt)
      exact (hs.findSet_none_iff hmembers).mp hnone other
        ((hst.fits_iff hs hmembers hold).mp hother)

end Growth

end GradualTypes.Store
