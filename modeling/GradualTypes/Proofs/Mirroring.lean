import GradualTypes.Proofs.Simulation

/-!
Formation in stores that are alike. Forming a type asks for names, digests, traits, the order of
types and their equality. None of these depends on recorded bounds, so that in two stores that are
alike the same type is formed, at the same handle, and neither the states of tuples nor the journal
is touched.
-/

namespace GradualTypes.Store

variable {s s' t : Store} {h : Handle}

section Questions

namespace Alike

private theorem traitsOfAll_eq (halike : s.Alike s') (types : List Handle) :
    s'.traitsOfAll types = s.traitsOfAll types := by
  obtain ⟨states, journal, rfl, -⟩ := halike
  rfl

private theorem setPart_eq (halike : s.Alike s') (kind : SetKind) :
    s'.setPart kind = s.setPart kind := by
  obtain ⟨states, journal, rfl, -⟩ := halike
  rfl

private theorem isTop_eq (halike : s.Alike s') : s'.isTop = s.isTop := by
  obtain ⟨states, journal, rfl, -⟩ := halike
  rfl

private theorem sets_eq (halike : s.Alike s') (kind : SetKind) : s'.sets kind = s.sets kind := by
  obtain ⟨states, journal, rfl, -⟩ := halike
  rfl

theorem size_eq (halike : s.Alike s') : s'.size = s.size := by
  obtain ⟨states, journal, rfl, -⟩ := halike
  rfl

private theorem hash_eq (halike : s.Alike s') : s'.hash = s.hash := by
  obtain ⟨states, journal, rfl, -⟩ := halike
  rfl

private theorem digest_eq (halike : s.Alike s') : s'.digest = s.digest := by
  have hwithin : ∀ depth, s'.digestWithin depth = s.digestWithin depth := by
    intro depth
    induction depth with
    | zero => rfl
    | succ depth ih =>
      funext h
      rw [digestWithin_succ, digestWithin_succ, ih, halike.node_eq, halike.hash_eq]
  funext h
  rw [digest, digest, hwithin, halike.size_eq]

private theorem orderNodes_eq (halike : s.Alike s') : s'.orderNodes = s.orderNodes := by
  obtain ⟨states, journal, rfl, -⟩ := halike
  rfl

private theorem order_eq (halike : s.Alike s') : s'.order = s.order := by
  have hwithin : ∀ depth, s'.orderWithin depth = s.orderWithin depth := by
    intro depth
    induction depth with
    | zero => rfl
    | succ depth ih =>
      funext a b
      rw [orderWithin_succ, orderWithin_succ, ih, halike.node_eq, halike.node_eq,
        halike.orderNodes_eq]
  funext a b
  rw [order, order, hwithin, halike.size_eq]

private theorem equal_eq (halike : s.Alike s') : s'.equal = s.equal := by
  have hwithin : ∀ depth, s'.equalWithin depth = s.equalWithin depth := by
    intro depth
    induction depth with
    | zero => rfl
    | succ depth ih =>
      funext a b
      rw [equalWithin_succ, equalWithin_succ, ih, halike.shape_eq, halike.shape_eq]
  funext a b
  rw [equal, equal, hwithin, halike.size_eq]

private theorem arrange_eq (halike : s.Alike s') (types : List Handle) :
    s'.arrange types = s.arrange types := by
  rw [arrange, arrange, halike.order_eq, halike.equal_eq]

/-- The search for a set in its catalog. -/
private theorem findSet_eq (halike : s.Alike s') (kind : SetKind) (digest : UInt64)
    (members : List Handle) :
    (s'.sets kind).findM? digest (fun h => do s'.equalSets (← s'.node h).members members) =
      (s.sets kind).findM? digest (fun h => do s.equalSets (← s.node h).members members) := by
  have hsets : s'.equalSets = s.equalSets := by
    funext as bs
    rw [equalSets, equalSets, halike.equal_eq]
  rw [halike.sets_eq, hsets]
  congr 1
  funext h
  rw [halike.node_eq]

end Alike

end Questions

def boundedAs (t s' : Store) : Store :=
  { t with states := s'.states, journal := s'.journal }

private theorem Alike.boundedAs_self (halike : s.Alike s') : s.boundedAs s' = s' := by
  obtain ⟨states, journal, rfl, -⟩ := halike
  rfl

theorem Alike.boundedAs (halike : s.Alike s') (hstates : t.states = s.states) :
    t.Alike (t.boundedAs s') := by
  refine ⟨s'.states, s'.journal, rfl, ?_⟩
  obtain ⟨states, journal, rfl, hsame⟩ := halike
  rw [hstates]
  exact hsame

/-- An operation that neither reads nor changes what stores that are alike may differ in. -/
def Mirrors {α : Type} (op : StoreM α) : Prop :=
  ∀ ⦃s s' answer t⦄, s.Alike s' → op s = .ok answer t →
    t.states = s.states ∧ op s' = .ok answer (t.boundedAs s')

namespace Mirrors

variable {α β : Type}

theorem pure (answer : α) : Mirrors (Pure.pure answer) := by
  rintro s s' _ _ halike ⟨⟩
  exact ⟨rfl, congrArg (EStateM.Result.ok answer) halike.boundedAs_self.symm⟩

theorem bind {op : StoreM α} {f : α → StoreM β} (hop : Mirrors op)
    (hf : ∀ answer, Mirrors (f answer)) : Mirrors (op >>= f) := by
  intro s s' answer u halike hrun
  obtain ⟨middle, t, hfirst, hsecond⟩ := bind_run_eq_ok_iff.mp hrun
  obtain ⟨hstates, hfirst'⟩ := hop halike hfirst
  obtain ⟨hstates', hsecond'⟩ := hf middle (halike.boundedAs hstates) hsecond
  exact ⟨hstates'.trans hstates, (bind_run hfirst').trans hsecond'⟩

theorem ask {question : Store → Except Error α}
    (hsame : ∀ {s s'}, Alike s s' → question s' = question s) : Mirrors (ask question) := by
  intro s s' answer t halike hrun
  obtain ⟨hask, rfl⟩ := ask_run_eq_ok_iff.mp hrun
  rw [ask_run ((hsame halike).trans hask), halike.boundedAs_self]
  exact ⟨rfl, rfl⟩

theorem add (node : Node) (traits : Traits) : Mirrors (add node traits) := by
  rintro s s' _ _ ⟨states, journal, rfl, -⟩ ⟨⟩
  exact ⟨rfl, rfl⟩

theorem modify {change : Store → Store} (hstates : ∀ s, (change s).states = s.states)
    (hchange : ∀ s s', (change s).boundedAs s' = change (s.boundedAs s')) :
    Mirrors (modify change) := by
  rintro s s' _ _ halike ⟨⟩
  refine ⟨hstates s, ?_⟩
  rw [hchange, halike.boundedAs_self]
  rfl

end Mirrors

private theorem internSet_mirrors (kind : SetKind) (members : List Handle) :
    Mirrors (internSet kind members) := by
  refine .bind (.ask fun halike => by rw [halike.digest_eq]) fun digest =>
    .bind (.ask fun halike => halike.findSet_eq kind digest members) fun found => ?_
  cases found with
  | some h => exact .pure h
  | none =>
    refine .bind (.ask fun halike => halike.traitsOfAll_eq members) fun traits =>
      .bind (.add _ traits) fun h => .bind (.modify ?_ ?_) fun _ => .pure h
    · intro s
      cases kind <;> rfl
    · intro s s'
      cases kind <;> rfl

theorem formUnion_mirrors (types : List Handle) : Mirrors (formUnion types) := by
  refine .bind (.ask fun halike => by rw [halike.isTop_eq]) fun top => ?_
  split
  · exact .pure _
  · refine .bind (.ask fun halike => by rw [halike.setPart_eq]) fun parts =>
      .bind (.ask fun halike => halike.arrange_eq parts.flatten) fun members => ?_
    split
    · exact .pure _
    · exact .pure _
    · exact internSet_mirrors .union _

theorem formArray_mirrors (element : Handle) : Mirrors (formArray element) := by
  intro s s' h t halike hrun
  rw [formArray] at hrun ⊢
  cases htraits : s.traitsOfAll [element] with
  | error e =>
    rw [formGeneric, bind_run_error (ask_run_error htraits)] at hrun
    cases hrun
  | ok traits =>
    have htraits' := (halike.traitsOfAll_eq [element]).trans htraits
    rw [formGeneric_run s _ _ htraits, internNode] at hrun
    rw [formGeneric_run s' _ _ htraits', internNode]
    obtain ⟨states, journal, rfl, -⟩ := halike
    have hentered : { s with states, journal }.entered? (.generic .arrayClass [element]) =
        s.entered? (.generic .arrayClass [element]) := rfl
    rw [hentered]
    cases hfound : s.entered? (.generic .arrayClass [element]) with
    | some found =>
      rw [hfound] at hrun
      cases hrun
      exact ⟨rfl, rfl⟩
    | none =>
      rw [hfound] at hrun
      cases hrun
      exact ⟨rfl, rfl⟩

end GradualTypes.Store
