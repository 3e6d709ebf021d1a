import GradualTypes.Proofs.Hierarchy
import GradualTypes.Proofs.Termination

/-!
Subtyping among types without tuples. Such types are compared without a change to the store, so the
answers describe a relation, and this module shows that the relation is a preorder. Reflexivity is
built into the search. For transitivity take three types: whichever rules the search takes for the
first two pairs, either they let the middle type be exchanged for one of its components, or the rule
for the outer pair takes apart the same type as one of them. Only three types that are compared
directly are left, and for these the matter rests on the class hierarchy.
-/

namespace GradualTypes

inductive Rule.OnLeft : Rule → Prop where
  | all : OnLeft .allLeft
  | any : OnLeft .anyLeft

inductive Rule.OnRight : Rule → Prop where
  | all : OnRight .allRight
  | any : OnRight .anyRight

/-- Two rules that both take the type between them apart, and of which one holds for all of its
components. -/
inductive Rule.Meets : Rule → Rule → Prop where
  | all : Meets .allRight .allLeft
  | anyFirst : Meets .anyRight .allLeft
  | anySecond : Meets .allRight .anyLeft

/-- How the rules for three types in a row go together: the outer pair takes the left type apart as
the first pair does, or the right type as the second pair does; or the middle type can be cut out;
or all are compared directly. -/
inductive Layer.Chain (left middle right : Layer) : Prop where
  | left (hside : (left.rule right).OnLeft) (hsame : left.rule middle = left.rule right)
  | right (hside : (left.rule right).OnRight) (hsame : middle.rule right = left.rule right)
  | cut (hmeets : (left.rule middle).Meets (middle.rule right)) (hlayer : middle ≠ .plain)
  | direct (hfirst : left.rule middle = .direct) (hsecond : middle.rule right = .direct)
      (houter : left.rule right = .direct)

/-- Any three layers are one of these cases, because of the order of the rules: annotations come off
before all else, and what must hold of all components comes before what must hold of one. -/
private theorem Layer.chain (left middle right : Layer) : Chain left middle right := by
  cases left with
  | annotated => exact .left .all rfl
  | union =>
    cases middle with
    | annotated => exact .cut .all nofun
    | _ =>
      cases right with
      | annotated => exact .right .all rfl
      | _ => exact .left .all rfl
  | intersection =>
    cases middle with
    | annotated => exact .cut .all nofun
    | union =>
      cases right with
      | annotated => exact .right .all rfl
      | _ => exact .cut .anyFirst nofun
    | intersection =>
      cases right with
      | annotated | intersection => exact .right .all rfl
      | union => exact .right .any rfl
      | plain => exact .cut .anySecond nofun
    | plain =>
      cases right with
      | annotated | intersection => exact .right .all rfl
      | union => exact .right .any rfl
      | plain => exact .left .any rfl
  | plain =>
    cases middle with
    | annotated => exact .cut .all nofun
    | union =>
      cases right with
      | annotated => exact .right .all rfl
      | _ => exact .cut .anyFirst nofun
    | intersection =>
      cases right with
      | annotated | intersection => exact .right .all rfl
      | union => exact .right .any rfl
      | plain => exact .cut .anySecond nofun
    | plain =>
      cases right with
      | annotated | intersection => exact .right .all rfl
      | union => exact .right .any rfl
      | plain => exact .direct rfl rfl rfl

/-- The rule for a plain type on the left, such as the greatest type, in place of another. -/
private theorem Layer.plain_rule (left right : Layer) :
    left.rule right = .allLeft ∨
    (left.rule right).OnRight ∧ plain.rule right = left.rule right ∨
    plain.rule right = .direct := by
  cases right with
  | annotated =>
    cases left with
    | annotated => exact .inl rfl
    | _ => exact .inr (.inl ⟨.all, rfl⟩)
  | union =>
    cases left with
    | annotated | union => exact .inl rfl
    | _ => exact .inr (.inl ⟨.any, rfl⟩)
  | intersection =>
    cases left with
    | annotated | union => exact .inl rfl
    | _ => exact .inr (.inl ⟨.all, rfl⟩)
  | plain => exact .inr (.inr rfl)

/-- The rule for a plain type on the right, such as the least type, in place of another. -/
private theorem Layer.rule_plain (left right : Layer) :
    (left.rule right).OnRight ∧ right ≠ .plain ∨
    (left.rule right).OnLeft ∧ left.rule plain = left.rule right ∨
    left.rule plain = .direct := by
  cases left with
  | annotated => exact .inr (.inl ⟨.all, rfl⟩)
  | union =>
    cases right with
    | annotated => exact .inl ⟨.all, nofun⟩
    | _ => exact .inr (.inl ⟨.all, rfl⟩)
  | intersection =>
    cases right with
    | annotated | intersection => exact .inl ⟨.all, nofun⟩
    | union => exact .inl ⟨.any, nofun⟩
    | plain => exact .inr (.inl ⟨.any, rfl⟩)
  | plain => exact .inr (.inr rfl)

namespace Store

variable {s : Store} {a b c x y : Handle} {left middle right : Shape}

abbrev Evident (a b : Handle) : Prop :=
  a = b ∨ b = .top ∨ a = .nil

/-- The search finds one type below another and leaves the store as it is. -/
def Below (s : Store) (a b : Handle) : Prop :=
  subtype a b s = .ok true s

def BelowBy (s : Store) (rule : Rule) (a : Handle) (left : Shape) (b : Handle) (right : Shape) :
    Prop :=
  match rule with
  | .allLeft => ∀ x ∈ left.parts, s.Below x b
  | .allRight => ∀ y ∈ right.parts, s.Below a y
  | .anyRight => ∃ y ∈ right.parts, s.Below a y
  | .anyLeft => ∃ x ∈ left.parts, s.Below x b
  | .direct => s.DirectFinding s.Below (fun x y => ¬ s.Below x y) left right true

namespace BelowBy

variable {rule rule' : Rule}

/-- A rule that takes the left type apart goes on to hold for another right type if it does for each
component. -/
private theorem of_left (hside : rule.OnLeft) (h : s.BelowBy rule a left b middle)
    (hpart : ∀ x ∈ left.parts, s.Below x b → s.Below x c) : s.BelowBy rule a left c right := by
  cases hside with
  | all => exact fun x hx => hpart x hx (h x hx)
  | any =>
    obtain ⟨x, hx, hxb⟩ := h
    exact ⟨x, hx, hpart x hx hxb⟩

private theorem of_right (hside : rule.OnRight) (h : s.BelowBy rule b middle c right)
    (hpart : ∀ z ∈ right.parts, s.Below b z → s.Below a z) : s.BelowBy rule a left c right := by
  cases hside with
  | all => exact fun z hz => hpart z hz (h z hz)
  | any =>
    obtain ⟨z, hz, hbz⟩ := h
    exact ⟨z, hz, hpart z hz hbz⟩

/-- A rule that takes the right type apart holds if there are components and it does for all. -/
private theorem of_all_right (hside : rule.OnRight) (hpart : ∃ y, y ∈ right.parts)
    (h : ∀ y ∈ right.parts, s.Below a y) : s.BelowBy rule a left b right := by
  cases hside with
  | all => exact h
  | any =>
    obtain ⟨y, hy⟩ := hpart
    exact ⟨y, hy, h y hy⟩

/-- Two rules that meet in a type with components hold through one of these. -/
private theorem exists_between (hmeets : rule.Meets rule') (hpart : ∃ y, y ∈ middle.parts)
    (hab : s.BelowBy rule a left b middle) (hbc : s.BelowBy rule' b middle c right) :
    ∃ y ∈ middle.parts, s.Below a y ∧ s.Below y c := by
  cases hmeets with
  | all =>
    obtain ⟨y, hy⟩ := hpart
    exact ⟨y, hy, hab y hy, hbc y hy⟩
  | anyFirst =>
    obtain ⟨y, hy, hay⟩ := hab
    exact ⟨y, hy, hay, hbc y hy⟩
  | anySecond =>
    obtain ⟨y, hy, hyc⟩ := hbc
    exact ⟨y, hy, hab y hy, hyc⟩

end BelowBy

section Quiet

/-- One step of the search for two types that are no tuples leaves the store as it is if what it
asks for does. -/
theorem WellFormed.belowStep_quiet {below : Handle → Handle → StoreM Bool}
    {yes no : Handle → Handle → Prop} (hs : s.WellFormed) (hleft : s.shape a = .ok left)
    (hright : s.shape b = .ok right) (hfixed : ∀ params, left ≠ .tuple params)
    (hpromoted : ∀ array, left ≠ .promoted array) (hpromoted' : ∀ array, right ≠ .promoted array)
    (hbelow : ∀ x y, s.Asks a b x y →
      Returns (below x y) s fun answer t => s = t ∧ if answer then yes x y else no x y) :
    Returns (belowStep below a b) s fun answer t => s = t ∧
      if Evident a b then answer = true else Finding s yes no a left b right answer := by
  have hplain : Returns (do
      let sup ← ask (·.canonical b)
      if a = sup ∨ sup = .top ∨ a = .nil then return true
      else belowShapes below a left sup (← ask (·.shape sup))) s fun answer t => s = t ∧
        if Evident a b then answer = true else Finding s yes no a left b right answer := by
    refine .ask_bind (canonical_of_shape hright hpromoted') ?_
    split
    · exact .pure ⟨rfl, rfl⟩
    · refine .ask_bind hright (belowShapes_returns hs.linked hleft hright ?_)
      rintro x y hxy t rfl
      exact hbelow x y hxy
  refine .ask_bind hleft ?_
  cases left with
  | promoted array => exact absurd rfl (hpromoted array)
  | tuple params => exact absurd rfl (hfixed params)
  | _ => exact hplain

private theorem not_tuple_of_node (hnode : left.node?.isSome) (params : List Handle) :
    left ≠ .tuple params := by
  rintro rfl
  cases hnode

theorem not_promoted_of_node (hnode : left.node?.isSome) (array : Handle) :
    left ≠ .promoted array := by
  rintro rfl
  cases hnode

variable (hs : s.WellFormed)
include hs

/-- The search for two types without tuples ends and leaves the store as it is. Components are older
than the types they belong to, so the handles bound how deep the search nests. -/
theorem WellFormed.subtypeWithin_quiet (depth : Nat) (ha : s.IsTupleFree a) (hb : s.IsTupleFree b)
    (hdepth : a.index + b.index < depth) : ∃ answer, subtypeWithin depth a b s = .ok answer s := by
  induction depth generalizing a b with
  | zero => omega
  | succ depth ih =>
    obtain ⟨left, hleft, hnode⟩ := hs.shape_of_tupleFree ha
    obtain ⟨right, hright, hnode'⟩ := hs.shape_of_tupleFree hb
    have hbelow : ∀ x y, s.Asks a b x y → Returns (subtypeWithin depth x y) s fun answer t =>
        s = t ∧ if answer then True else True := by
      intro x y hxy
      obtain ⟨hx, hy, hlt⟩ := hs.tupleFree_of_asks ha hb hxy
      obtain ⟨answer, hrun⟩ := ih hx hy (by omega)
      exact .verdict ⟨answer, s, hrun, rfl⟩
    obtain ⟨answer, t, hrun, rfl, -⟩ := hs.belowStep_quiet hleft hright (not_tuple_of_node hnode)
      (not_promoted_of_node hnode) (not_promoted_of_node hnode') hbelow
    exact ⟨answer, hrun⟩

theorem WellFormed.subtype_quiet (ha : s.IsTupleFree a) (hb : s.IsTupleFree b) :
    ∃ answer, Store.subtype a b s = .ok answer s := by
  obtain ⟨answer, hrun⟩ := hs.subtypeWithin_quiet _ ha hb (Nat.lt_succ_self _)
  exact ⟨answer, subtype_eq_of_within hs (hs.contains_of_tupleFree ha)
    (hs.contains_of_tupleFree hb) hrun⟩

/-- How deep the search may nest makes no difference as long as it is deep enough. -/
theorem WellFormed.subtypeWithin_eq (depth : Nat) (ha : s.IsTupleFree a) (hb : s.IsTupleFree b)
    (hdepth : a.index + b.index < depth) : subtypeWithin depth a b s = Store.subtype a b s := by
  obtain ⟨answer, hrun⟩ := hs.subtypeWithin_quiet depth ha hb hdepth
  rw [hrun, subtype_eq_of_within hs (hs.contains_of_tupleFree ha) (hs.contains_of_tupleFree hb)
    hrun]

end Quiet

section Rules

private theorem not_directFinding_of_found {P : Handle → Handle → Prop}
    (htrue : DirectFinding s P (fun x y => ¬ P x y) left right true) :
    ¬ DirectFinding s P (fun x y => ¬ P x y) left right false := by
  intro hfalse
  unfold DirectFinding at htrue hfalse
  split at htrue
  · obtain ⟨hbase, hpointwise⟩ := htrue
    obtain ⟨hlen, hpairs⟩ := List.forall₂_iff_zip.mp hpointwise
    rcases hfalse with hne | hne | ⟨pair, hpair, hno⟩
    · exact hne hbase
    · exact hne hlen
    · have hboth := hpairs hpair
      rcases hno with hno | ⟨-, hno⟩
      · exact hno hboth.1
      · exact hno hboth.2
  · simp_all
  · simp_all

/-- The finding of a step tells whether what its rule asks for holds. -/
private theorem finding_iff {answer : Bool}
    (hfound : Finding s s.Below (fun x y => ¬ s.Below x y) a left b right answer) :
    answer = true ↔ s.BelowBy (left.layer.rule right.layer) a left b right := by
  unfold Finding at hfound
  cases answer with
  | true =>
    refine ⟨fun _ => ?_, fun _ => rfl⟩
    cases hrule : left.layer.rule right.layer <;> rw [hrule] at hfound <;> exact hfound
  | false =>
    refine ⟨fun hfalse => absurd hfalse Bool.false_ne_true, fun hbelow => absurd hfound ?_⟩
    intro hfound
    cases hrule : left.layer.rule right.layer <;> rw [hrule] at hfound hbelow
    case allLeft =>
      obtain ⟨x, hx, hno⟩ := hfound
      exact hno (hbelow x hx)
    case allRight =>
      obtain ⟨y, hy, hno⟩ := hfound
      exact hno (hbelow y hy)
    case anyRight =>
      obtain ⟨y, hy, hyes⟩ := hbelow
      exact hfound y hy hyes
    case anyLeft =>
      obtain ⟨x, hx, hyes⟩ := hbelow
      exact hfound x hx hyes
    case direct => exact not_directFinding_of_found hbelow hfound

/-- One type that is no tuple is below another at sight or by the rule for their layers, if what
the rule asks for is answered without a change to the store. -/
theorem WellFormed.below_iff_of_quiet (hs : s.WellFormed) (depth : Nat)
    (hleft : s.shape a = .ok left) (hright : s.shape b = .ok right)
    (hfixed : ∀ params, left ≠ .tuple params) (hpromoted : ∀ array, left ≠ .promoted array)
    (hpromoted' : ∀ array, right ≠ .promoted array)
    (hquiet : ∀ x y, s.Asks a b x y → ∃ answer, subtypeWithin depth x y s = .ok answer s) :
    s.Below a b ↔ Evident a b ∨ s.BelowBy (left.layer.rule right.layer) a left b right := by
  have ha := Linked.contains_of_shape hleft
  have hb := Linked.contains_of_shape hright
  have hbelow : ∀ x y, s.Asks a b x y → Returns (subtypeWithin depth x y) s
      fun answer t => s = t ∧ if answer then s.Below x y else ¬ s.Below x y := by
    intro x y hxy
    obtain ⟨hx, hy, -⟩ := hxy.descends hs.linked hs.acyclic ha hb
    obtain ⟨answer, hrun⟩ := hquiet x y hxy
    refine ⟨answer, s, hrun, rfl, ?_⟩
    rw [Below, subtype_eq_of_within hs hx hy hrun]
    cases answer with
    | true => rfl
    | false => simp
  obtain ⟨answer, t, hrun, rfl, hfound⟩ :=
    hs.belowStep_quiet hleft hright hfixed hpromoted hpromoted' hbelow
  have hrun : subtypeWithin (depth + 1) a b s = .ok answer s := hrun
  have hanswer : s.Below a b ↔ answer = true := by
    rw [Below, subtype_eq_of_within hs ha hb hrun]
    simp
  rw [hanswer]
  by_cases hevident : Evident a b
  · rw [if_pos hevident] at hfound
    exact ⟨fun _ => .inl hevident, fun _ => hfound⟩
  · rw [if_neg hevident] at hfound
    rw [finding_iff hfound, or_iff_right hevident]

theorem WellFormed.below_iff (hs : s.WellFormed) (ha : s.IsTupleFree a) (hb : s.IsTupleFree b)
    (hleft : s.shape a = .ok left) (hright : s.shape b = .ok right) :
    s.Below a b ↔ Evident a b ∨ s.BelowBy (left.layer.rule right.layer) a left b right := by
  obtain ⟨_, hleft', hnode⟩ := hs.shape_of_tupleFree ha
  obtain ⟨_, hright', hnode'⟩ := hs.shape_of_tupleFree hb
  rw [hleft] at hleft'
  rw [hright] at hright'
  cases hleft'
  cases hright'
  refine hs.below_iff_of_quiet (a.index + b.index) hleft hright (not_tuple_of_node hnode)
    (not_promoted_of_node hnode) (not_promoted_of_node hnode') fun x y hxy => ?_
  obtain ⟨hx, hy, hlt⟩ := hs.tupleFree_of_asks ha hb hxy
  exact hs.subtypeWithin_quiet _ hx hy hlt

end Rules

section Extremes

private theorem not_belowBy_direct_top : ¬ s.BelowBy .direct a .top b right := by
  intro hfound
  cases right with
  | nominal name => cases hfound
  | _ => exact Bool.noConfusion hfound

private theorem not_belowBy_direct_nil : ¬ s.BelowBy .direct a left b .nil := by
  intro hfound
  cases left with
  | _ => exact Bool.noConfusion hfound

/-- A set has members, and an annotated type has the type under its label. -/
theorem WellFormed.exists_part (hs : s.WellFormed) (hleft : s.shape a = .ok left)
    (hlayer : left.layer ≠ .plain) : ∃ x, x ∈ left.parts := by
  have hmember : ∀ (kind : SetKind) {members : List Handle},
      left.node? = some (kind.node members) → ∃ x, x ∈ members := by
    intro kind members hnode
    obtain ⟨traits, hslot⟩ := slot_of_shape hleft hnode
    have htwo := (hs.gathered.entry hslot).1
    exact List.exists_mem_of_length_pos (by omega)
  cases left with
  | annotated label inner => exact ⟨inner, List.mem_cons_self⟩
  | union members => exact hmember .union rfl
  | intersection members => exact hmember .intersection rfl
  | _ => exact absurd rfl hlayer

/-- Whatever is above the greatest type is above every type. -/
theorem WellFormed.below_of_top_below (hs : s.WellFormed) (ha : s.IsTupleFree a)
    (hb : s.IsTupleFree b) (htop : s.Below .top b) : s.Below a b := by
  induction hn : a.index + b.index using Nat.strong_induction_on generalizing a b with
  | _ n ih =>
    obtain ⟨left, hleft, -⟩ := hs.shape_of_tupleFree ha
    obtain ⟨right, hright, -⟩ := hs.shape_of_tupleFree hb
    have hpart : ∀ x ∈ left.parts, s.Below x b := fun x hx =>
      have ⟨hfree, hlt⟩ := hs.tupleFree_of_refersTo ha ⟨left, hleft, hx⟩
      ih _ (by omega) hfree hb htop rfl
    have hpart' : ∀ y ∈ right.parts, s.Below .top y → s.Below a y := fun y hy hy' =>
      have ⟨hfree, hlt⟩ := hs.tupleFree_of_refersTo hb ⟨right, hright, hy⟩
      ih _ (by omega) ha hfree hy' rfl
    obtain ⟨hfree, hshape⟩ := hs.linked.tupleFree_top
    rw [hs.below_iff hfree hb hshape hright] at htop
    rw [hs.below_iff ha hb hleft hright]
    by_cases hbtop : b = .top
    · exact .inl (.inr (.inl hbtop))
    have hevident : ¬ Evident .top b := by
      rintro (heq | heq | heq)
      · exact hbtop heq.symm
      · exact hbtop heq
      · cases heq
    have hfound := htop.resolve_left hevident
    right
    change s.BelowBy (Layer.plain.rule right.layer) .top .top b right at hfound
    rcases Layer.plain_rule left.layer right.layer with hrule | ⟨hside, hsame⟩ | hdirect
    · rw [hrule]
      exact hpart
    · rw [hsame] at hfound
      exact hfound.of_right hside hpart'
    · rw [hdirect] at hfound
      exact absurd hfound not_belowBy_direct_top

/-- Whatever is below the least type is below every type. -/
theorem WellFormed.below_of_below_nil (hs : s.WellFormed) (ha : s.IsTupleFree a)
    (hb : s.IsTupleFree b) (hnil : s.Below a .nil) : s.Below a b := by
  induction hn : a.index + b.index using Nat.strong_induction_on generalizing a b with
  | _ n ih =>
    obtain ⟨left, hleft, -⟩ := hs.shape_of_tupleFree ha
    obtain ⟨right, hright, -⟩ := hs.shape_of_tupleFree hb
    have hpart : ∀ x ∈ left.parts, s.Below x .nil → s.Below x b := fun x hx hx' =>
      have ⟨hfree, hlt⟩ := hs.tupleFree_of_refersTo ha ⟨left, hleft, hx⟩
      ih _ (by omega) hfree hb hx' rfl
    have hpart' : ∀ y ∈ right.parts, s.Below a y := fun y hy =>
      have ⟨hfree, hlt⟩ := hs.tupleFree_of_refersTo hb ⟨right, hright, hy⟩
      ih _ (by omega) ha hfree hnil rfl
    obtain ⟨hfree, hshape⟩ := hs.linked.tupleFree_nil
    rw [hs.below_iff ha hfree hleft hshape] at hnil
    rw [hs.below_iff ha hb hleft hright]
    by_cases hanil : a = .nil
    · exact .inl (.inr (.inr hanil))
    have hevident : ¬ Evident a .nil := by
      rintro (heq | heq | heq)
      · exact hanil heq
      · cases heq
      · exact hanil heq
    have hfound := hnil.resolve_left hevident
    right
    change s.BelowBy (left.layer.rule .plain) a left .nil .nil at hfound
    rcases Layer.rule_plain left.layer right.layer with ⟨hside, hlayer⟩ | ⟨hside, hsame⟩ | hdirect
    · exact .of_all_right hside (hs.exists_part hright hlayer) hpart'
    · rw [hsame] at hfound
      exact hfound.of_left hside hpart
    · rw [hdirect] at hfound
      exact absurd hfound not_belowBy_direct_nil

end Extremes

section Transitivity

theorem belowClass_eq_true_iff {ancestor : Name} :
    s.belowClass left ancestor = .ok true ↔
      ∃ name, s.classOf? left = .ok (some name) ∧
        s.hierarchy.isDescendant name ancestor = true := by
  rw [belowClass]
  cases hclass : s.classOf? left with
  | error e => simp [bind, Except.bind]
  | ok class? => cases class? <;> simp [bind, Except.bind, pure, Except.pure]

/-- Three types that are compared directly: generic types component by component, both ways, and
all others along the class hierarchy. A generic type counts by its base, which its components do not
change. -/
private theorem directFinding_trans {P : Handle → Handle → Prop}
    (htrans : ∀ x ∈ left.parts, ∀ y ∈ middle.parts, ∀ z ∈ right.parts,
      (P x y → P y z → P x z) ∧ (P z y → P y x → P z x))
    (hab : DirectFinding s P (fun x y => ¬ P x y) left middle true)
    (hbc : DirectFinding s P (fun x y => ¬ P x y) middle right true) :
    DirectFinding s P (fun x y => ¬ P x y) left right true := by
  cases middle with
  | nominal name =>
    have hclass : s.belowClass left name = .ok true := by
      cases left <;> exact hab
    obtain ⟨first, hfirst, hdescends⟩ := belowClass_eq_true_iff.mp hclass
    cases right with
    | nominal ancestor =>
      obtain ⟨second, hsecond, hdescends'⟩ := belowClass_eq_true_iff.mp hbc
      cases hsecond
      have htransitive := Hierarchy.isDescendant_trans hdescends hdescends'
      have hbelow : s.belowClass left ancestor = .ok true :=
        belowClass_eq_true_iff.mpr ⟨first, hfirst, htransitive⟩
      cases left <;> exact hbelow
    | _ => exact Bool.noConfusion hbc
  | generic base bs =>
    cases left with
    | generic base' as =>
      obtain ⟨rfl, hpointwise⟩ := hab
      cases right with
      | generic base' cs =>
        obtain ⟨rfl, hpointwise'⟩ := hbc
        refine ⟨rfl, forall₂_trans_of_mem hpointwise hpointwise' fun x hx y hy z hz hxy hyz => ?_⟩
        obtain ⟨hforth, hback⟩ := htrans x (List.mem_cons_of_mem _ hx) y
          (List.mem_cons_of_mem _ hy) z (List.mem_cons_of_mem _ hz)
        exact ⟨hforth hxy.1 hyz.1, hback hyz.2 hxy.2⟩
      | nominal ancestor => exact hbc
      | _ => exact Bool.noConfusion hbc
    | _ => exact Bool.noConfusion hab
  | _ => cases left <;> exact Bool.noConfusion hab

/-- Three types in a row of which neither neighbours are related at sight. -/
theorem WellFormed.belowBy_trans (hs : s.WellFormed) (ha : s.IsTupleFree a) (hb : s.IsTupleFree b)
    (hc : s.IsTupleFree c) (hleft : s.shape a = .ok left) (hmiddle : s.shape b = .ok middle)
    (hright : s.shape c = .ok right)
    (ih : ∀ {x y z}, s.IsTupleFree x → s.IsTupleFree y → s.IsTupleFree z →
      x.index + y.index + z.index < a.index + b.index + c.index → s.Below x y → s.Below y z →
      s.Below x z)
    (hab : s.Below a b) (hbc : s.Below b c)
    (hab' : s.BelowBy (left.layer.rule middle.layer) a left b middle)
    (hbc' : s.BelowBy (middle.layer.rule right.layer) b middle c right) : s.Below a c := by
  have hpart : ∀ {h shape}, s.IsTupleFree h → s.shape h = .ok shape → ∀ x ∈ shape.parts,
      s.IsTupleFree x ∧ x.index < h.index := fun hfree hshape x hx =>
    hs.tupleFree_of_refersTo hfree ⟨_, hshape, hx⟩
  have hfirst : ∀ x ∈ left.parts, s.Below x b → s.Below x c := fun x hx hxb =>
    have ⟨hfree, hlt⟩ := hpart ha hleft x hx
    ih hfree hb hc (by omega) hxb hbc
  have hlast : ∀ z ∈ right.parts, s.Below b z → s.Below a z := fun z hz hbz =>
    have ⟨hfree, hlt⟩ := hpart hc hright z hz
    ih ha hb hfree (by omega) hab hbz
  have hcut : ∀ y ∈ middle.parts, s.Below a y → s.Below y c → s.Below a c := fun y hy hay hyc =>
    have ⟨hfree, hlt⟩ := hpart hb hmiddle y hy
    ih ha hfree hc (by omega) hay hyc
  have hbelow : s.BelowBy (left.layer.rule right.layer) a left c right → s.Below a c := fun h =>
    (hs.below_iff ha hc hleft hright).mpr (.inr h)
  cases Layer.chain left.layer middle.layer right.layer with
  | left hside hsame =>
    rw [hsame] at hab'
    exact hbelow (hab'.of_left hside hfirst)
  | right hside hsame =>
    rw [hsame] at hbc'
    exact hbelow (hbc'.of_right hside hlast)
  | cut hmeets hlayer =>
    obtain ⟨y, hy, hay, hyc⟩ :=
      hab'.exists_between hmeets (hs.exists_part hmiddle hlayer) hbc'
    exact hcut y hy hay hyc
  | direct hrule hrule' houter =>
    rw [hrule] at hab'
    rw [hrule'] at hbc'
    rw [houter] at hbelow
    refine hbelow (directFinding_trans (fun x hx y hy z hz => ?_) hab' hbc')
    obtain ⟨hxfree, hltx⟩ := hpart ha hleft x hx
    obtain ⟨hyfree, hlty⟩ := hpart hb hmiddle y hy
    obtain ⟨hzfree, hltz⟩ := hpart hc hright z hz
    exact ⟨ih hxfree hyfree hzfree (by omega), ih hzfree hyfree hxfree (by omega)⟩

theorem WellFormed.below_refl (hs : s.WellFormed) (ha : s.IsTupleFree a) : s.Below a a := by
  obtain ⟨left, hleft, -⟩ := hs.shape_of_tupleFree ha
  exact (hs.below_iff ha ha hleft hleft).mpr (.inl (.inl rfl))

theorem WellFormed.below_trans (hs : s.WellFormed) (ha : s.IsTupleFree a) (hb : s.IsTupleFree b)
    (hc : s.IsTupleFree c) (hab : s.Below a b) (hbc : s.Below b c) : s.Below a c := by
  induction hn : a.index + b.index + c.index using Nat.strong_induction_on generalizing a b c with
  | _ n ih =>
    obtain ⟨left, hleft, -⟩ := hs.shape_of_tupleFree ha
    obtain ⟨middle, hmiddle, -⟩ := hs.shape_of_tupleFree hb
    obtain ⟨right, hright, -⟩ := hs.shape_of_tupleFree hc
    rcases (hs.below_iff ha hb hleft hmiddle).mp hab with (rfl | rfl | rfl) | hab'
    · exact hbc
    · exact hs.below_of_top_below ha hc hbc
    · exact (hs.below_iff ha hc hleft hright).mpr (.inl (.inr (.inr rfl)))
    rcases (hs.below_iff hb hc hmiddle hright).mp hbc with (rfl | rfl | rfl) | hbc'
    · exact hab
    · exact (hs.below_iff ha hc hleft hright).mpr (.inl (.inr (.inl rfl)))
    · exact hs.below_of_below_nil ha hc hab
    exact hs.belowBy_trans ha hb hc hleft hmiddle hright
      (fun hx hy hz hlt hxy hyz => ih _ (by omega) hx hy hz hxy hyz rfl) hab hbc hab' hbc'

end Transitivity

end Store

/-- In a reachable store, whatever its class hierarchy, subtyping is a preorder on the types in
which no tuple occurs. The question is always answered, and asking it leaves the store as it is. -/
theorem Reachable.subtype_preorder {s : Store} {a b c : Handle} (hs : Reachable s)
    (ha : s.IsTupleFree a) (hb : s.IsTupleFree b) (hc : s.IsTupleFree c) :
    Store.subtype a a s = .ok true s ∧ (∃ answer, Store.subtype a b s = .ok answer s) ∧
      (∃ answer, Store.subtype b c s = .ok answer s) ∧
      (∃ answer, Store.subtype a c s = .ok answer s) ∧
      (Store.subtype a b s = .ok true s → Store.subtype b c s = .ok true s →
        Store.subtype a c s = .ok true s) :=
  have hwf := hs.wellFormed
  ⟨hwf.below_refl ha, hwf.subtype_quiet ha hb, hwf.subtype_quiet hb hc, hwf.subtype_quiet ha hc,
    hwf.below_trans ha hb hc⟩

/-- `pairStore` after two classes were declared superclasses of each other. -/
def circleStore : Store :=
  (Operation.declareSuperclass "String" "Integer").apply
    ((Operation.declareSuperclass "Integer" "String").apply pairStore)

/-- In a circle of two classes each is below the other, and so is their union. -/
theorem circleStore_union_below :
    Reachable circleStore ∧ circleStore.IsTupleFree ⟨9⟩ ∧ circleStore.IsTupleFree ⟨5⟩ ∧
      circleStore.IsTupleFree ⟨6⟩ ∧
      Store.subtype ⟨9⟩ ⟨5⟩ circleStore = .ok true circleStore ∧
      Store.subtype ⟨5⟩ ⟨6⟩ circleStore = .ok true circleStore ∧
      Store.subtype ⟨9⟩ ⟨6⟩ circleStore = .ok true circleStore := by
  have hreachable : Reachable circleStore := .step _ (.step _ reachable_pairStore trivial) trivial
  have hunion : circleStore.IsTupleFree ⟨9⟩ := by decide +kernel
  have hfirst : circleStore.IsTupleFree ⟨5⟩ := by decide +kernel
  have hsecond : circleStore.IsTupleFree ⟨6⟩ := by decide +kernel
  obtain ⟨-, ⟨answer, hab⟩, ⟨answer', hbc⟩, -, htrans⟩ :=
    Reachable.subtype_preorder hreachable hunion hfirst hsecond
  have hanswer : (Store.subtype ⟨9⟩ ⟨5⟩).run' circleStore = some true := by decide +kernel
  have hanswer' : (Store.subtype ⟨5⟩ ⟨6⟩).run' circleStore = some true := by decide +kernel
  rw [EStateM.run', EStateM.run, hab] at hanswer
  rw [EStateM.run', EStateM.run, hbc] at hanswer'
  cases hanswer
  cases hanswer'
  exact ⟨hreachable, hunion, hfirst, hsecond, hab, hbc, htrans hab hbc⟩

end GradualTypes
