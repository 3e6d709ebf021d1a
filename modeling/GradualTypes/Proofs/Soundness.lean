import GradualTypes.Proofs.Preorder
import GradualTypes.Proofs.Walks

/-!
Subtyping is sound for membership. If one type without tuples is below another, every value of the
first belongs to the second, as long as nil does not occur in the value: nil belongs to all classes,
although the classes are not below the class of nil. The proof goes along the rules of the search.
Where the search takes a type apart, membership does the same; where it compares two types directly,
a generic type keeps its values because its components are below each other both ways, and all else
rests on the class of the value.
-/

namespace GradualTypes

inductive Value.NilFree : Value → Prop where
  | bool (b : Bool) : NilFree (.bool b)
  | int (n : Int64) : NilFree (.int n)
  | float (x : Float) : NilFree (.float x)
  | str (text : String) : NilFree (.str text)
  | symbol (name : Name) : NilFree (.symbol name)
  | array {items : List Value} : (∀ item ∈ items, NilFree item) → NilFree (.array items)
  | hash {pairs : List (Value × Value)} : (∀ pair ∈ pairs, NilFree pair.1) →
      (∀ pair ∈ pairs, NilFree pair.2) → NilFree (.hash pairs)
  | object (className : Name) : NilFree (.object className)

theorem Value.NilFree.isNil_eq_false {v : Value} (hv : v.NilFree) : v.isNil = false := by
  cases hv <;> rfl

theorem Value.isNil_iff {v : Value} : v.isNil = true ↔ v = .nil := by
  cases v <;> simp [isNil]

/-- The values that a value holds: the items of an array, the keys and values of a hash. -/
def Value.components : Value → List Value
  | array items => items
  | hash pairs => pairs.flatMap fun pair => [pair.1, pair.2]
  | _ => []

theorem Value.NilFree.component {v w : Value} (hv : v.NilFree) (hw : w ∈ v.components) :
    w.NilFree := by
  cases hv with
  | array hitems => exact hitems w hw
  | hash hkeys hvalues =>
    obtain ⟨pair, hpair, hw⟩ := List.mem_flatMap.mp hw
    simp only [List.mem_cons, List.not_mem_nil, or_false] at hw
    rcases hw with rfl | rfl
    · exact hkeys pair hpair
    · exact hvalues pair hpair
  | _ => cases hw

namespace Store

variable {s : Store} {a b h : Handle} {v : Value} {left right : Shape}

def Belongs (s : Store) (h : Handle) (v : Value) : Prop :=
  s.member h v = .ok true

section Unfolding

variable (hs : s.WellFormed)
include hs

/-- How deep a test may nest makes no difference as long as it is deeper than the rank. -/
theorem WellFormed.memberWithin_eq (m n : Nat) (hh : s.contains h) (hm : s.rank h < m)
    (hn : s.rank h < n) (v : Value) : s.memberWithin m h v = s.memberWithin n h v := by
  induction m generalizing n h v with
  | zero => omega
  | succ m ih =>
    obtain ⟨n, rfl⟩ := Nat.exists_eq_succ_of_ne_zero (Nat.ne_zero_of_lt hn)
    obtain ⟨shape, hshape⟩ := hs.linked.exists_shape hh
    have hpart : ∀ x ∈ shape.parts, ∀ w,
        Decides (s.memberWithin n x w) (s.memberWithin n x w = .ok true) ∧
          Decides (s.memberWithin m x w) (s.memberWithin n x w = .ok true) := by
      intro x hx w
      obtain ⟨hcontains, hlt⟩ := hs.descends hshape hx
      have hanswer := memberWithin_answered hs n hcontains (by omega) w
      rw [ih n hcontains (by omega) (by omega) w]
      exact ⟨.self hanswer, .self hanswer⟩
    have hfirst := memberWithin_decides_step hs hshape (fun x hx w => (hpart x hx w).2) v
    exact hfirst.unique (memberWithin_decides_step hs hshape (fun x hx w => (hpart x hx w).1) v)

/-- A value belongs to a type if it does by the shape of the type. -/
theorem WellFormed.belongs_iff {shape : Shape} (hshape : s.shape h = .ok shape) :
    s.Belongs h v ↔ s.BelongsBy s.Belongs v shape := by
  have hcontains := Linked.contains_of_shape hshape
  have hrank := hs.linked.rank_le_size h
  rw [Belongs, member,
    hs.memberWithin_eq (s.size + 1) (s.size + 1 + 1) hcontains (by omega) (by omega)]
  refine (memberWithin_decides_step hs hshape (fun x hx w => ?_) v).eq_true_iff
  exact .self (member_answered hs (hs.descends hshape hx).1 w)

end Unfolding

section Rules

variable {belongs : Handle → Value → Prop}

/-- A type whose components are all compared has a component with the value, if it has the value. -/
private theorem exists_part_of_allLeft (hrule : left.layer.rule right.layer = .allLeft)
    (hv : s.BelongsBy belongs v left) : ∃ x ∈ left.parts, belongs x v := by
  cases left with
  | annotated label inner => exact ⟨inner, List.mem_cons_self, hv⟩
  | union members => exact hv
  | _ => cases right <;> cases hrule

/-- A type of which one component is compared has the value in all of them. -/
private theorem forall_part_of_anyLeft (hrule : left.layer.rule right.layer = .anyLeft)
    (hv : s.BelongsBy belongs v left) : ∀ x ∈ left.parts, belongs x v := by
  cases left with
  | intersection members => exact hv
  | _ => cases right <;> cases hrule

private theorem belongsBy_of_allRight (hrule : left.layer.rule right.layer = .allRight)
    (hv : ∀ y ∈ right.parts, belongs y v) : s.BelongsBy belongs v right := by
  cases right with
  | annotated label inner => exact hv inner List.mem_cons_self
  | intersection members => exact hv
  | _ => cases left <;> cases hrule

private theorem belongsBy_of_anyRight (hrule : left.layer.rule right.layer = .anyRight)
    (hv : ∃ y ∈ right.parts, belongs y v) : s.BelongsBy belongs v right := by
  cases right with
  | union members => exact hv
  | _ => cases left <;> cases hrule

end Rules

section Direct

private theorem isInstanceOfBase_eq_true_iff {base : Handle} :
    s.isInstanceOfBase base v = .ok true ↔
      ∃ node name, s.node base = .ok node ∧ node.name? = some name ∧
        s.isInstance v name = true := by
  rw [isInstanceOfBase]
  cases hnode : s.node base with
  | error e => simp [bind, Except.bind]
  | ok node => cases hname : node.name? <;> simp [bind, Except.bind, pure, Except.pure, hname]

/-- A value other than nil that belongs to a generic type is an instance of its base. Arrays and
hashes that are looked into have the built-in classes. -/
theorem Linked.isInstanceOfBase_of_belongs (hs : s.Linked) {belongs : Handle → Value → Prop}
    {base : Handle} {params : List Handle} (hnil : v.isNil = false)
    (hv : s.BelongsByParams belongs v base params) : s.isInstanceOfBase base v = .ok true := by
  have hself : ∀ name : Name, s.hierarchy.isDescendant name name = true := fun name =>
    Hierarchy.isDescendant_iff.mpr .refl
  unfold BelongsByParams at hv
  split at hv
  · cases hnil
  · split at hv
    next items element hbase =>
      rw [hbase, isInstanceOfBase_eq_true_iff]
      exact ⟨_, _, node_of_slot (hs.builtin .arrayClass (by decide)), rfl, hself _⟩
    next => exact hv
  · split at hv
    next pairs key value hbase =>
      rw [hbase, isInstanceOfBase_eq_true_iff]
      exact ⟨_, _, node_of_slot (hs.builtin .hashClass (by decide)), rfl, hself _⟩
    next => exact hv
  · exact hv

/-- A value other than nil is an instance of the class by which its type is below others. -/
theorem Linked.isInstance_of_class (hs : s.Linked) {belongs : Handle → Value → Prop} {name : Name}
    (hnil : v.isNil = false) (hclass : s.classOf? left = .ok (some name))
    (hv : s.BelongsBy belongs v left) : s.isInstance v name = true := by
  cases left with
  | nominal name' =>
    cases hclass
    exact hv.resolve_left (by simp [hnil])
  | symbol name' =>
    cases hclass
    rw [BelongsBy] at hv
    rw [hv]
    exact Hierarchy.isDescendant_iff.mpr .refl
  | generic base params =>
    obtain ⟨node, name', hnode, hname, hinstance⟩ :=
      isInstanceOfBase_eq_true_iff.mp (hs.isInstanceOfBase_of_belongs hnil hv)
    rw [classOf?, hnode] at hclass
    have hsame : some name = some name' := (Except.ok.inj hclass).symm.trans hname
    cases hsame
    exact hinstance
  | _ => cases hclass

/-- What belongs to a generic type belongs to one over the same base, perhaps in another store, if
that is so of the components of the two types and of the value. -/
theorem belongsByParams_of_forall₂ {t : Store} {belongs belongs' : Handle → Value → Prop}
    {base : Handle} {as bs : List Handle}
    (hbase : s.isInstanceOfBase base v = .ok true → t.isInstanceOfBase base v = .ok true)
    (hparams : List.Forall₂ (fun x y => ∀ w ∈ v.components, belongs x w → belongs' y w) as bs)
    (hleft : s.BelongsByParams belongs v base as) : t.BelongsByParams belongs' v base bs := by
  cases v with
  | nil => trivial
  | array items =>
    cases hparams with
    | nil => exact hbase hleft
    | cons hfirst hrest =>
      cases hrest with
      | nil =>
        rw [BelongsByParams] at hleft ⊢
        split
        next hbase =>
          rw [if_pos hbase] at hleft
          exact fun item hitem => hfirst item hitem (hleft item hitem)
        next hother =>
          rw [if_neg hother] at hleft
          exact hbase hleft
      | cons _ _ => exact hbase hleft
  | hash pairs =>
    cases hparams with
    | nil => exact hbase hleft
    | cons hfirst hrest =>
      cases hrest with
      | nil => exact hbase hleft
      | cons hsecond hrest =>
        cases hrest with
        | nil =>
          rw [BelongsByParams] at hleft ⊢
          split
          next hbase =>
            rw [if_pos hbase] at hleft
            intro pair hpair
            have hcomponent : ∀ w ∈ [pair.1, pair.2], w ∈ (Value.hash pairs).components :=
              fun w hw => List.mem_flatMap.mpr ⟨pair, hpair, hw⟩
            obtain ⟨hkey, hvalue⟩ := hleft pair hpair
            exact ⟨hfirst _ (hcomponent _ (by simp)) hkey,
              hsecond _ (hcomponent _ (by simp)) hvalue⟩
          next hother =>
            rw [if_neg hother] at hleft
            exact hbase hleft
        | cons _ _ => exact hbase hleft
  | _ => exact hbase hleft

/-- Two types that are compared directly: what belongs to the first belongs to the second. -/
theorem Linked.belongsBy_of_direct (hs : s.Linked) {belongs : Handle → Value → Prop}
    {below : Handle → Handle → Prop} (hv : v.NilFree)
    (hpart : ∀ x ∈ left.parts, ∀ y ∈ right.parts, below x y →
      ∀ w, w.NilFree → belongs x w → belongs y w)
    (hfound : s.DirectFinding below (fun x y => ¬ below x y) left right true)
    (hleft : s.BelongsBy belongs v left) : s.BelongsBy belongs v right := by
  cases right with
  | nominal ancestor =>
    have hclass : s.belowClass left ancestor = .ok true := by
      cases left <;> exact hfound
    obtain ⟨name, hname, hdescends⟩ := belowClass_eq_true_iff.mp hclass
    have hinstance := hs.isInstance_of_class hv.isNil_eq_false hname hleft
    exact .inr (Hierarchy.isDescendant_trans hinstance hdescends)
  | generic base bs =>
    cases left with
    | generic base' as =>
      obtain ⟨rfl, hparams⟩ := hfound
      refine belongsByParams_of_forall₂ id ?_ hleft
      rw [List.forall₂_iff_zip] at hparams ⊢
      refine ⟨hparams.1, fun {x y} hxy w hw => ?_⟩
      have hmem := List.of_mem_zip hxy
      exact hpart x (List.mem_cons_of_mem _ hmem.1) y (List.mem_cons_of_mem _ hmem.2)
        (hparams.2 hxy).1 w (hv.component hw)
    | _ => exact Bool.noConfusion hfound
  | _ => cases left <;> exact Bool.noConfusion hfound

end Direct

/-- A value in which nil does not occur belongs to every type above one that it belongs to. The
induction is on the handles of the two types, whose components are older, for all values at once. -/
theorem WellFormed.belongs_of_below (hs : s.WellFormed) (ha : s.IsTupleFree a)
    (hb : s.IsTupleFree b) (hab : s.Below a b) (hv : v.NilFree) (hmember : s.Belongs a v) :
    s.Belongs b v := by
  induction hn : a.index + b.index using Nat.strong_induction_on generalizing a b v with
  | _ n ih =>
    obtain ⟨left, hleft, -⟩ := hs.shape_of_tupleFree ha
    obtain ⟨right, hright, -⟩ := hs.shape_of_tupleFree hb
    have hasks : ∀ {x y}, s.Asks a b x y → s.Below x y → ∀ w, w.NilFree → s.Belongs x w →
        s.Belongs y w := by
      intro x y hxy hbelow w hw hx
      obtain ⟨hxfree, hyfree, hlt⟩ := hs.tupleFree_of_asks ha hb hxy
      exact ih _ (by omega) hxfree hyfree hbelow hw hx rfl
    have hby := (hs.belongs_iff hleft).mp hmember
    rcases (hs.below_iff ha hb hleft hright).mp hab with (rfl | rfl | rfl) | hfound
    · exact hmember
    · exact (hs.belongs_iff hs.linked.tupleFree_top.2).mpr trivial
    · have hnil : v.isNil = true := (hs.belongs_iff hs.linked.tupleFree_nil.2).mp hmember
      rw [hv.isNil_eq_false] at hnil
      cases hnil
    rw [hs.belongs_iff hright]
    cases hrule : left.layer.rule right.layer <;> rw [hrule] at hfound
    case allLeft =>
      obtain ⟨x, hx, hxv⟩ := exists_part_of_allLeft hrule hby
      have hbv := hasks (.left ⟨left, hleft, hx⟩) (hfound x hx) v hv hxv
      exact (hs.belongs_iff hright).mp hbv
    case anyLeft =>
      obtain ⟨x, hx, hxb⟩ := hfound
      have hxv := forall_part_of_anyLeft hrule hby x hx
      exact (hs.belongs_iff hright).mp (hasks (.left ⟨left, hleft, hx⟩) hxb v hv hxv)
    case allRight =>
      refine belongsBy_of_allRight hrule fun y hy => ?_
      exact hasks (.right ⟨right, hright, hy⟩) (hfound y hy) v hv hmember
    case anyRight =>
      obtain ⟨y, hy, hay⟩ := hfound
      exact belongsBy_of_anyRight hrule
        ⟨y, hy, hasks (.right ⟨right, hright, hy⟩) hay v hv hmember⟩
    case direct =>
      refine hs.linked.belongsBy_of_direct hv (fun x hx y hy => ?_) hfound hby
      exact hasks (.both ⟨left, hleft, hx⟩ ⟨right, hright, hy⟩)

end Store

/-- In a reachable store, whatever its class hierarchy, a value in which nil does not occur belongs
to each type that is found above one of its types, provided that no tuple occurs in the two types.
The search leaves the store as it is. -/
theorem Reachable.member_of_subtype {s t : Store} {a b : Handle} {v : Value} (hs : Reachable s)
    (ha : s.IsTupleFree a) (hb : s.IsTupleFree b) (hv : v.NilFree)
    (hab : Store.subtype a b s = .ok true t) (hmember : s.member a v = .ok true) :
    t = s ∧ s.member b v = .ok true := by
  have hwf := hs.wellFormed
  obtain ⟨answer, hrun⟩ := hwf.subtype_quiet ha hb
  rw [hab] at hrun
  cases hrun
  exact ⟨rfl, hwf.belongs_of_below ha hb hab hv hmember⟩

/-- An array of an integer and a string belongs to the array type over their union, which is below
the class of all objects. -/
theorem pairStore_array_member :
    let v := Value.array [.int 1, .str "one"]
    Reachable pairStore ∧ pairStore.IsTupleFree ⟨10⟩ ∧ pairStore.IsTupleFree ⟨11⟩ ∧ v.NilFree ∧
      pairStore.member ⟨10⟩ v = .ok true ∧ pairStore.member ⟨11⟩ v = .ok true := by
  intro v
  have harray : pairStore.IsTupleFree ⟨10⟩ := by decide +kernel
  have hobject : pairStore.IsTupleFree ⟨11⟩ := by decide +kernel
  have hv : v.NilFree := by
    refine .array fun item hitem => ?_
    simp only [List.mem_cons, List.not_mem_nil, or_false] at hitem
    rcases hitem with rfl | rfl
    · exact .int 1
    · exact .str "one"
  have hmember : pairStore.member ⟨10⟩ v = .ok true := by decide +kernel
  have hanswer : (Store.subtype ⟨10⟩ ⟨11⟩).run' pairStore = some true := by decide +kernel
  obtain ⟨t, hrun⟩ := exists_run_of_run' hanswer
  exact ⟨reachable_pairStore, harray, hobject, hv, hmember,
    (Reachable.member_of_subtype reachable_pairStore harray hobject hv hrun hmember).2⟩

end GradualTypes
