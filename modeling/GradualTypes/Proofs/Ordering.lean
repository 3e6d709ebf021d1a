import GradualTypes.Proofs.Names

/-!
The order of types. A type has its place by its kind, then by the types it refers to, taken from
left to right, and last by the text of its name. Read in this way the comparison is lexicographic at
every level, so it is a total preorder whatever the store holds. It depends on nothing that changes
later: not on the states of tuples, and not on types and names that are added.
-/

namespace GradualTypes

/-- Comparing what a function gives for two elements is as lawful as the comparison itself. -/
theorem transCmp_comap {α β : Type} (f : α → β) (cmp : β → β → Ordering) [Std.TransCmp cmp] :
    Std.TransCmp fun x y => cmp (f x) (f y) where
  eq_swap := Std.OrientedCmp.eq_swap
  isLE_trans := Std.TransCmp.isLE_trans

/-- Lists compare alike by comparisons that agree on their elements. -/
theorem compareLex_congr {α : Type} {cmp cmp' : α → α → Ordering} {as bs : List α}
    (h : ∀ a ∈ as, ∀ b ∈ bs, cmp a b = cmp' a b) :
    List.compareLex cmp as bs = List.compareLex cmp' as bs := by
  induction as generalizing bs with
  | nil => cases bs <;> rfl
  | cons a as ih =>
    cases bs with
    | nil => rfl
    | cons b bs =>
      have htail : List.compareLex cmp as bs = List.compareLex cmp' as bs := by
        apply ih
        intro x hx y hy
        exact h x (List.mem_cons_of_mem a hx) y (List.mem_cons_of_mem b hy)
      simp [List.compareLex_cons_cons, h a List.mem_cons_self b List.mem_cons_self, htail]

/-- Lists compare equal only position by position. -/
theorem forall₂_of_compareLex_eq {α : Type} {cmp : α → α → Ordering} {as bs : List α}
    (h : List.compareLex cmp as bs = .eq) : List.Forall₂ (fun a b => cmp a b = .eq) as bs := by
  induction as generalizing bs with
  | nil =>
    cases bs with
    | nil => exact .nil
    | cons b bs => cases h
  | cons a as ih =>
    cases bs with
    | nil => cases h
    | cons b bs =>
      rw [List.compareLex_cons_cons, Ordering.then_eq_eq] at h
      exact .cons h.1 (ih h.2)

/-- A comparison of lists whose elements can be compared has an answer. -/
private theorem Lifting.lexicographic_eq {α : Type} {cmp : α → α → Except Error Ordering}
    {place : α → α → Ordering} {as bs : List α}
    (h : ∀ a ∈ as, ∀ b ∈ bs, cmp a b = .ok (place a b)) :
    lexicographic cmp as bs = .ok (List.compareLex place as bs) := by
  induction as generalizing bs with
  | nil => cases bs <;> rfl
  | cons a as ih =>
    cases bs with
    | nil => rfl
    | cons b bs =>
      have htail : lexicographic cmp as bs = .ok (List.compareLex place as bs) := by
        apply ih
        intro x hx y hy
        exact h x (List.mem_cons_of_mem a hx) y (List.mem_cons_of_mem b hy)
      rw [lexicographic, h a List.mem_cons_self b List.mem_cons_self, List.compareLex_cons_cons]
      cases place a b with
      | eq => exact htail
      | lt => rfl
      | gt => rfl

namespace Store

variable {s t : Store} {a b : Handle}

def label (s : Store) (node : Node) : String :=
  (node.name?.bind s.names.text?).getD ""

/-- Places two nodes by their kinds, then by the types they refer to, then by their labels. -/
def placeNodes (s : Store) (place : Handle → Handle → Ordering) : Node → Node → Ordering :=
  compareLex (compareOn fun node => node.kind.rank)
    (compareLex (fun left right => List.compareLex place left.refs right.refs)
      (compareOn s.label))

/-- The node at a handle. A handle that is no type of the store is taken for the top. -/
def nodeAt (s : Store) (h : Handle) : Node :=
  ((s.slot? h).map Slot.node).getD .top

def placeWithin (s : Store) : Nat → Handle → Handle → Ordering
  | 0, _, _ => .eq
  | depth + 1, a, b => s.placeNodes (s.placeWithin depth) (s.nodeAt a) (s.nodeAt b)

def place (s : Store) (a b : Handle) : Ordering :=
  s.placeWithin (s.size + 1) a b

theorem nodeAt_of_slot {slot : Slot} (hslot : s.slot? a = some slot) : s.nodeAt a = slot.node := by
  simp [nodeAt, hslot]

section Laws

/-- Nodes of one kind are placed by what they refer to and then by their labels. -/
private theorem placeNodes_of_kind {place : Handle → Handle → Ordering} {left right : Node}
    (hkind : left.kind = right.kind) : s.placeNodes place left right =
      (List.compareLex place left.refs right.refs).then (compareOn s.label left right) := by
  simp [placeNodes, compareLex, compareOn, hkind]

private theorem transCmp_placeNodes (s : Store) (place : Handle → Handle → Ordering)
    [Std.TransCmp place] : Std.TransCmp (s.placeNodes place) := by
  have hrefs := transCmp_comap Node.refs (List.compareLex place)
  exact inferInstanceAs (Std.TransCmp (compareLex _ (compareLex _ _)))

private theorem transCmp_placeWithin (s : Store) (depth : Nat) :
    Std.TransCmp (s.placeWithin depth) := by
  induction depth with
  | zero => exact { eq_swap := rfl, isLE_trans := fun _ _ => rfl }
  | succ depth ih =>
    have hnodes := s.transCmp_placeNodes (s.placeWithin depth)
    exact transCmp_comap s.nodeAt (s.placeNodes (s.placeWithin depth))

/-- Types are placed by a total preorder. -/
instance (s : Store) : Std.TransCmp s.place :=
  s.transCmp_placeWithin (s.size + 1)

end Laws

section Answers

private theorem orderNames_eq {left right : Node} {x y : Name} {text text' : String}
    (hleft : left.name? = some x) (hright : right.name? = some y)
    (hx : s.names.text? x = some text) (hy : s.names.text? y = some text') :
    s.orderNames x y = .ok (compareOn s.label left right) := by
  simp [orderNames, NameTable.text, hx, hy, compareOn, label, hleft, hright, bind, Except.bind,
    pure, Except.pure]

/-- One step of the comparison places two nodes if the components are placed and names have
texts. -/
theorem orderNodes_eq {cmp : Handle → Handle → Except Error Ordering}
    {place : Handle → Handle → Ordering} {left right : Node}
    (hrefs : ∀ x ∈ left.refs, ∀ y ∈ right.refs, cmp x y = .ok (place x y))
    (hleft : ∀ x, left.name? = some x → ∃ text, s.names.text? x = some text)
    (hright : ∀ y, right.name? = some y → ∃ text, s.names.text? y = some text) :
    s.orderNodes cmp left right = .ok (s.placeNodes place left right) := by
  have hlex := Lifting.lexicographic_eq hrefs
  have hnames : ∀ {x y}, left.name? = some x → right.name? = some y →
      s.orderNames x y = .ok (compareOn s.label left right) := by
    intro x y hx hy
    obtain ⟨text, htext⟩ := hleft x hx
    obtain ⟨text', htext'⟩ := hright y hy
    exact orderNames_eq hx hy htext htext'
  have hlists : left.kind = right.kind → s.label left = s.label right →
      Lifting.lexicographic cmp left.refs right.refs = .ok (s.placeNodes place left right) := by
    intro hkind hlabel
    simp [hlex, placeNodes_of_kind hkind, compareOn, hlabel]
  cases left <;> cases right
  case nominal.nominal => exact hnames rfl rfl
  case symbol.symbol => exact hnames rfl rfl
  case var.var => exact hnames rfl rfl
  case generic.generic => exact hlists rfl rfl
  case tuple.tuple => exact hlists rfl rfl
  case union.union => exact hlists rfl rfl
  case intersection.intersection => exact hlists rfl rfl
  case annotated.annotated label x label' y =>
    have hinner := hrefs x List.mem_cons_self y List.mem_cons_self
    have hplace : s.placeNodes place (.annotated label x) (.annotated label' y) =
        (place x y).then (compareOn s.label (.annotated label x) (.annotated label' y)) := by
      rw [placeNodes_of_kind (by rfl)]
      simp [Node.refs, List.compareLex_cons_cons, List.compareLex_nil_nil]
    rw [orderNodes, hinner, hplace]
    cases place x y with
    | eq => exact hnames rfl rfl
    | lt => rfl
    | gt => rfl
  all_goals rfl

theorem orderWithin_succ (s : Store) (depth : Nat) (a b : Handle) :
    s.orderWithin (depth + 1) a b =
      if a = b then .ok .eq
      else (do s.orderNodes (s.orderWithin depth) (← s.node a) (← s.node b)) := rfl

section Sound

variable (hst : s.Retains t) (hnames : s.names.Keeps t.names) (hs : s.Linked) (hnamed : s.Named)
include hs hnamed

include hst hnames in
/-- Components are older than the types they belong to, so the comparison goes down the handles. It
needs nothing of a later store but that it holds the same types and names. -/
theorem orderWithin_eq (depth : Nat) (ha : s.contains a) (hb : s.contains b)
    (hdepth : a.index < depth) : t.orderWithin depth a b = .ok (t.placeWithin depth a b) := by
  induction depth generalizing a b with
  | zero => omega
  | succ depth ih =>
    obtain ⟨left, hleft⟩ := exists_slot ha
    obtain ⟨right, hright⟩ := exists_slot hb
    have htext : ∀ {h slot}, s.slot? h = some slot →
        ∀ x, slot.node.name? = some x → ∃ text, t.names.text? x = some text := by
      intro h slot hslot x hx
      obtain ⟨text, htext⟩ := hnamed hslot hx
      exact ⟨text, hnames htext⟩
    have hnodes : t.orderNodes (t.orderWithin depth) left.node right.node =
        .ok (t.placeNodes (t.placeWithin depth) left.node right.node) := by
      apply orderNodes_eq
      · intro x hx y hy
        have hlt := hs.refs_lt hleft x hx
        exact ih (hs.contains_of_refs hleft hx) (hs.contains_of_refs hright hy) (by omega)
      · exact htext hleft
      · exact htext hright
    rw [orderWithin_succ, node_of_slot (hst.slots hleft), node_of_slot (hst.slots hright)]
    split
    next hab =>
      have hlaws := t.transCmp_placeWithin (depth + 1)
      have hself : t.placeWithin (depth + 1) b b = .eq := Std.ReflCmp.compare_self
      rw [hab, hself]
    next =>
      rw [placeWithin, nodeAt_of_slot (hst.slots hleft), nodeAt_of_slot (hst.slots hright)]
      exact hnodes

/-- Any two types of the store can be ordered, and they are ordered by their places. -/
theorem order_eq (ha : s.contains a) (hb : s.contains b) : s.order a b = .ok (s.place a b) := by
  have hlt := contains_iff.mp ha
  exact orderWithin_eq (.refl s) (.refl s.names) hs hnamed _ ha hb (by omega)

end Sound

end Answers

section Growth

/-- Nodes keep their labels when names are added. -/
theorem label_eq {slot : Slot} (hnames : s.names.Keeps t.names) (hnamed : s.Named)
    (hslot : s.slot? a = some slot) : t.label slot.node = s.label slot.node := by
  cases hname : slot.node.name? with
  | none => simp [label, hname]
  | some name =>
    obtain ⟨text, htext⟩ := hnamed hslot hname
    simp [label, hname, htext, hnames htext]

variable (hst : s.Retains t) (hnames : s.names.Keeps t.names) (hs : s.Linked) (hnamed : s.Named)
include hst hnames hs hnamed

/-- Places are the same in every later store, by any walk that is deep enough. -/
theorem placeWithin_eq (m n : Nat) (ha : s.contains a) (hb : s.contains b) (hm : a.index < m)
    (hn : a.index < n) : t.placeWithin n a b = s.placeWithin m a b := by
  induction m generalizing n a b with
  | zero => omega
  | succ m ih =>
    obtain ⟨n, rfl⟩ := Nat.exists_eq_succ_of_ne_zero (Nat.ne_zero_of_lt hn)
    obtain ⟨left, hleft⟩ := exists_slot ha
    obtain ⟨right, hright⟩ := exists_slot hb
    have hrefs : List.compareLex (t.placeWithin n) left.node.refs right.node.refs =
        List.compareLex (s.placeWithin m) left.node.refs right.node.refs := by
      apply compareLex_congr
      intro x hx y hy
      have hlt := hs.refs_lt hleft x hx
      exact ih n (hs.contains_of_refs hleft hx) (hs.contains_of_refs hright hy) (by omega)
        (by omega)
    simp [placeWithin, placeNodes, compareLex, compareOn, nodeAt_of_slot hleft,
      nodeAt_of_slot hright, nodeAt_of_slot (hst.slots hleft), nodeAt_of_slot (hst.slots hright),
      hrefs, label_eq hnames hnamed hleft, label_eq hnames hnamed hright]

theorem place_eq (ha : s.contains a) (hb : s.contains b) : t.place a b = s.place a b := by
  have hlt := contains_iff.mp ha
  have hle := hst.size_le
  exact placeWithin_eq hst hnames hs hnamed _ _ ha hb (by omega) (by omega)

/-- The order of two types is the same in every later store. -/
theorem order_eq_of_retains (ha : s.contains a) (hb : s.contains b) :
    t.order a b = s.order a b := by
  have hlt := contains_iff.mp ha
  have hle := hst.size_le
  have hlater : t.order a b = .ok (t.place a b) :=
    orderWithin_eq hst hnames hs hnamed _ ha hb (by omega)
  rw [hlater, place_eq hst hnames hs hnamed ha hb, order_eq hs hnamed ha hb]

end Growth

/-- One step of the order: types are placed by the places of what they refer to. -/
theorem place_step {left right : Slot} (hs : s.Linked) (hnamed : s.Named)
    (hleft : s.slot? a = some left) (hright : s.slot? b = some right) :
    s.place a b = s.placeNodes s.place left.node right.node := by
  have ha := contains_of_slot hleft
  have hlt := contains_iff.mp ha
  have hdeeper : s.place a b = s.placeWithin (s.size + 1 + 1) a b :=
    placeWithin_eq (.refl s) (.refl s.names) hs hnamed _ _ ha (contains_of_slot hright) (by omega)
      (by omega)
  rw [hdeeper, placeWithin, nodeAt_of_slot hleft, nodeAt_of_slot hright]
  rfl

end Store

end GradualTypes
