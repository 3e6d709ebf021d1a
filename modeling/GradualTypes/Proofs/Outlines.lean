import GradualTypes.Proofs.Answers
import GradualTypes.Proofs.Ordering

/-!
Outlines: what a type looks like without its store. An outline has a kind, the text of a name and
the outlines of what the type refers to; it knows neither handles nor the states of tuples. Outlines
have a total order and a text of their own, and the order of types is that of their outlines. A type
keeps its outline in every later store.
-/

namespace GradualTypes

/-- How a type of a kind is written, given the text of its name and the texts of what it refers to.
The base of a generic type comes first. -/
def Kind.write (kind : Kind) (label : String) (parts : List String) : String :=
  match kind with
  | top => "%any"
  | nil => "nil"
  | wildcard => "*"
  | nominal | symbol => label
  | var => ":" ++ label
  | generic => parts.headD "" ++ "<" ++ ", ".intercalate parts.tail ++ ">"
  | tuple => "[" ++ ", ".intercalate parts ++ "]"
  | union => "(" ++ " or ".intercalate parts ++ ")"
  | intersection => "(" ++ " and ".intercalate parts ++ ")"
  | annotated => parts.headD "" ++ " " ++ label

/-- What a type looks like: its kind, its name and the outlines of what it refers to. -/
structure Outline where
  kind : Kind
  label : String
  parts : List Outline

namespace Outline

variable {a b : Outline}

private theorem sizeOf_lt_of_part {part : Outline} (hpart : part ∈ a.parts) :
    sizeOf part < sizeOf a := by
  obtain ⟨kind, label, parts⟩ := a
  have hlt : sizeOf part < sizeOf parts := List.sizeOf_lt_of_mem hpart
  simp only [Outline.mk.sizeOf_spec]
  omega

section Text

mutual

def text : Outline → String
  | ⟨kind, label, parts⟩ => kind.write label (texts parts)

def texts : List Outline → List String
  | [] => []
  | o :: os => text o :: texts os

end

theorem texts_eq (os : List Outline) : texts os = os.map text := by
  induction os with
  | nil => rfl
  | cons o os ih => rw [texts, ih, List.map_cons]

end Text

section Order

mutual

def order : Outline → Outline → Ordering
  | ⟨kind, label, parts⟩, ⟨kind', label', parts'⟩ =>
    (compare kind.rank kind'.rank).then ((orderAll parts parts').then (compare label label'))

def orderAll : List Outline → List Outline → Ordering
  | [], [] => .eq
  | [], _ :: _ => .lt
  | _ :: _, [] => .gt
  | a :: as, b :: bs => (order a b).then (orderAll as bs)

end

private theorem orderAll_eq (as bs : List Outline) :
    orderAll as bs = List.compareLex order as bs := by
  induction as generalizing bs with
  | nil => cases bs <;> rfl
  | cons a as ih =>
    cases bs with
    | nil => rfl
    | cons b bs => rw [orderAll, ih, List.compareLex_cons_cons]

theorem order_eq (a b : Outline) : a.order b =
    (compare a.kind.rank b.kind.rank).then
      ((List.compareLex order a.parts b.parts).then (compare a.label b.label)) := by
  obtain ⟨kind, label, parts⟩ := a
  obtain ⟨kind', label', parts'⟩ := b
  rw [order, orderAll_eq]

def orderWithin : Nat → Outline → Outline → Ordering
  | 0 => fun _ _ => .eq
  | depth + 1 =>
    compareLex (compareOn fun o => o.kind.rank)
      (compareLex (fun a b => List.compareLex (orderWithin depth) a.parts b.parts)
        (compareOn Outline.label))

private theorem transCmp_orderWithin (depth : Nat) : Std.TransCmp (orderWithin depth) := by
  induction depth with
  | zero => exact { eq_swap := rfl, isLE_trans := fun _ _ => rfl }
  | succ depth ih =>
    have hparts := transCmp_comap Outline.parts (List.compareLex (orderWithin depth))
    exact inferInstanceAs (Std.TransCmp (compareLex _ (compareLex _ _)))

theorem orderWithin_eq (depth : Nat) (a b : Outline) (hdepth : sizeOf a ≤ depth) :
    orderWithin depth a b = a.order b := by
  induction depth generalizing a b with
  | zero =>
    obtain ⟨kind, label, parts⟩ := a
    simp at hdepth
  | succ depth ih =>
    have hparts : List.compareLex (orderWithin depth) a.parts b.parts =
        List.compareLex order a.parts b.parts := by
      apply compareLex_congr
      intro x hx y hy
      have hlt := sizeOf_lt_of_part hx
      exact ih x y (by omega)
    rw [order_eq, ← hparts]
    rfl

/-- Any outlines can be compared at one depth, where the comparison is known to be lawful. -/
instance : Std.TransCmp order where
  eq_swap {a b} := by
    have hlaws := transCmp_orderWithin (sizeOf a + sizeOf b)
    rw [← orderWithin_eq (sizeOf a + sizeOf b) a b (by omega),
      ← orderWithin_eq (sizeOf a + sizeOf b) b a (by omega)]
    exact Std.OrientedCmp.eq_swap
  isLE_trans {a b c} hab hbc := by
    have hlaws := transCmp_orderWithin (sizeOf a + sizeOf b)
    rw [← orderWithin_eq (sizeOf a + sizeOf b) _ _ (by omega)] at hab hbc ⊢
    exact Std.TransCmp.isLE_trans hab hbc

/-- Only equal outlines are at one place. -/
theorem eq_of_order (h : a.order b = .eq) : a = b := by
  induction hn : sizeOf a using Nat.strong_induction_on generalizing a b with
  | _ n ih =>
    rw [order_eq] at h
    simp only [Ordering.then_eq_eq] at h
    obtain ⟨hrank, hparts, hlabel⟩ := h
    have hkind : a.kind = b.kind := Kind.rank_injective _ _ (Nat.compare_eq_eq.mp hrank)
    have hlabel : a.label = b.label := Std.LawfulEqCmp.eq_of_compare hlabel
    have hparts : List.Forall₂ Eq a.parts b.parts := by
      refine forall₂_imp_of_mem (forall₂_of_compareLex_eq hparts) fun x hx y hy hxy => ?_
      have hlt := sizeOf_lt_of_part hx
      exact ih (sizeOf x) (by omega) hxy rfl
    rw [List.forall₂_eq_eq_eq] at hparts
    obtain ⟨kind, label, parts⟩ := a
    obtain ⟨kind', label', parts'⟩ := b
    rw [Outline.mk.injEq]
    exact ⟨hkind, hlabel, hparts⟩

instance : Std.LawfulEqCmp order where
  compare_self := Std.ReflCmp.compare_self
  eq_of_compare := eq_of_order

instance : DecidableEq Outline := fun a b =>
  decidable_of_iff (a.order b = .eq) Std.LawfulEqCmp.compare_eq_iff_eq

def Ascending (os : List Outline) : Prop :=
  os.Pairwise fun a b => a.order b = .lt

theorem Ascending.of_sorted {os : List Outline} (hsorted : os.Pairwise fun a b => (a.order b).isLE)
    (hnodup : os.Nodup) : Ascending os := by
  refine (hsorted.and hnodup).imp fun {a b} hab => ?_
  obtain ⟨hle, hne⟩ := hab
  cases horder : a.order b with
  | lt => rfl
  | eq => exact absurd (eq_of_order horder) hne
  | gt => simp [horder] at hle

/-- Ascending lists of the same outlines are the same. -/
theorem Ascending.eq_of_mem_iff {as bs : List Outline} (has : Ascending as) (hbs : Ascending bs)
    (hmem : ∀ o, o ∈ as ↔ o ∈ bs) : as = bs := by
  have hirrefl : Std.Irrefl fun a b : Outline => a.order b = .lt := by
    refine ⟨fun a ha => ?_⟩
    have hself : a.order a = .eq := Std.ReflCmp.compare_self
    rw [hself] at ha
    cases ha
  have hantisymm : Std.Antisymm fun a b : Outline => a.order b = .lt := by
    refine ⟨fun a b hab hba => ?_⟩
    have hswap : a.order b = (b.order a).swap := Std.OrientedCmp.eq_swap
    rw [hswap, hba] at hab
    cases hab
  exact List.Pairwise.eq_of_mem_iff has hbs hmem

end Order

end Outline

namespace Store

variable {s t : Store} {a b : Handle}

def outlineWithin (s : Store) : Nat → Handle → Outline
  | 0, _ => ⟨.top, "", []⟩
  | depth + 1, h =>
    ⟨(s.nodeAt h).kind, s.label (s.nodeAt h), (s.nodeAt h).refs.map (s.outlineWithin depth)⟩

/-- The outline of a type. Promotion does not show in it: a tuple has its own elements. -/
def outline (s : Store) (h : Handle) : Outline :=
  s.outlineWithin (s.size + 1) h

section Order

private theorem compareLex_map {α β : Type} (f : α → β) (cmp : β → β → Ordering) (as bs : List α) :
    List.compareLex cmp (as.map f) (bs.map f) =
      List.compareLex (fun x y => cmp (f x) (f y)) as bs := by
  induction as generalizing bs with
  | nil => cases bs <;> rfl
  | cons a as ih =>
    cases bs with
    | nil => rfl
    | cons b bs =>
      rw [List.map_cons, List.map_cons, List.compareLex_cons_cons, List.compareLex_cons_cons, ih]

private theorem placeWithin_eq_order (s : Store) (depth : Nat) (a b : Handle) :
    s.placeWithin depth a b = (s.outlineWithin depth a).order (s.outlineWithin depth b) := by
  induction depth generalizing a b with
  | zero => exact Std.ReflCmp.compare_self.symm
  | succ depth ih =>
    have hplace : s.placeWithin depth =
        fun x y => (s.outlineWithin depth x).order (s.outlineWithin depth y) := by
      funext x y
      exact ih x y
    rw [Outline.order_eq, outlineWithin, outlineWithin, compareLex_map, ← hplace]
    rfl

/-- Types are placed as their outlines are. -/
theorem place_eq_order (s : Store) (a b : Handle) :
    s.place a b = (s.outline a).order (s.outline b) :=
  s.placeWithin_eq_order (s.size + 1) a b

/-- Types are at one place exactly if they have one outline. -/
theorem place_eq_eq_iff : s.place a b = .eq ↔ s.outline a = s.outline b := by
  rw [place_eq_order]
  exact Std.LawfulEqCmp.compare_eq_iff_eq

end Order

section Growth

variable (hst : s.Retains t) (hnames : s.names.Keeps t.names) (hs : s.Linked) (hnamed : s.Named)
include hst hnames hs hnamed

/-- Outlines are the same in every later store, by any walk that is deep enough. -/
theorem outlineWithin_eq (m n : Nat) (ha : s.contains a) (hm : a.index < m) (hn : a.index < n) :
    t.outlineWithin n a = s.outlineWithin m a := by
  induction m generalizing n a with
  | zero => omega
  | succ m ih =>
    obtain ⟨n, rfl⟩ := Nat.exists_eq_succ_of_ne_zero (Nat.ne_zero_of_lt hn)
    obtain ⟨slot, hslot⟩ := exists_slot ha
    have hparts : slot.node.refs.map (t.outlineWithin n) =
        slot.node.refs.map (s.outlineWithin m) := by
      apply List.map_congr_left
      intro x hx
      have hlt := hs.refs_lt hslot x hx
      exact ih n (hs.contains_of_refs hslot hx) (by omega) (by omega)
    rw [outlineWithin, outlineWithin, nodeAt_of_slot hslot, nodeAt_of_slot (hst.slots hslot),
      label_eq hnames hnamed hslot, hparts]

theorem outline_eq (ha : s.contains a) : t.outline a = s.outline a := by
  have hlt := contains_iff.mp ha
  have hle := hst.size_le
  exact outlineWithin_eq hst hnames hs hnamed _ _ ha (by omega) (by omega)

end Growth

/-- The outline of a type is made of those of what it refers to. -/
theorem outline_step {slot : Slot} (hs : s.Linked) (hnamed : s.Named)
    (hslot : s.slot? a = some slot) :
    s.outline a = ⟨slot.node.kind, s.label slot.node, slot.node.refs.map s.outline⟩ := by
  have ha := contains_of_slot hslot
  have hlt := contains_iff.mp ha
  have hdeeper : s.outline a = s.outlineWithin (s.size + 1 + 1) a :=
    outlineWithin_eq (.refl s) (.refl s.names) hs hnamed _ _ ha (by omega) (by omega)
  rw [hdeeper, outlineWithin, nodeAt_of_slot hslot]
  rfl

end Store

end GradualTypes
