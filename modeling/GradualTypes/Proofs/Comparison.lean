import GradualTypes.Store.Subtyping
import GradualTypes.Proofs.Equality
import GradualTypes.Proofs.Runs

/-!
How two types are compared, one step at a time. The outermost layers of the two types decide the
rule: annotations are taken off first, then unions on the left and intersections on the right are
taken apart, where every component must compare, and only then unions on the right and intersections
on the left, where one component suffices. Two types that are none of these are compared directly.
-/

namespace GradualTypes

/-- The outermost layer of a type, as far as it decides how the type is compared. -/
inductive Layer where
  | annotated
  | union
  | intersection
  | plain
  deriving DecidableEq, Repr

def Shape.layer : Shape → Layer
  | annotated _ _ => .annotated
  | union _ => .union
  | intersection _ => .intersection
  | _ => .plain

/-- How two types are compared: all or some of the components of one side with the other side, or
the two types themselves. -/
inductive Rule where
  | allLeft
  | allRight
  | anyRight
  | anyLeft
  | direct
  deriving DecidableEq, Repr

def Layer.rule : Layer → Layer → Rule
  | annotated, _ => .allLeft
  | _, annotated => .allRight
  | union, _ => .allLeft
  | _, intersection => .allRight
  | _, union => .anyRight
  | intersection, _ => .anyLeft
  | plain, plain => .direct

namespace Store

variable {s : Store}

section Rules

def belowDirect (below : Handle → Handle → StoreM Bool) (left right : Shape) : StoreM Bool :=
  match left, right with
  | .generic base as, .generic base' bs =>
    if base = base' then
      Lifting.pointwise (fun x y => do if ← below x y then below y x else return false) as bs
    else return false
  | left, .nominal ancestor => ask (·.belowClass left ancestor)
  | _, _ => return false

private theorem allM_singleton {α : Type} (f : α → StoreM Bool) (x : α) : [x].allM f = f x := by
  rw [List.allM_cons]
  conv => rhs; rw [← bind_pure (f x)]
  congr 1
  funext answer
  cases answer with
  | true => rfl
  | false => rfl

/-- One step of the search takes the rule for the layers of the two types. An annotated type has one
component, so that for annotations all and some are the same. -/
theorem belowShapes_eq (below : Handle → Handle → StoreM Bool) (a : Handle) (left : Shape)
    (b : Handle) (right : Shape) :
    belowShapes below a left b right =
      match left.layer.rule right.layer with
      | .allLeft => left.parts.allM (below · b)
      | .allRight => right.parts.allM (below a ·)
      | .anyRight => right.parts.anyM (below a ·)
      | .anyLeft => left.parts.anyM (below · b)
      | .direct => belowDirect below left right := by
  cases left with
  | annotated label inner => exact (allM_singleton (below · b) inner).symm
  | union members =>
    cases right with
    | annotated label inner => exact (allM_singleton (below a ·) inner).symm
    | _ => rfl
  | intersection members =>
    cases right with
    | annotated label inner => exact (allM_singleton (below a ·) inner).symm
    | _ => rfl
  | _ =>
    cases right with
    | annotated label inner => exact (allM_singleton (below a ·) inner).symm
    | _ => rfl

end Rules

def DirectFinding (s : Store) (yes no : Handle → Handle → Prop) (left right : Shape) :
    Bool → Prop :=
  match left, right with
  | .generic base as, .generic base' bs => fun answer =>
    if answer then base = base' ∧ List.Forall₂ (fun x y => yes x y ∧ yes y x) as bs
    else base ≠ base' ∨ as.length ≠ bs.length ∨
      ∃ pair ∈ as.zip bs, no pair.1 pair.2 ∨ yes pair.1 pair.2 ∧ no pair.2 pair.1
  | left, .nominal ancestor => fun answer => s.belowClass left ancestor = .ok answer
  | _, _ => fun answer => answer = false

/-- What is found by one step of the search when it gives an answer. Of each pair of types that the
step asks for, `yes` is known after a positive answer and `no` after a negative one. -/
def Finding (s : Store) (yes no : Handle → Handle → Prop) (a : Handle) (left : Shape) (b : Handle)
    (right : Shape) (answer : Bool) : Prop :=
  match left.layer.rule right.layer with
  | .allLeft => if answer then ∀ x ∈ left.parts, yes x b else ∃ x ∈ left.parts, no x b
  | .allRight => if answer then ∀ y ∈ right.parts, yes a y else ∃ y ∈ right.parts, no a y
  | .anyRight => if answer then ∃ y ∈ right.parts, yes a y else ∀ y ∈ right.parts, no a y
  | .anyLeft => if answer then ∃ x ∈ left.parts, yes x b else ∀ x ∈ left.parts, no x b
  | .direct => s.DirectFinding yes no left right answer

section Steps

variable {below : Handle → Handle → StoreM Bool} {R : Store → Store → Prop} [IsPreorder Store R]
  {yes no : Handle → Handle → Prop} {a b : Handle} {left right : Shape}

theorem belowClass_answered (hs : s.Linked) (hleft : s.shape a = .ok left) (ancestor : Name) :
    ∃ answer, s.belowClass left ancestor = .ok answer := by
  have hclass : ∃ class?, s.classOf? left = .ok class? := by
    cases left with
    | generic base params =>
      obtain ⟨slot, hslot⟩ :=
        exists_slot (hs.contains_of_refersTo ⟨_, hleft, List.mem_cons_self⟩)
      exact ⟨_, by rw [classOf?, node_of_slot hslot]; rfl⟩
    | _ => exact ⟨_, rfl⟩
  obtain ⟨class?, hclass⟩ := hclass
  rw [belowClass, hclass]
  cases class? with
  | none => exact ⟨_, rfl⟩
  | some name => exact ⟨_, rfl⟩

private theorem belowDirect_returns (hs : s.Linked) (hleft : s.shape a = .ok left)
    (hright : s.shape b = .ok right)
    (hbelow : ∀ x y, s.Asks a b x y → ∀ t, R s t →
      Returns (below x y) t fun answer u => R t u ∧ if answer then yes x y else no x y) :
    Returns (belowDirect below left right) s fun answer t =>
      R s t ∧ DirectFinding s yes no left right answer := by
  unfold belowDirect
  split
  · next base as base' bs =>
    rw [DirectFinding]
    split
    next hbase =>
      have hboth : ∀ x ∈ as, ∀ y ∈ bs, ∀ t, R s t →
          Returns (do if ← below x y then below y x else pure false) t fun answer u =>
            R t u ∧ if answer then yes x y ∧ yes y x else no x y ∨ yes x y ∧ no y x := by
        intro x hx y hy t hst
        have hax : s.RefersTo a x := ⟨_, hleft, List.mem_cons_of_mem base hx⟩
        have hby : s.RefersTo b y := ⟨_, hright, List.mem_cons_of_mem base' hy⟩
        exact (hbelow x y (.both hax hby) t hst).and_then fun u htu _ =>
          hbelow y x (.swapped hax hby) u (IsTrans.trans _ _ _ hst htu)
      refine (Returns.pointwise hboth).mono fun answer t hpost => ⟨hpost.1, ?_⟩
      have hfound := hpost.2
      cases answer with
      | true => exact ⟨hbase, hfound⟩
      | false => exact .inr hfound
    next hbase => exact .pure ⟨Std.Refl.refl s, .inl hbase⟩
  · next ancestor =>
    obtain ⟨answer, hanswer⟩ := belowClass_answered hs hleft ancestor
    rw [DirectFinding]
    exact ⟨answer, s, ask_run hanswer, Std.Refl.refl s, hanswer⟩
  · rw [DirectFinding]
    · exact .pure ⟨Std.Refl.refl s, rfl⟩
    all_goals assumption

/-- One step of the search ends with a finding if each of its questions does. -/
theorem belowShapes_returns (hs : s.Linked) (hleft : s.shape a = .ok left)
    (hright : s.shape b = .ok right)
    (hbelow : ∀ x y, s.Asks a b x y → ∀ t, R s t →
      Returns (below x y) t fun answer u => R t u ∧ if answer then yes x y else no x y) :
    Returns (belowShapes below a left b right) s fun answer t =>
      R s t ∧ Finding s yes no a left b right answer := by
  rw [belowShapes_eq]
  unfold Finding
  cases left.layer.rule right.layer with
  | allLeft => exact .allM fun x hx => hbelow x b (.left ⟨left, hleft, hx⟩)
  | allRight => exact .allM fun y hy => hbelow a y (.right ⟨right, hright, hy⟩)
  | anyRight => exact .anyM fun y hy => hbelow a y (.right ⟨right, hright, hy⟩)
  | anyLeft => exact .anyM fun x hx => hbelow x b (.left ⟨left, hleft, hx⟩)
  | direct => exact belowDirect_returns hs hleft hright hbelow

end Steps

end Store

end GradualTypes
