import GradualTypes.Proofs.Equality

/-!
How deep types nest. The depth of a type is that of its deepest component plus one, except that a
promoted tuple is as deep as the array type it stands for. Equal types have the same depth, however
they were made, and no type below another is deeper. This is what keeps a tuple out of its own array
type: the union of its elements may be an older one that holds other, equal elements, but those
still nest less deep than the tuple.
-/

namespace GradualTypes

/-- One more than the largest depth of some types, and zero if there are none. -/
def deepest (depth : Handle → Nat) (types : List Handle) : Nat :=
  (types.map fun x => depth x + 1).foldr max 0

private theorem deepest_le_iff {depth : Handle → Nat} {types : List Handle} {n : Nat} :
    deepest depth types ≤ n ↔ ∀ x ∈ types, depth x < n := by
  induction types with
  | nil => simp [deepest]
  | cons x rest ih =>
    have hcons : deepest depth (x :: rest) = max (depth x + 1) (deepest depth rest) := rfl
    rw [hcons, max_le_iff, ih, List.forall_mem_cons]
    rfl

theorem lt_deepest {depth : Handle → Nat} {types : List Handle} {x : Handle} (hx : x ∈ types) :
    depth x < deepest depth types :=
  deepest_le_iff.mp le_rfl x hx

/-- Lists that cover each other in depth are equally deep. -/
private theorem deepest_le_of_covered {depth : Handle → Nat} {as bs : List Handle}
    (h : ∀ x ∈ as, ∃ y ∈ bs, depth x = depth y) : deepest depth as ≤ deepest depth bs := by
  rw [deepest_le_iff]
  intro x hx
  obtain ⟨y, hy, hxy⟩ := h x hx
  rw [hxy]
  exact lt_deepest hy

private theorem deepest_eq_of_forall₂ {depth : Handle → Nat} {as bs : List Handle}
    (h : List.Forall₂ (fun x y => depth x = depth y) as bs) :
    deepest depth as = deepest depth bs := by
  induction h with
  | nil => rfl
  | @cons x y as bs hxy _ ih =>
    have hleft : deepest depth (x :: as) = max (depth x + 1) (deepest depth as) := rfl
    have hright : deepest depth (y :: bs) = max (depth y + 1) (deepest depth bs) := rfl
    rw [hleft, hright, hxy, ih]

private theorem deepest_congr {f g : Handle → Nat} {types : List Handle}
    (h : ∀ x ∈ types, f x = g x) : deepest f types = deepest g types := by
  have hmap : (types.map fun x => f x + 1) = types.map fun x => g x + 1 :=
    List.map_congr_left fun x hx => by rw [h x hx]
  rw [deepest, deepest, hmap]

def Shape.depthBy (depth : Handle → Nat) : Shape → Nat
  | promoted array => depth array
  | shape => deepest depth shape.parts

private theorem Shape.depthBy_congr {f g : Handle → Nat} {shape : Shape}
    (h : ∀ x ∈ shape.parts, f x = g x) : shape.depthBy f = shape.depthBy g := by
  cases shape with
  | promoted array => exact h array (by simp [parts])
  | _ => exact deepest_congr h

/-- A component is never deeper than the shape it belongs to. -/
private theorem Shape.le_depthBy {depth : Handle → Nat} {shape : Shape} {x : Handle}
    (hx : x ∈ shape.parts) : depth x ≤ shape.depthBy depth := by
  cases shape with
  | promoted array =>
    rw [List.mem_singleton.mp hx]
    exact le_rfl
  | _ => exact (lt_deepest hx).le

/-- Shapes that agree up to the depth of their components are equally deep. -/
theorem SameShapes.depthBy_eq {depth : Handle → Nat} {a b : Handle} {left right : Shape}
    (ha : depth a = left.depthBy depth) (hb : depth b = right.depthBy depth)
    (h : SameShapes (fun x y => depth x = depth y) a left b right) : depth a = depth b := by
  unfold SameShapes at h
  split at h
  · rw [ha]
    exact h
  · rw [hb]
    exact h
  · rw [ha, hb]
    exact deepest_eq_of_forall₂ h
  · obtain ⟨rfl, hparams⟩ := h
    rw [ha, hb]
    exact deepest_eq_of_forall₂ (.cons rfl hparams)
  · rw [ha, hb]
    exact le_antisymm (deepest_le_of_covered h.1) (deepest_le_of_covered h.2)
  · rw [ha, hb]
    exact le_antisymm (deepest_le_of_covered h.1) (deepest_le_of_covered h.2)
  · rw [ha, hb]
    exact deepest_eq_of_forall₂ (.cons h.2 .nil)
  · exact h.elim

/-- What holds of the components that a comparison looks at may be used in it. -/
theorem SameShapes.imp {same same' : Handle → Handle → Prop} {a b : Handle} {left right : Shape}
    (h : SameShapes same a left b right)
    (hleft : ∀ x ∈ left.parts, same x b → same' x b)
    (hright : ∀ y ∈ right.parts, same a y → same' a y)
    (hboth : ∀ x ∈ left.parts, ∀ y ∈ right.parts,
      (same x y → same' x y) ∧ (same y x → same' y x)) : SameShapes same' a left b right := by
  have hlists : ∀ {as bs : List Handle}, as ⊆ left.parts → bs ⊆ right.parts →
      List.Forall₂ same as bs → List.Forall₂ same' as bs := fun has hbs hab =>
    forall₂_imp_of_mem hab fun x hx y hy => (hboth x (has hx) y (hbs hy)).1
  unfold SameShapes at h ⊢
  split at h
  · exact hleft _ (by simp [Shape.parts]) h
  · exact hright _ (by simp [Shape.parts]) h
  · exact hlists (fun _ hx => hx) (fun _ hy => hy) h
  · exact ⟨h.1, hlists (List.subset_cons_self _ _) (List.subset_cons_self _ _) h.2⟩
  · exact ⟨fun x hx => (h.1 x hx).imp fun y hy => ⟨hy.1, (hboth x hx y hy.1).1 hy.2⟩,
      fun y hy => (h.2 y hy).imp fun x hx => ⟨hx.1, (hboth x hx.1 y hy).2 hx.2⟩⟩
  · exact ⟨fun x hx => (h.1 x hx).imp fun y hy => ⟨hy.1, (hboth x hx y hy.1).1 hy.2⟩,
      fun y hy => (h.2 y hy).imp fun x hx => ⟨hx.1, (hboth x hx.1 y hy).2 hx.2⟩⟩
  · exact ⟨h.1, (hboth _ (by simp [Shape.parts]) _ (by simp [Shape.parts])).1 h.2⟩
  · exact h.elim

/-- A comparison comes out the same by relations that agree on the components it looks at. -/
theorem SameShapes.congr {same same' : Handle → Handle → Prop} {a b : Handle} {left right : Shape}
    (hleft : ∀ x ∈ left.parts, (same x b ↔ same' x b))
    (hright : ∀ y ∈ right.parts, (same a y ↔ same' a y))
    (hboth : ∀ x ∈ left.parts, ∀ y ∈ right.parts,
      (same x y ↔ same' x y) ∧ (same y x ↔ same' y x)) :
    SameShapes same a left b right ↔ SameShapes same' a left b right := by
  constructor
  · intro h
    exact h.imp (fun x hx => (hleft x hx).mp) (fun y hy => (hright y hy).mp)
      fun x hx y hy => ⟨(hboth x hx y hy).1.mp, (hboth x hx y hy).2.mp⟩
  · intro h
    exact h.imp (fun x hx => (hleft x hx).mpr) (fun y hy => (hright y hy).mpr)
      fun x hx y hy => ⟨(hboth x hx y hy).1.mpr, (hboth x hx y hy).2.mpr⟩

namespace Store

variable {s : Store} {a b : Handle}

def depthWithin (s : Store) : Nat → Handle → Nat
  | 0, _ => 0
  | steps + 1, h =>
    match s.shape h with
    | .ok shape => shape.depthBy (depthWithin s steps)
    | .error _ => 0

def depth (s : Store) (h : Handle) : Nat :=
  s.depthWithin (s.size + 1) h

section Sound

variable (hs : s.Linked) (hacyclic : s.Acyclic)
include hs hacyclic

/-- All walks that go further down than the rank of a type find the same depth. -/
theorem depthWithin_eq {h : Handle} (m n : Nat) (hm : s.rank h < m) (hn : s.rank h < n) :
    s.depthWithin m h = s.depthWithin n h := by
  induction m generalizing n h with
  | zero => omega
  | succ m ih =>
    obtain ⟨n, rfl⟩ := Nat.exists_eq_succ_of_ne_zero (Nat.ne_zero_of_lt hn)
    simp only [depthWithin]
    cases hshape : s.shape h with
    | error e => rfl
    | ok shape =>
      apply Shape.depthBy_congr
      intro x hx
      have hlt := hs.rank_lt hacyclic (refersTo_of_mem hshape hx)
      exact ih n (by omega) (by omega)

/-- The depth of a type is that of its shape. -/
theorem depth_eq {h : Handle} {shape : Shape} (hshape : s.shape h = .ok shape) :
    s.depth h = shape.depthBy s.depth := by
  have hrank := hs.rank_le_size h
  rw [depth, depthWithin_eq hs hacyclic (s.size + 1) (s.size + 2) (by omega) (by omega),
    depthWithin, hshape]
  rfl

/-- Types below a type are not deeper than it. -/
theorem depth_le_of_below (hab : Relation.ReflTransGen s.RefersTo a b) : s.depth b ≤ s.depth a := by
  induction hab with
  | refl => exact le_rfl
  | tail _ hbc ih =>
    obtain ⟨shape, hshape, hc⟩ := hbc
    have hle : s.depth _ ≤ shape.depthBy s.depth := Shape.le_depthBy hc
    rw [← depth_eq hs hacyclic hshape] at hle
    exact hle.trans ih

private theorem depth_eq_of_equalWithin (steps : Nat) (ha : s.contains a) (hb : s.contains b)
    (hsteps : s.rank a + s.rank b < steps) (hab : s.equalWithin steps a b = .ok true) :
    s.depth a = s.depth b := by
  induction steps generalizing a b with
  | zero => omega
  | succ steps ih =>
    obtain ⟨left, hleft⟩ := hs.exists_shape ha
    obtain ⟨right, hright⟩ := hs.exists_shape hb
    have hstep : Decides (s.equalWithin (steps + 1) a b)
        (a = b ∨ SameShapes (fun x y => s.equalWithin steps x y = .ok true) a left b right) := by
      refine equalWithin_decides_step hleft hright fun x y hxy => .self ?_
      obtain ⟨hx, hy, hlt⟩ := hxy.descends hs hacyclic ha hb
      exact equalWithin_answered hs hacyclic steps hx hy (by omega)
    -- every pair the step asks for has smaller rank, so the induction hypothesis applies to it
    have hpair : ∀ {x y}, s.Asks a b x y → s.equalWithin steps x y = .ok true →
        s.depth x = s.depth y := by
      intro x y hxy heq
      obtain ⟨hx, hy, hlt⟩ := hxy.descends hs hacyclic ha hb
      exact ih hx hy (by omega) heq
    rcases hstep.eq_true_iff.mp hab with rfl | hshapes
    · rfl
    · apply SameShapes.depthBy_eq (depth_eq hs hacyclic hleft) (depth_eq hs hacyclic hright)
      apply hshapes.imp
      · intro x hx
        exact hpair (.left (refersTo_of_mem hleft hx))
      · intro y hy
        exact hpair (.right (refersTo_of_mem hright hy))
      · intro x hx y hy
        have hax := refersTo_of_mem hleft hx
        have hby := refersTo_of_mem hright hy
        exact ⟨hpair (.both hax hby), hpair (.swapped hax hby)⟩

/-- Equal types are equally deep. -/
theorem depth_eq_of_equal (ha : s.contains a) (hb : s.contains b) (hab : s.equal a b = .ok true) :
    s.depth a = s.depth b := by
  have hranka := hs.rank_le_size a
  have hrankb := hs.rank_le_size b
  exact depth_eq_of_equalWithin hs hacyclic _ ha hb (by omega) hab

end Sound

end Store

end GradualTypes
