import GradualTypes.Proofs.Answers
import GradualTypes.Proofs.Growth

/-!
Equality of types as a walk. One step of the walk compares two shapes and leaves their components to
a relation. This module says what the step decides and that in a store without cycles the walk
always comes to an answer.
-/

namespace GradualTypes

/-- What one step of the comparison decides when a relation settles the components. -/
def SameShapes (same : Handle → Handle → Prop) (a : Handle) (left : Shape) (b : Handle)
    (right : Shape) : Prop :=
  match left, right with
  | .promoted array, _ => same array b
  | _, .promoted array => same a array
  | .tuple as, .tuple bs => List.Forall₂ same as bs
  | .generic base as, .generic base' bs => base = base' ∧ List.Forall₂ same as bs
  | .union as, .union bs | .intersection as, .intersection bs =>
    (∀ x ∈ as, ∃ y ∈ bs, same x y) ∧ ∀ y ∈ bs, ∃ x ∈ as, same y x
  | .annotated label x, .annotated label' y => label = label' ∧ same x y
  | _, _ => False

/-- A question asked only under a decidable condition. -/
theorem Decides.guarded {c p : Prop} [Decidable c] {question : Except Error Bool}
    (h : Decides question p) : Decides (if c then question else .ok false) (c ∧ p) := by
  by_cases hc : c
  · rw [if_pos hc]
    exact h.congr (by simp [hc])
  · rw [if_neg hc]
    exact ⟨false, rfl, by simp [hc]⟩

/-- A question asked only if a decidable condition has not settled it. -/
theorem Decides.unless {c p : Prop} [Decidable c] {question : Except Error Bool}
    (h : Decides question p) : Decides (if c then .ok true else question) (c ∨ p) := by
  by_cases hc : c
  · rw [if_pos hc]
    exact ⟨true, rfl, by simp [hc]⟩
  · rw [if_neg hc]
    exact h.congr (by simp [hc])

/-- The step decides the comparison if the relation decides each pair that the step may ask for: a
component of one side with the whole other side, and two components either way round. -/
private theorem equalShapes_decides {rel : Handle → Handle → Except Error Bool}
    {same : Handle → Handle → Prop} {a b : Handle} {left right : Shape}
    (hleft : ∀ x ∈ left.parts, Decides (rel x b) (same x b))
    (hright : ∀ y ∈ right.parts, Decides (rel a y) (same a y))
    (hboth : ∀ x ∈ left.parts, ∀ y ∈ right.parts,
      Decides (rel x y) (same x y) ∧ Decides (rel y x) (same y x)) :
    Decides (equalShapes rel a left b right) (SameShapes same a left b right) := by
  unfold equalShapes
  split
  · rw [SameShapes]
    exact hleft _ List.mem_cons_self
  · rw [SameShapes]
    · exact hright _ List.mem_cons_self
    · assumption
  · rw [SameShapes]
    exact .pointwise fun x hx y hy => (hboth x hx y hy).1
  · next base as base' bs =>
    rw [SameShapes]
    refine Decides.guarded (.pointwise fun x hx y hy => ?_)
    exact (hboth x (List.mem_cons_of_mem base hx) y (List.mem_cons_of_mem base' hy)).1
  · rw [SameShapes]
    exact .sameSet (fun x hx y hy => (hboth x hx y hy).1) fun y hy x hx => (hboth x hx y hy).2
  · rw [SameShapes]
    exact .sameSet (fun x hx y hy => (hboth x hx y hy).1) fun y hy x hx => (hboth x hx y hy).2
  · rw [SameShapes]
    exact Decides.guarded (hboth _ List.mem_cons_self _ List.mem_cons_self).1
  · rw [SameShapes]
    · exact ⟨false, rfl, by simp⟩
    all_goals assumption

namespace Store

variable {s : Store} {a b : Handle}

theorem equalWithin_succ (s : Store) (depth : Nat) (a b : Handle) :
    s.equalWithin (depth + 1) a b =
      if a = b then .ok true
      else (do equalShapes (s.equalWithin depth) a (← s.shape a) b (← s.shape b)) := rfl

theorem equal_self (s : Store) (h : Handle) : s.equal h h = .ok true := by
  rw [equal, equalWithin_succ, if_pos rfl]

theorem refersTo_of_mem {shape : Shape} (hshape : s.shape a = .ok shape) (hb : b ∈ shape.parts) :
    s.RefersTo a b :=
  ⟨shape, hshape, hb⟩

inductive Asks (s : Store) (a b : Handle) : Handle → Handle → Prop where
  | left {x : Handle} : s.RefersTo a x → Asks s a b x b
  | right {y : Handle} : s.RefersTo b y → Asks s a b a y
  | both {x y : Handle} : s.RefersTo a x → s.RefersTo b y → Asks s a b x y
  | swapped {x y : Handle} : s.RefersTo a x → s.RefersTo b y → Asks s a b y x

/-- What the comparison decides after one more step. -/
theorem equalWithin_decides_step {depth : Nat} {same : Handle → Handle → Prop}
    {left right : Shape} (hleft : s.shape a = .ok left) (hright : s.shape b = .ok right)
    (hsub : ∀ x y, s.Asks a b x y → Decides (s.equalWithin depth x y) (same x y)) :
    Decides (s.equalWithin (depth + 1) a b) (a = b ∨ SameShapes same a left b right) := by
  rw [equalWithin_succ]
  by_cases hab : a = b
  · rw [if_pos hab]
    exact ⟨true, rfl, by simp [hab]⟩
  · rw [if_neg hab, hleft, hright]
    have hstep : Decides (equalShapes (s.equalWithin depth) a left b right)
        (SameShapes same a left b right) := by
      apply equalShapes_decides
      · intro x hx
        exact hsub x b (.left (refersTo_of_mem hleft hx))
      · intro y hy
        exact hsub a y (.right (refersTo_of_mem hright hy))
      · intro x hx y hy
        have hax := refersTo_of_mem hleft hx
        have hby := refersTo_of_mem hright hy
        exact ⟨hsub x y (.both hax hby), hsub y x (.swapped hax hby)⟩
    exact hstep.congr (by simp [hab])

section Sound

variable (hs : s.Linked) (hacyclic : s.Acyclic)
include hs hacyclic

/-- The pairs that one step asks for are types of the store, and of smaller rank together. -/
theorem Asks.descends (ha : s.contains a) (hb : s.contains b) {x y : Handle}
    (hxy : s.Asks a b x y) :
    s.contains x ∧ s.contains y ∧ s.rank x + s.rank y < s.rank a + s.rank b := by
  cases hxy with
  | left hx =>
    have hlt := hs.rank_lt hacyclic hx
    exact ⟨hs.contains_of_refersTo hx, hb, by omega⟩
  | right hy =>
    have hlt := hs.rank_lt hacyclic hy
    exact ⟨ha, hs.contains_of_refersTo hy, by omega⟩
  | both hx hy =>
    have hltx := hs.rank_lt hacyclic hx
    have hlty := hs.rank_lt hacyclic hy
    exact ⟨hs.contains_of_refersTo hx, hs.contains_of_refersTo hy, by omega⟩
  | swapped hx hy =>
    have hltx := hs.rank_lt hacyclic hx
    have hlty := hs.rank_lt hacyclic hy
    exact ⟨hs.contains_of_refersTo hy, hs.contains_of_refersTo hx, by omega⟩

/-- A comparison that may nest deeper than the two ranks together has an answer. -/
theorem equalWithin_answered (depth : Nat) (ha : s.contains a) (hb : s.contains b)
    (hdepth : s.rank a + s.rank b < depth) :
    ∃ answer, s.equalWithin depth a b = .ok answer := by
  induction depth generalizing a b with
  | zero => omega
  | succ depth ih =>
    obtain ⟨left, hleft⟩ := hs.exists_shape ha
    obtain ⟨right, hright⟩ := hs.exists_shape hb
    refine (equalWithin_decides_step hleft hright fun x y hxy => .self ?_).answered
    obtain ⟨hx, hy, hlt⟩ := hxy.descends hs hacyclic ha hb
    exact ih hx hy (by omega)

/-- Any two types of the store can be compared. -/
theorem equal_answered (ha : s.contains a) (hb : s.contains b) :
    ∃ answer, s.equal a b = .ok answer := by
  have hranka := hs.rank_le_size a
  have hrankb := hs.rank_le_size b
  exact equalWithin_answered hs hacyclic _ ha hb (by omega)

/-- Any two lists of types can be compared as sets. -/
theorem equalSets_decides {as bs : List Handle} (has : ∀ x ∈ as, s.contains x)
    (hbs : ∀ y ∈ bs, s.contains y) :
    Decides (s.equalSets as bs)
      ((∀ x ∈ as, ∃ y ∈ bs, s.equal x y = .ok true) ∧ ∀ y ∈ bs, ∃ x ∈ as, s.equal y x = .ok true) :=
  .sameSet (fun x hx y hy => .self (equal_answered hs hacyclic (has x hx) (hbs y hy)))
    fun y hy x hx => .self (equal_answered hs hacyclic (hbs y hy) (has x hx))

end Sound

end Store

end GradualTypes
