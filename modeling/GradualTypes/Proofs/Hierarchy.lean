import Mathlib
import GradualTypes.Hierarchy

/-!
Descent in the class hierarchy. A class descends from another if the way up along the declared
superclasses leads there. The search for an ancestor takes at most as many steps as there are
declarations, which is enough even when the declarations make a circle: a way up can leave out every
return to a class that it has left.
-/

namespace GradualTypes.Hierarchy

open Relation

variable {t : Hierarchy} {child ancestor : Name}

def Extends (t : Hierarchy) (child parent : Name) : Prop :=
  t.parent? child = some parent

/-- One step up from a class that is still to be left. -/
def Climbs (t : Hierarchy) (fresh : Finset Name) (child parent : Name) : Prop :=
  t.Extends child parent ∧ child ∈ fresh

private theorem reflTransGen_of_reaches {steps : Nat} (h : t.reaches steps child ancestor = true) :
    ReflTransGen t.Extends child ancestor := by
  induction steps generalizing child with
  | zero => cases h
  | succ steps ih =>
    rw [reaches] at h
    split at h
    next heq => rw [heq]
    next hne =>
      cases hparent : t.parent? child with
      | none =>
        rw [hparent] at h
        cases h
      | some parent =>
        rw [hparent] at h
        exact .head hparent (ih h)

private theorem reaches_succ_of_parent {steps : Nat} {parent : Name}
    (hparent : t.Extends child parent) (h : t.reaches steps parent ancestor = true) :
    t.reaches (steps + 1) child ancestor = true := by
  rw [reaches, hparent]
  split
  · rfl
  · exact h

private theorem reaches_mono {m n : Nat} (hmn : m ≤ n) (h : t.reaches m child ancestor = true) :
    t.reaches n child ancestor = true := by
  induction m generalizing n child with
  | zero => cases h
  | succ m ih =>
    obtain ⟨n, rfl⟩ := Nat.exists_eq_succ_of_ne_zero (Nat.ne_zero_of_lt hmn)
    rw [reaches] at h ⊢
    split at h
    next heq => rw [if_pos heq]
    next hne =>
      rw [if_neg hne]
      cases hparent : t.parent? child with
      | none =>
        rw [hparent] at h
        cases h
      | some parent =>
        rw [hparent] at h
        exact ih (Nat.le_of_succ_le_succ hmn) h

/-- A way up either never leaves a given class, or can be taken from the last time it does. -/
private theorem climbs_avoiding {fresh : Finset Name} (left : Name)
    (h : ReflTransGen (t.Climbs fresh) child ancestor) :
    ReflTransGen (t.Climbs (fresh.erase left)) child ancestor ∨
      ∃ parent, t.Extends left parent ∧
        ReflTransGen (t.Climbs (fresh.erase left)) parent ancestor := by
  induction h using ReflTransGen.head_induction_on with
  | refl => exact .inl .refl
  | @head child parent hstep _ ih =>
    rcases ih with havoid | hlast
    · by_cases heq : child = left
      · exact .inr ⟨parent, heq ▸ hstep.1, havoid⟩
      · exact .inl (.head ⟨hstep.1, Finset.mem_erase.mpr ⟨heq, hstep.2⟩⟩ havoid)
    · exact .inr hlast

/-- A way up needs no more steps than there are classes that it may leave. -/
private theorem reaches_of_climbs {fresh : Finset Name}
    (h : ReflTransGen (t.Climbs fresh) child ancestor) :
    t.reaches (fresh.card + 1) child ancestor = true := by
  induction hcard : fresh.card generalizing fresh child with
  | zero =>
    rcases ReflTransGen.cases_head h with heq | ⟨parent, hstep, -⟩
    · rw [reaches, if_pos heq]
    · rw [Finset.card_eq_zero.mp hcard] at hstep
      exact absurd hstep.2 (Finset.notMem_empty child)
  | succ card ih =>
    rcases ReflTransGen.cases_head h with heq | ⟨_, hstep, -⟩
    · rw [reaches, if_pos heq]
    · have hcard' : (fresh.erase child).card = card := by
        rw [Finset.card_erase_of_mem hstep.2, hcard, Nat.add_sub_cancel]
      rcases climbs_avoiding child h with havoid | ⟨parent, hparent, hrest⟩
      · exact reaches_mono (Nat.le_succ _) (ih havoid hcard')
      · exact reaches_succ_of_parent hparent (ih hrest hcard')

private theorem mem_entries_of_extends {parent : Name} (h : t.Extends child parent) :
    child ∈ t.entries.map Prod.fst := by
  obtain ⟨entry, hfind, -⟩ := Option.map_eq_some_iff.mp h
  have hchild : entry.1 = child := by simpa using List.find?_some hfind
  exact List.mem_map.mpr ⟨entry, List.mem_of_find?_eq_some hfind, hchild⟩

/-- The search finds an ancestor exactly if the declarations lead there, circles or not. -/
theorem isDescendant_iff :
    t.isDescendant child ancestor = true ↔ ReflTransGen t.Extends child ancestor := by
  refine ⟨reflTransGen_of_reaches, fun h => ?_⟩
  have hclimbs : ReflTransGen (t.Climbs (t.entries.map Prod.fst).toFinset) child ancestor :=
    h.lift id fun _ _ hstep => ⟨hstep, List.mem_toFinset.mpr (mem_entries_of_extends hstep)⟩
  have hcard : (t.entries.map Prod.fst).toFinset.card ≤ t.size := by
    rw [size, ← List.length_map Prod.fst]
    exact List.toFinset_card_le _
  exact reaches_mono (Nat.succ_le_succ hcard) (reaches_of_climbs hclimbs)

theorem isDescendant_trans {middle : Name} (h : t.isDescendant child middle = true)
    (h' : t.isDescendant middle ancestor = true) : t.isDescendant child ancestor = true :=
  isDescendant_iff.mpr ((isDescendant_iff.mp h).trans (isDescendant_iff.mp h'))

end GradualTypes.Hierarchy
