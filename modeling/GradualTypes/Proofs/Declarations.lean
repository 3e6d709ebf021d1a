import GradualTypes.Proofs.Hierarchy
import GradualTypes.Proofs.Widening

/-!
Declarations of superclasses. A history of a store declares superclasses by the texts of their
names, perhaps for a class that has one already, and perhaps in circles. What the declarations come
to can be said without the store: a class has the superclass that was declared last, and the core
classes have theirs declared before all others. The hierarchy of the store holds exactly that, with
names for texts, and nothing else that is done to the store changes it. So the search for an
ancestor decides whether the way up along the last declarations leads there.
-/

namespace GradualTypes

section Last

variable {α : Type} [DecidableEq α]

/-- What the last of some declarations for a class declares. -/
def lastDeclared (calls : List (α × α)) (child : α) : Option α :=
  (calls.reverse.find? (fun call => call.1 = child)).map Prod.snd

private theorem lastDeclared_append_singleton (calls : List (α × α)) (call : α × α) (child : α) :
    lastDeclared (calls ++ [call]) child =
      if call.1 = child then some call.2 else lastDeclared calls child := by
  rw [lastDeclared, List.reverse_append, List.reverse_singleton, List.singleton_append,
    List.find?_cons]
  by_cases heq : call.1 = child <;> simp [heq, lastDeclared]

end Last

namespace Hierarchy

def ofDeclarations (pairs : List (Name × Name)) : Hierarchy :=
  pairs.foldl (fun t pair => t.declare pair.1 pair.2) {}

private theorem ofDeclarations_append_singleton (pairs : List (Name × Name)) (child parent : Name) :
    ofDeclarations (pairs ++ [(child, parent)]) = (ofDeclarations pairs).declare child parent := by
  rw [ofDeclarations, List.foldl_append]
  rfl

/-- The declaration that came last counts. -/
theorem parent?_ofDeclarations (pairs : List (Name × Name)) (child : Name) :
    (ofDeclarations pairs).parent? child = lastDeclared pairs child := by
  induction pairs using List.reverseRecOn with
  | nil => rfl
  | append_singleton pairs pair ih =>
    rw [ofDeclarations_append_singleton, lastDeclared_append_singleton]
    split
    next heq => rw [heq, parent?_declare_self]
    next hne => rw [parent?_declare_of_ne _ _ hne, ih]

end Hierarchy

namespace NameTable

variable {t t' : NameTable} {pairs : List (Name × Name)} {calls : List (String × String)}
  {child parent : Name}

/-- A declaration by names is the declaration by the texts of these names. -/
def Spells (t : NameTable) (pair : Name × Name) (call : String × String) : Prop :=
  t.text? pair.1 = some call.1 ∧ t.text? pair.2 = some call.2

private theorem Keeps.spells (ht : t.Keeps t') {pair : Name × Name} {call : String × String}
    (h : t.Spells pair call) : t'.Spells pair call :=
  ⟨ht h.1, ht h.2⟩

/-- Since a text has one name, a search by names finds what the search by their texts does. -/
private theorem IsOrderly.find?_spelled (ht : t.IsOrderly)
    (hall : List.Forall₂ t.Spells pairs calls) :
    (pairs.find? (fun pair => pair.1 = child)).map Prod.snd = some parent ↔
      ∃ text text', t.text? child = some text ∧ t.text? parent = some text' ∧
        (calls.find? (fun call => call.1 = text)).map Prod.snd = some text' := by
  induction hall with
  | nil => simp
  | @cons pair call _ _ hhead _ ih =>
    obtain ⟨hchild, hparent⟩ := hhead
    by_cases heq : pair.1 = child
    · subst heq
      have hfound : pair.2 = parent ↔ t.text? parent = some call.2 :=
        ⟨fun heq => heq ▸ hparent, fun htext => ht.eq_of_text? hparent htext⟩
      rw [List.find?_cons_of_pos (by simp), Option.map_some, Option.some.injEq, hfound]
      constructor
      · intro htext
        exact ⟨call.1, call.2, hchild, htext, by simp⟩
      · rintro ⟨text, text', htext, htext', hfind⟩
        rw [hchild] at htext
        cases htext
        rw [List.find?_cons_of_pos (by simp)] at hfind
        cases hfind
        exact htext'
    · have hskip : ∀ text, t.text? child = some text → call.1 ≠ text :=
        fun text htext heq' => heq (ht.eq_of_text? (heq' ▸ hchild) htext)
      rw [List.find?_cons_of_neg (by simpa using heq), ih]
      refine exists_congr fun text => exists_congr fun text' => and_congr_right fun htext => ?_
      rw [List.find?_cons_of_neg (by simpa using hskip text htext)]

private theorem IsOrderly.lastDeclared_spelled (ht : t.IsOrderly)
    (hall : List.Forall₂ t.Spells pairs calls) :
    lastDeclared pairs child = some parent ↔
      ∃ text text', t.text? child = some text ∧ t.text? parent = some text' ∧
        lastDeclared calls text = some text' :=
  ht.find?_spelled (List.forall₂_reverse_iff.mpr hall)

end NameTable

def CoreClass.lines : List (CoreClass × CoreClass) :=
  all.filterMap fun c => c.parent?.map fun parent => (c, parent)

def coreDeclarations : List (String × String) :=
  CoreClass.lines.map fun line => (line.1.text, line.2.text)

namespace Store

variable {s t : Store} {calls : List (String × String)}

def InheritsBy (s : Store) (calls : List (String × String)) (child parent : Name) : Prop :=
  ∃ text text', s.names.text? child = some text ∧ s.names.text? parent = some text' ∧
    lastDeclared calls text = some text'

def Records (s : Store) (calls : List (String × String)) : Prop :=
  ∃ pairs, s.hierarchy = .ofDeclarations pairs ∧ List.Forall₂ s.names.Spells pairs calls

namespace Records

theorem initial (hash : WordHash) : Records (.initial hash) coreDeclarations := by
  refine ⟨CoreClass.lines.map fun line => (line.1.name, line.2.name), rfl, ?_⟩
  rw [coreDeclarations, List.forall₂_map_left_iff, List.forall₂_map_right_iff]
  exact List.forall₂_same.mpr fun line _ =>
    ⟨NameTable.text?_core line.1, NameTable.text?_core line.2⟩

theorem declare (h : Records s calls) {child parent : Name} {text text' : String}
    (hchild : s.names.text? child = some text) (hparent : s.names.text? parent = some text') :
    Records { s with hierarchy := s.hierarchy.declare child parent }
      (calls ++ [(text, text')]) := by
  obtain ⟨pairs, hpairs, hall⟩ := h
  refine ⟨pairs ++ [(child, parent)], ?_, ?_⟩
  · rw [Hierarchy.ofDeclarations_append_singleton, ← hpairs]
  · exact List.rel_append hall (.cons ⟨hchild, hparent⟩ .nil)

private theorem parent?_iff (h : Records s calls) (hs : s.WellFormed) {child parent : Name} :
    s.hierarchy.parent? child = some parent ↔ s.InheritsBy calls child parent := by
  obtain ⟨pairs, hpairs, hall⟩ := h
  rw [hpairs, Hierarchy.parent?_ofDeclarations]
  exact hs.orderly.lastDeclared_spelled hall

end Records

private theorem Step.hierarchy_eq (hst : Step s t) (hs : s.WellFormed) :
    t.hierarchy = s.hierarchy := by
  cases hst with
  | add hadds =>
    obtain ⟨node, traits, digest, -, rfl⟩ := hadds
    exact hierarchy_allocate node traits digest
  | move hmove => exact hmove.shifts.hierarchy_eq hs
  | intern _ => rfl

private theorem Steps.hierarchy_eq (hst : Steps s t) (hs : s.WellFormed) :
    t.hierarchy = s.hierarchy := by
  induction hst with
  | refl => rfl
  | tail hsm hmt ih => exact (hmt.hierarchy_eq ((Steps.evolves hsm).wellFormed hs)).trans ih

/-- Steps leave the declarations and their texts as they are. -/
theorem Records.steps (h : Records s calls) (hst : Steps s t) (hs : s.WellFormed) :
    Records t calls := by
  obtain ⟨pairs, hpairs, hall⟩ := h
  have hkeeps := (hst.evolves.persists hs).names
  exact ⟨pairs, (hst.hierarchy_eq hs).trans hpairs, hall.imp fun _ _ => hkeeps.spells⟩

/-- A declaration enters both texts and then changes the hierarchy. If a text is refused, nothing is
declared. -/
private theorem declareSuperclass_cases (child parent : String) {s : Store}
    (hs : s.names.IsOrderly) :
    (∃ x y m, Steps s m ∧ m.names.text? x = some child ∧ m.names.text? y = some parent ∧
      declareSuperclass child parent s =
        .ok () { m with hierarchy := m.hierarchy.declare x y }) ∨
    ∃ e m, Steps s m ∧ declareSuperclass child parent s = .error e m := by
  cases hchild : s.names.intern child with
  | error e =>
    exact .inr ⟨e, s, .refl, bind_run_error (intern_run_error hchild)⟩
  | ok result =>
    obtain ⟨x, names⟩ := result
    have hstep : Step s { s with names } := .intern hchild
    rw [declareSuperclass, bind_run (intern_run hchild)]
    cases hparent : names.intern parent with
    | error e =>
      exact .inr ⟨e, { s with names }, .single hstep, bind_run_error (intern_run_error hparent)⟩
    | ok result =>
      obtain ⟨y, names'⟩ := result
      have hrun' : Store.intern parent { s with names } = .ok y { s with names := names' } :=
        intern_run (s := { s with names }) hparent
      have hstep' : Step { s with names } { s with names := names' } :=
        .intern (s := { s with names }) hparent
      refine .inl ⟨x, y, { s with names := names' }, .tail (.single hstep) hstep', ?_, ?_, ?_⟩
      · exact NameTable.Keeps.intern hparent (hs.text?_of_intern hchild)
      · exact (hs.intern hchild).text?_of_intern hparent
      · rw [bind_run hrun']
        rfl

end Store

/-- The stores that operations on known names can lead to, each with the declarations that were made
on the way. A declaration that is refused is none. -/
inductive Declares : List (String × String) → Store → Prop where
  | initial (hash : WordHash) : Declares [] (.initial hash)
  | declare {calls : List (String × String)} {s t : Store} {child parent : String} :
      Declares calls s → Store.declareSuperclass child parent s = .ok () t →
      Declares (calls ++ [(child, parent)]) t
  | other {calls : List (String × String)} {s : Store} (op : Operation) :
      Declares calls s → op.IsGrounded s →
      (op.isDeclaration = false ∨ ∃ e t, op.run s = .error e t) → Declares calls (op.apply s)

namespace Declares

variable {calls : List (String × String)} {s : Store}

private theorem apply_declaration {child parent : String} {t : Store}
    (hrun : Store.declareSuperclass child parent s = .ok () t) :
    (Operation.declareSuperclass child parent).apply s = t := by
  rw [Operation.apply, Operation.run, hrun]

private theorem declare_apply {child parent : String} (h : Declares calls s)
    (hrun : (Store.declareSuperclass child parent).run' s = some ()) :
    Declares (calls ++ [(child, parent)]) ((Operation.declareSuperclass child parent).apply s) := by
  obtain ⟨t, ht⟩ := exists_run_of_run' hrun
  rw [apply_declaration ht]
  exact h.declare ht

theorem reachable (h : Declares calls s) : Reachable s := by
  induction h with
  | initial hash => exact .initial hash
  | declare _ hrun ih =>
    rw [← apply_declaration hrun]
    exact .step _ ih trivial
  | other op _ hop _ ih => exact .step op ih hop

/-- The hierarchy of a store is what the declarations made of that of the core classes. -/
theorem records (h : Declares calls s) : s.Records (coreDeclarations ++ calls) := by
  induction h with
  | initial hash =>
    rw [List.append_nil]
    exact .initial hash
  | @declare calls s t child parent hs hrun ih =>
    have hwf := hs.reachable.wellFormed
    rcases Store.declareSuperclass_cases child parent hwf.orderly with
      ⟨x, y, m, hsm, hx, hy, hrun'⟩ | ⟨e, m, -, hrun'⟩
    · rw [hrun] at hrun'
      cases hrun'
      rw [← List.append_assoc]
      exact (ih.steps hsm hwf).declare hx hy
    · rw [hrun] at hrun'
      cases hrun'
  | @other calls s op hs hop hother ih =>
    have hwf := hs.reachable.wellFormed
    refine ih.steps ?_ hwf
    cases hdeclares : op.isDeclaration with
    | false => exact Operation.apply_of_leaves (op.run_steps hwf hop hdeclares)
    | true =>
      cases op with
      | declareSuperclass child parent =>
        obtain ⟨e, t, hrun⟩ := hother.resolve_left (by simp [hdeclares])
        rcases Store.declareSuperclass_cases child parent hwf.orderly with
          ⟨x, y, m, -, -, -, hrun'⟩ | ⟨e', m, hsm, hrun'⟩
        · rw [Operation.run, hrun'] at hrun
          cases hrun
        · rw [Operation.apply, Operation.run, hrun']
          exact hsm
      | _ => cases hdeclares

end Declares

/-- Every reachable store has a history of declarations. -/
theorem Reachable.exists_declares {s : Store} (hs : Reachable s) : ∃ calls, Declares calls s := by
  induction hs with
  | initial hash => exact ⟨[], .initial hash⟩
  | @step s op _ hop ih =>
    obtain ⟨calls, hcalls⟩ := ih
    cases hdeclares : op.isDeclaration with
    | false => exact ⟨calls, .other op hcalls hop (.inl hdeclares)⟩
    | true =>
      cases hrun : op.run s with
      | error e t => exact ⟨calls, .other op hcalls hop (.inr ⟨e, t, hrun⟩)⟩
      | ok answer t =>
        cases op with
        | declareSuperclass child parent =>
          rw [Operation.apply, hrun]
          exact ⟨calls ++ [(child, parent)], hcalls.declare hrun⟩
        | _ => cases hdeclares

/-- The search for an ancestor decides descent. Whatever superclasses were declared on the way to a
store, and whatever else was done, a class is found to descend from another exactly if the way up
along the last declarations leads there in some number of steps, none included. So every class
descends from itself, and descent is transitive. -/
theorem Reachable.isDescendant_decides {s : Store} (hs : Reachable s) :
    (∃ calls, Declares calls s) ∧
    (∀ calls, Declares calls s → ∀ child ancestor,
      s.hierarchy.isDescendant child ancestor = true ↔
        Relation.ReflTransGen (s.InheritsBy (coreDeclarations ++ calls)) child ancestor) ∧
    (∀ child, s.hierarchy.isDescendant child child = true) ∧
    ∀ child middle ancestor, s.hierarchy.isDescendant child middle = true →
      s.hierarchy.isDescendant middle ancestor = true →
      s.hierarchy.isDescendant child ancestor = true := by
  refine ⟨hs.exists_declares, fun calls hcalls child ancestor => ?_, fun child => ?_,
    fun _ _ _ => Hierarchy.isDescendant_trans⟩
  · have hparent : s.hierarchy.Extends = s.InheritsBy (coreDeclarations ++ calls) := by
      funext x y
      exact propext (hcalls.records.parent?_iff hs.wellFormed)
    rw [Hierarchy.isDescendant_iff, hparent]
  · exact Hierarchy.isDescendant_iff.mpr .refl

/-- Two classes below each other, one below the first of them, and a core class that is moved below
that one. -/
def tangledCalls : List (String × String) :=
  [("Cat", "Pet"), ("Pet", "Beast"), ("Beast", "Pet"), ("Integer", "Cat")]

def tangledStore : Store :=
  tangledCalls.foldl (fun s call => (Operation.declareSuperclass call.1 call.2).apply s) .initial

private theorem declares_tangledStore : Declares tangledCalls tangledStore :=
  ((((Declares.initial .mixing).declare_apply (by decide +kernel)).declare_apply
    (by decide +kernel)).declare_apply (by decide +kernel)).declare_apply (by decide +kernel)

/-- In `tangledStore` the way up from the integers enters the circle and reaches both classes of it.
The search for the numbers, above which the integers stood before, ends nevertheless. -/
theorem tangledStore_isDescendant_decides :
    Reachable tangledStore ∧ Declares tangledCalls tangledStore ∧
      tangledStore.names.find? "Beast" = some ⟨15, 2⟩ ∧
      Relation.ReflTransGen (tangledStore.InheritsBy (coreDeclarations ++ tangledCalls))
        CoreClass.integer.name ⟨15, 2⟩ ∧
      ¬ Relation.ReflTransGen (tangledStore.InheritsBy (coreDeclarations ++ tangledCalls))
        CoreClass.integer.name CoreClass.numeric.name := by
  have hs := declares_tangledStore.reachable
  obtain ⟨-, hdecides, -⟩ := Reachable.isDescendant_decides hs
  have hiff := hdecides tangledCalls declares_tangledStore
  refine ⟨hs, declares_tangledStore, by decide +kernel, (hiff _ _).mp (by decide +kernel), ?_⟩
  rw [← hiff]
  decide +kernel

end GradualTypes
