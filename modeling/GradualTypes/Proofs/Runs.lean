import Mathlib
import GradualTypes.Lifting
import GradualTypes.Store.Basic

/-!
Operations that come to an end. An operation returns, from a given store, when it ends without a
failure; a postcondition says what it returns and which store it leaves. The rules follow the way an
operation is put together, so that later proofs state what each part does and never look at how
results are passed on. In a loop every round may change the store, and the rules for loops carry a
preorder on stores from one round to the next.
-/

namespace GradualTypes

section Equations

variable {α β : Type} {op : StoreM α} {f : α → StoreM β} {s t : Store} {answer : α} {e : Error}

theorem bind_run (h : op s = .ok answer t) : (op >>= f) s = f answer t := by
  change EStateM.bind op f s = _
  rw [EStateM.bind, h]

theorem bind_run_error (h : op s = .error e t) : (op >>= f) s = .error e t := by
  change EStateM.bind op f s = _
  rw [EStateM.bind, h]

theorem ask_run {question : Store → Except Error α} (h : question s = .ok answer) :
    Store.ask question s = .ok answer s := by
  rw [Store.ask, h]

theorem ask_run_error {question : Store → Except Error α} (h : question s = .error e) :
    Store.ask question s = .error e s := by
  rw [Store.ask, h]

theorem intern_run {text : String} {name : Name} {names : NameTable}
    (h : s.names.intern text = .ok (name, names)) :
    Store.intern text s = .ok name { s with names } := by
  rw [Store.intern, h]

theorem intern_run_error {text : String} (h : s.names.intern text = .error e) :
    Store.intern text s = .error e s := by
  rw [Store.intern, h]

/-- A run of two operations is a run of the first and then one of the second. -/
theorem bind_run_eq_ok_iff {answer' : β} {u : Store} :
    (op >>= f) s = .ok answer' u ↔
      ∃ answer t, op s = .ok answer t ∧ f answer t = .ok answer' u := by
  cases hop : op s with
  | ok answer t =>
    rw [bind_run hop]
    refine ⟨fun hrun => ⟨answer, t, rfl, hrun⟩, ?_⟩
    rintro ⟨_, _, ⟨⟩, hrun⟩
    exact hrun
  | error e t =>
    rw [bind_run_error hop]
    refine ⟨nofun, ?_⟩
    rintro ⟨_, _, ⟨⟩, -⟩

theorem ask_run_eq_ok_iff {question : Store → Except Error α} :
    Store.ask question s = .ok answer t ↔ question s = .ok answer ∧ t = s := by
  cases hask : question s with
  | ok answer' =>
    rw [ask_run hask, EStateM.Result.ok.injEq, Except.ok.injEq, eq_comm (a := s)]
  | error e =>
    rw [ask_run_error hask]
    exact ⟨nofun, nofun⟩

theorem exists_run_of_run' (h : op.run' s = some answer) : ∃ t, op s = .ok answer t := by
  rw [EStateM.run', EStateM.run] at h
  cases hop : op s with
  | ok answer' t =>
    rw [hop] at h
    cases h
    exact ⟨t, rfl⟩
  | error e t =>
    rw [hop] at h
    cases h

end Equations

/-- The operation ends from `s` without a failure, and its answer and the store after it are as
described. -/
def Returns {α : Type} (op : StoreM α) (s : Store) (post : α → Store → Prop) : Prop :=
  ∃ answer t, op s = .ok answer t ∧ post answer t

namespace Returns

section Rules

variable {α β : Type} {op : StoreM α} {f : α → StoreM β} {s : Store}
  {post post' : α → Store → Prop} {after : β → Store → Prop}

theorem pure {answer : α} (h : post answer s) : Returns (Pure.pure answer) s post :=
  ⟨answer, s, rfl, h⟩

theorem mono (h : Returns op s post) (himp : ∀ answer t, post answer t → post' answer t) :
    Returns op s post' := by
  obtain ⟨answer, t, hrun, hpost⟩ := h
  exact ⟨answer, t, hrun, himp answer t hpost⟩

theorem of_run {answer : α} {t : Store} (h : Returns op s post) (hrun : op s = .ok answer t) :
    post answer t := by
  obtain ⟨answer', t', hrun', hpost⟩ := h
  rw [hrun] at hrun'
  cases hrun'
  exact hpost

theorem bind (h : Returns op s post) (hf : ∀ answer t, post answer t → Returns (f answer) t after) :
    Returns (op >>= f) s after := by
  obtain ⟨answer, t, hrun, hpost⟩ := h
  obtain ⟨answer', u, hrun', hafter⟩ := hf answer t hpost
  exact ⟨answer', u, (bind_run hrun).trans hrun', hafter⟩

/-- An operation whose run is known leaves the rest to be done from the store after it. -/
theorem step {answer : α} {t : Store} (hrun : op s = .ok answer t)
    (h : Returns (f answer) t after) : Returns (op >>= f) s after := by
  rw [Returns, bind_run hrun]
  exact h

/-- A question that has an answer leaves the store as it is. -/
theorem ask_bind {question : Store → Except Error α} {answer : α}
    (hask : question s = .ok answer) (h : Returns (f answer) s after) :
    Returns (Store.ask question >>= f) s after :=
  step (ask_run hask) h

/-- After a question that is answered by yes or no nothing need be said about the answer. -/
theorem verdict {op : StoreM Bool} {post : Store → Prop} (h : Returns op s fun _ t => post t) :
    Returns op s fun answer t => post t ∧ if answer then True else True :=
  h.mono fun _ _ hpost => ⟨hpost, by simp⟩

end Rules

section Loops

variable {α β : Type} {R : Store → Store → Prop} [IsPreorder Store R] {s : Store}

/-- Asking a second question only if the first is answered by yes. What is known after either answer
is given for each question. -/
theorem and_then {op next : StoreM Bool} {yes no yes' no' : Prop}
    (h : Returns op s fun answer t => R s t ∧ if answer then yes else no)
    (h' : ∀ t, R s t → yes → Returns next t fun answer u => R t u ∧ if answer then yes' else no') :
    Returns (do if ← op then next else Pure.pure false) s fun answer t =>
      R s t ∧ if answer then yes ∧ yes' else no ∨ yes ∧ no' := by
  refine h.bind fun answer t hmid => ?_
  obtain ⟨hst, hanswer⟩ := hmid
  cases answer with
  | false => exact .pure ⟨hst, .inl hanswer⟩
  | true =>
    refine (h' t hst hanswer).mono fun answer u hpost => ⟨IsTrans.trans _ _ _ hst hpost.1, ?_⟩
    cases answer with
    | false => exact .inr ⟨hanswer, hpost.2⟩
    | true => exact ⟨hanswer, hpost.2⟩

/-- A loop that goes on as long as the answer is yes. -/
theorem allM {f : α → StoreM Bool} {yes no : α → Prop} {xs : List α}
    (h : ∀ x ∈ xs, ∀ t, R s t →
      Returns (f x) t fun answer u => R t u ∧ if answer then yes x else no x) :
    Returns (xs.allM f) s fun answer t =>
      R s t ∧ if answer then ∀ x ∈ xs, yes x else ∃ x ∈ xs, no x := by
  induction xs generalizing s with
  | nil => exact .pure ⟨Std.Refl.refl s, by simp⟩
  | cons x xs ih =>
    rw [List.allM_cons]
    have hhead := h x List.mem_cons_self s (Std.Refl.refl s)
    have htail : ∀ t, R s t → yes x → Returns (xs.allM f) t fun answer u =>
        R t u ∧ if answer then ∀ y ∈ xs, yes y else ∃ y ∈ xs, no y := fun t hst _ =>
      ih fun y hy u htu => h y (List.mem_cons_of_mem x hy) u (IsTrans.trans _ _ _ hst htu)
    refine (hhead.and_then htail).mono fun answer t hpost => ⟨hpost.1, ?_⟩
    have hverdict := hpost.2
    cases answer with
    | true => exact List.forall_mem_cons.mpr hverdict
    | false =>
      rcases hverdict with hno | ⟨-, y, hy, hno⟩
      · exact ⟨x, List.mem_cons_self, hno⟩
      · exact ⟨y, List.mem_cons_of_mem x hy, hno⟩

/-- A loop that goes on as long as the answer is no. -/
theorem anyM {f : α → StoreM Bool} {yes no : α → Prop} {xs : List α}
    (h : ∀ x ∈ xs, ∀ t, R s t →
      Returns (f x) t fun answer u => R t u ∧ if answer then yes x else no x) :
    Returns (xs.anyM f) s fun answer t =>
      R s t ∧ if answer then ∃ x ∈ xs, yes x else ∀ x ∈ xs, no x := by
  induction xs generalizing s with
  | nil => exact .pure ⟨Std.Refl.refl s, by simp⟩
  | cons x xs ih =>
    rw [List.anyM_cons]
    refine (h x List.mem_cons_self s (Std.Refl.refl s)).bind fun answer t hhead => ?_
    obtain ⟨hst, hanswer⟩ := hhead
    cases answer with
    | true => exact .pure ⟨hst, x, List.mem_cons_self, hanswer⟩
    | false =>
      have htail := ih fun y hy u htu =>
        h y (List.mem_cons_of_mem x hy) u (IsTrans.trans _ _ _ hst htu)
      refine htail.mono fun answer u hpost => ⟨IsTrans.trans _ _ _ hst hpost.1, ?_⟩
      have hverdict := hpost.2
      cases answer with
      | true =>
        obtain ⟨y, hy, hyes⟩ := hverdict
        exact ⟨y, List.mem_cons_of_mem x hy, hyes⟩
      | false => exact List.forall_mem_cons.mpr ⟨hanswer, hverdict⟩

/-- A loop over two lists of one length that goes on as long as the answer is yes. -/
theorem pointwise {f : α → β → StoreM Bool} {yes no : α → β → Prop} {as : List α} {bs : List β}
    (h : ∀ a ∈ as, ∀ b ∈ bs, ∀ t, R s t →
      Returns (f a b) t fun answer u => R t u ∧ if answer then yes a b else no a b) :
    Returns (Lifting.pointwise f as bs) s fun answer t =>
      R s t ∧ if answer then List.Forall₂ yes as bs
        else as.length ≠ bs.length ∨ ∃ pair ∈ as.zip bs, no pair.1 pair.2 := by
  rw [Lifting.pointwise]
  split
  next hlen =>
    have hzip : Returns ((as.zip bs).allM fun pair => f pair.1 pair.2) s fun answer t => R s t ∧
        if answer then ∀ pair ∈ as.zip bs, yes pair.1 pair.2
        else ∃ pair ∈ as.zip bs, no pair.1 pair.2 :=
      allM fun pair hpair =>
        h pair.1 (List.of_mem_zip hpair).1 pair.2 (List.of_mem_zip hpair).2
    refine hzip.mono fun answer t hpost => ⟨hpost.1, ?_⟩
    have hverdict := hpost.2
    cases answer with
    | true => exact List.forall₂_iff_zip.mpr ⟨hlen, fun hab => hverdict _ hab⟩
    | false => exact .inr hverdict
  next hlen => exact .pure ⟨Std.Refl.refl s, .inl hlen⟩

/-- A loop that collects one answer per element. What holds of an answer must go on to hold while
the store changes. -/
theorem mapM {f : α → StoreM β} {good : α → β → Store → Prop} {xs : List α}
    (hkeep : ∀ x ∈ xs, ∀ y t u, R s t → R t u → good x y t → good x y u)
    (h : ∀ x ∈ xs, ∀ t, R s t → Returns (f x) t fun y u => R t u ∧ good x y u) :
    Returns (xs.mapM f) s fun ys t => R s t ∧ List.Forall₂ (good · · t) xs ys := by
  induction xs generalizing s with
  | nil => exact .pure ⟨Std.Refl.refl s, .nil⟩
  | cons x xs ih =>
    rw [List.mapM_cons]
    refine (h x List.mem_cons_self s (Std.Refl.refl s)).bind fun y t hhead => ?_
    obtain ⟨hst, hy⟩ := hhead
    have hlater : ∀ {u}, R t u → R s u := fun {u} htu => IsTrans.trans s t u hst htu
    have htail := ih
      (fun z hz y u v htu => hkeep z (List.mem_cons_of_mem x hz) y u v (hlater htu))
      fun z hz u htu => h z (List.mem_cons_of_mem x hz) u (hlater htu)
    refine htail.bind fun ys u hrest => .pure ⟨hlater hrest.1, ?_⟩
    exact .cons (hkeep x List.mem_cons_self y t u hst hrest.1 hy) hrest.2

end Loops

end Returns

def Leaves {α : Type} (op : StoreM α) (s : Store) (post : Store → Prop) : Prop :=
  match op s with
  | .ok _ t => post t
  | .error _ t => post t

namespace Leaves

variable {α β : Type} {op : StoreM α} {f : α → StoreM β} {s : Store} {post : Store → Prop}

theorem of_returns (h : Returns op s fun _ t => post t) : Leaves op s post := by
  obtain ⟨answer, t, hrun, hpost⟩ := h
  rw [Leaves, hrun]
  exact hpost

theorem mono {post' : Store → Prop} (h : Leaves op s post) (himp : ∀ t, post t → post' t) :
    Leaves op s post' := by
  rw [Leaves] at h ⊢
  cases hop : op s with
  | ok answer t =>
    rw [hop] at h
    exact himp t h
  | error e t =>
    rw [hop] at h
    exact himp t h

theorem of_error {e : Error} (hrun : op s = .error e s) (h : post s) : Leaves op s post := by
  rw [Leaves, hrun]
  exact h

/-- A question may fail, and then the store is left as it was. -/
theorem ask_bind {question : Store → Except Error α} (h : post s)
    (hf : ∀ answer, question s = .ok answer → Leaves (f answer) s post) :
    Leaves (Store.ask question >>= f) s post := by
  cases hask : question s with
  | error e => exact of_error (bind_run_error (ask_run_error hask)) h
  | ok answer =>
    rw [Leaves, bind_run (ask_run hask)]
    exact hf answer hask

/-- Dropping the answer of an operation changes nothing else. -/
theorem discard (h : Leaves op s post) : Leaves (Functor.discard op) s post := by
  have hrun : Functor.discard op s = (op >>= fun _ => pure PUnit.unit) s := rfl
  rw [Leaves] at h ⊢
  cases hop : op s with
  | ok answer t =>
    rw [hop] at h
    rw [hrun, bind_run hop]
    exact h
  | error e t =>
    rw [hop] at h
    rw [hrun, bind_run_error hop]
    exact h

end Leaves

end GradualTypes
