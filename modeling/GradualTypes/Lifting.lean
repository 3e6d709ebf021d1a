/-!
Lifting a question about two types to lists of types. The question may fail or have effects, so
everything here runs in a monad, and elements are taken from left to right until the answer is
known.
-/

namespace GradualTypes.Lifting

variable {m : Type → Type} [Monad m] {α β : Type}

/-- Whether a relation holds between the elements at each position of two lists of one length.
Lists of different length are told apart before any element is looked at. -/
def pointwise (rel : α → β → m Bool) (as : List α) (bs : List β) : m Bool :=
  if as.length = bs.length then (as.zip bs).allM fun pair => rel pair.1 pair.2
  else pure false

def covered (rel : α → β → m Bool) (as : List α) (bs : List β) : m Bool :=
  as.allM fun a => bs.anyM fun b => rel a b

/-- Whether two lists are the same set up to a relation: each covers the other. -/
def sameSet (rel : α → α → m Bool) (as bs : List α) : m Bool := do
  if ← covered rel as bs then covered rel bs as else pure false

/-- Compares two lists at their first difference. If there is none, the shorter list comes first. -/
def lexicographic (cmp : α → α → m Ordering) : List α → List α → m Ordering
  | a :: as, b :: bs => do
    match ← cmp a b with
    | .eq => lexicographic cmp as bs
    | decided => return decided
  | as, bs => pure (compare as.length bs.length)

def insertSorted (cmp : α → α → m Ordering) (a : α) : List α → m (List α)
  | [] => pure [a]
  | b :: bs => do
    match ← cmp a b with
    | .gt => return b :: (← insertSorted cmp a bs)
    | _ => return a :: b :: bs

/-- Sorts a list. Elements that compare equal stay in the order they had. -/
def sort (cmp : α → α → m Ordering) : List α → m (List α)
  | [] => pure []
  | a :: as => do insertSorted cmp a (← sort cmp as)

/-- Appends to `kept` those elements of a list that are not related to one kept before. -/
def distinctAfter (rel : α → α → m Bool) (kept : List α) : List α → m (List α)
  | [] => pure kept
  | a :: as => do
    if ← kept.anyM fun seen => rel seen a then distinctAfter rel kept as
    else distinctAfter rel (kept ++ [a]) as

/-- Keeps the first of related elements. -/
def distinct (rel : α → α → m Bool) (as : List α) : m (List α) :=
  distinctAfter rel [] as

end GradualTypes.Lifting
