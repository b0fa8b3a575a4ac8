/-!
# Ordered forests

Labelled ordered trees and forests. A forest is empty or has a first tree, given by its label
and the forest below it, and the forest of the remaining trees; the recursion of a forest
thus reaches both children and later siblings.
-/

namespace OntoFold

inductive Forest (α : Type u) where
  | nil
  | cons (head : α) (below rest : Forest α)
  deriving DecidableEq, Repr

/-- A label with a forest of children. -/
structure Tree (α : Type u) where
  label : α
  below : Forest α
  deriving DecidableEq, Repr

namespace Forest

variable {α : Type u}

/-- The number of labels. -/
def size : Forest α → Nat
  | nil => 0
  | cons _ below rest => below.size + rest.size + 1

/-- The labels in pre-order. -/
def toList : Forest α → List α
  | nil => []
  | cons head below rest => head :: (below.toList ++ rest.toList)

/-- The labels with their depths, in pre-order; the first trees have the given depth. -/
def rows (depth : Nat) : Forest α → List (Nat × α)
  | nil => []
  | cons head below rest => (depth, head) :: (rows (depth + 1) below ++ rows depth rest)

def map {β : Type v} (f : α → β) : Forest α → Forest β
  | nil => nil
  | cons head below rest => cons (f head) (below.map f) (rest.map f)

/-- Leaves with the given labels. -/
def leaves : List α → Forest α
  | [] => nil
  | a :: as => cons a nil (leaves as)

def isEmpty : Forest α → Bool
  | nil => true
  | cons .. => false

theorem length_toList (f : Forest α) : f.toList.length = f.size := by
  induction f with
  | nil => rfl
  | cons _ _ _ ihBelow ihRest => simp [toList, size, ihBelow, ihRest]

end Forest

namespace Tree

variable {α : Type u}

def size (t : Tree α) : Nat := t.below.size + 1

def toList (t : Tree α) : List α := t.label :: t.below.toList

def rows (t : Tree α) : List (Nat × α) := (0, t.label) :: t.below.rows 1

def map {β : Type v} (f : α → β) (t : Tree α) : Tree β := ⟨f t.label, t.below.map f⟩

end Tree

end OntoFold
