/-!
# Sorted sets

Finite sets held as strictly ascending lists. Two sets with the same members are equal, and
the list of a set is the order in which its members are visited. The operations on bare
lists come first: the operands of a term are such lists.

* `mem_ascend`, `ascending_ascend`: `ascend` collects the members of a list in order.
* `Ascending.ext`: an ascending list is determined by its members.
* `SortedSet.ext`: so is a set.
-/

namespace OntoFold

variable {α : Type u} [Ord α]

/-! ## Ascending lists -/

/-- Every element is smaller than all later ones. -/
def Ascending (xs : List α) : Prop := xs.Pairwise fun a b => compare a b = .lt

instance (xs : List α) : Decidable (Ascending xs) :=
  inferInstanceAs (Decidable (xs.Pairwise _))

theorem ascending_nil : Ascending ([] : List α) := List.Pairwise.nil

/-- Puts an element at its place in an ascending list, unless it is there. -/
def insertAscending (a : α) : List α → List α
  | [] => [a]
  | b :: bs =>
    match compare a b with
    | .lt => a :: b :: bs
    | .eq => b :: bs
    | .gt => b :: insertAscending a bs

/-- The members of a list in ascending order, each once. -/
def ascend (xs : List α) : List α := xs.foldr insertAscending []

section Lawful

variable [Std.LawfulEqOrd α]

theorem mem_insertAscending {a x : α} {xs : List α} :
    x ∈ insertAscending a xs ↔ x = a ∨ x ∈ xs := by
  induction xs with
  | nil => simp [insertAscending]
  | cons b bs ih =>
    unfold insertAscending
    split
    · simp
    · next h =>
      rw [Std.LawfulEqOrd.eq_of_compare h]
      simp
    · rw [List.mem_cons, ih, List.mem_cons]
      grind

theorem mem_ascend {x : α} {xs : List α} : x ∈ ascend xs ↔ x ∈ xs := by
  induction xs with
  | nil => simp [ascend]
  | cons a as ih =>
    rw [show ascend (a :: as) = insertAscending a (ascend as) from rfl]
    rw [mem_insertAscending, ih, List.mem_cons]

theorem Ascending.not_mem {a : α} {xs : List α} (h : Ascending (a :: xs)) : a ∉ xs := by
  intro hMem
  have hLt := (List.pairwise_cons.1 h).1 a hMem
  rw [Std.ReflOrd.compare_self] at hLt
  cases hLt

theorem Ascending.nodup {xs : List α} (h : Ascending xs) : xs.Nodup :=
  h.imp fun hLt hEq => by
    rw [hEq, Std.ReflOrd.compare_self] at hLt
    cases hLt

variable [Std.TransOrd α]

theorem Ascending.insert {a : α} {xs : List α} (h : Ascending xs) :
    Ascending (insertAscending a xs) := by
  induction xs with
  | nil => simp [insertAscending, Ascending]
  | cons b bs ih =>
    obtain ⟨hHead, hTail⟩ := List.pairwise_cons.1 h
    unfold insertAscending
    split
    · next hLt =>
      refine List.pairwise_cons.2 ⟨fun c hc => ?_, h⟩
      rcases List.mem_cons.1 hc with rfl | hc
      · exact hLt
      · exact Std.TransCmp.lt_trans hLt (hHead c hc)
    · exact h
    · next hGt =>
      refine List.pairwise_cons.2 ⟨fun c hc => ?_, ih hTail⟩
      rcases mem_insertAscending.1 hc with rfl | hc
      · exact Std.OrientedCmp.lt_of_gt hGt
      · exact hHead c hc

theorem ascending_ascend (xs : List α) : Ascending (ascend xs) := by
  induction xs with
  | nil => exact List.Pairwise.nil
  | cons a as ih => exact ih.insert

theorem Ascending.ext {xs ys : List α} (hx : Ascending xs) (hy : Ascending ys)
    (h : ∀ a, a ∈ xs ↔ a ∈ ys) : xs = ys := by
  induction xs generalizing ys with
  | nil =>
    cases ys with
    | nil => rfl
    | cons y ys => simpa using (h y).2 (List.mem_cons_self ..)
  | cons x xs ih =>
    cases ys with
    | nil => simpa using (h x).1 (List.mem_cons_self ..)
    | cons y ys =>
      obtain ⟨hx₁, hx₂⟩ := List.pairwise_cons.1 hx
      obtain ⟨hy₁, hy₂⟩ := List.pairwise_cons.1 hy
      have hHead : x = y := by
        rcases List.mem_cons.1 ((h x).1 (List.mem_cons_self ..)) with hEq | hxy
        · exact hEq
        rcases List.mem_cons.1 ((h y).2 (List.mem_cons_self ..)) with hEq | hyx
        · exact hEq.symm
        have hLt := Std.TransCmp.lt_trans (hy₁ x hxy) (hx₁ y hyx)
        rw [Std.ReflOrd.compare_self] at hLt
        cases hLt
      subst hHead
      rw [ih hx₂ hy₂ fun a => ?_]
      constructor
      · intro ha
        refine (List.mem_cons.1 ((h a).1 (List.mem_cons_of_mem _ ha))).resolve_left ?_
        rintro rfl
        exact hx.not_mem ha
      · intro ha
        refine (List.mem_cons.1 ((h a).2 (List.mem_cons_of_mem _ ha))).resolve_left ?_
        rintro rfl
        exact hy.not_mem ha

theorem ascend_eq_self {xs : List α} (h : Ascending xs) : ascend xs = xs :=
  (ascending_ascend xs).ext h fun _ => mem_ascend

theorem ascend_congr {xs ys : List α} (h : ∀ a, a ∈ xs ↔ a ∈ ys) : ascend xs = ascend ys :=
  (ascending_ascend xs).ext (ascending_ascend ys) fun a => by
    rw [mem_ascend, mem_ascend, h]

end Lawful

/-! ## Sets -/

/-- A finite set, as the ascending list of its members. -/
structure SortedSet (α : Type u) [Ord α] where
  toList : List α
  ascending : Ascending toList

namespace SortedSet

instance : Membership α (SortedSet α) := ⟨fun s a => a ∈ s.toList⟩

theorem mem_toList {a : α} {s : SortedSet α} : a ∈ s.toList ↔ a ∈ s := Iff.rfl

instance [DecidableEq α] (a : α) (s : SortedSet α) : Decidable (a ∈ s) :=
  inferInstanceAs (Decidable (a ∈ s.toList))

theorem toList_injective {s t : SortedSet α} (h : s.toList = t.toList) : s = t := by
  cases s; cases t; cases h; rfl

instance [DecidableEq α] : DecidableEq (SortedSet α) := fun s t =>
  decidable_of_iff (s.toList = t.toList) ⟨toList_injective, fun h => h ▸ rfl⟩

def empty : SortedSet α := ⟨[], ascending_nil⟩

instance : EmptyCollection (SortedSet α) := ⟨empty⟩

instance : Inhabited (SortedSet α) := ⟨empty⟩

@[simp] theorem toList_empty : (∅ : SortedSet α).toList = [] := rfl

@[simp] theorem not_mem_empty {a : α} : a ∉ (∅ : SortedSet α) := List.not_mem_nil

def isEmpty (s : SortedSet α) : Bool := s.toList.isEmpty

/-- The number of members. -/
def size (s : SortedSet α) : Nat := s.toList.length

def filter (p : α → Bool) (s : SortedSet α) : SortedSet α :=
  ⟨s.toList.filter p, s.ascending.filter p⟩

@[simp] theorem mem_filter {p : α → Bool} {a : α} {s : SortedSet α} :
    a ∈ s.filter p ↔ a ∈ s ∧ p a = true := List.mem_filter

section Difference

variable [DecidableEq α]

/-- The members of `s` outside `t`. -/
def diff (s t : SortedSet α) : SortedSet α := s.filter fun a => decide (a ∉ t)

instance : SDiff (SortedSet α) := ⟨diff⟩

@[simp] theorem mem_sdiff {x : α} {s t : SortedSet α} : x ∈ s \ t ↔ x ∈ s ∧ x ∉ t := by
  change x ∈ s.filter _ ↔ _
  simp

def erase (s : SortedSet α) (a : α) : SortedSet α := s.filter fun b => decide (b ≠ a)

@[simp] theorem mem_erase {x a : α} {s : SortedSet α} : x ∈ s.erase a ↔ x ∈ s ∧ x ≠ a := by
  simp [erase]

end Difference

section Lawful

variable [Std.LawfulEqOrd α] [Std.TransOrd α]

theorem ext {s t : SortedSet α} (h : ∀ a, a ∈ s ↔ a ∈ t) : s = t :=
  toList_injective (s.ascending.ext t.ascending h)

def insert (s : SortedSet α) (a : α) : SortedSet α :=
  ⟨insertAscending a s.toList, s.ascending.insert⟩

@[simp] theorem mem_insert {a x : α} {s : SortedSet α} : x ∈ s.insert a ↔ x = a ∨ x ∈ s :=
  mem_insertAscending

def ofList (xs : List α) : SortedSet α := ⟨ascend xs, ascending_ascend xs⟩

@[simp] theorem mem_ofList {x : α} {xs : List α} : x ∈ ofList xs ↔ x ∈ xs := mem_ascend

/-- All members of both sets. -/
def union (s t : SortedSet α) : SortedSet α :=
  ⟨s.toList.foldr insertAscending t.toList, by
    induction s.toList with
    | nil => exact t.ascending
    | cons a as ih => exact ih.insert⟩

instance : Union (SortedSet α) := ⟨union⟩

@[simp] theorem mem_union {x : α} {s t : SortedSet α} : x ∈ s ∪ t ↔ x ∈ s ∨ x ∈ t := by
  change x ∈ s.toList.foldr insertAscending t.toList ↔ x ∈ s.toList ∨ x ∈ t.toList
  induction s.toList with
  | nil => simp
  | cons a as ih => rw [List.foldr_cons, mem_insertAscending, ih, List.mem_cons, or_assoc]

/-- The members of all sets of a list. -/
def unions (sets : List (SortedSet α)) : SortedSet α := sets.foldr (· ∪ ·) ∅

@[simp] theorem mem_unions {x : α} {sets : List (SortedSet α)} :
    x ∈ unions sets ↔ ∃ s ∈ sets, x ∈ s := by
  induction sets with
  | nil => simp [unions]
  | cons s sets ih =>
    rw [show unions (s :: sets) = s ∪ unions sets from rfl]
    simp [ih]

end Lawful

end SortedSet

end OntoFold
