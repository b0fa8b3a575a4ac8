/-!
# Order keys

Every value of the library is ordered through its *key*, a list of tokens: the rank of its
constructor followed by the keys of its fields. Keys compare lexicographically, so a value
precedes another when its constructor stands earlier or, for equal constructors, when the
first differing field is smaller.

* `Keyed`: a type whose keys are self-delimiting, so that a key determines the value
  whatever follows it.
* `Keyed.instTransOrd`, `Keyed.instLawfulEqOrd`: the order is total, and only equal values
  compare equal.
-/

namespace OntoFold

/-! ## Tokens -/

/-- The atoms of an order key. -/
inductive Token where
  | number (n : Nat)
  | text (s : String)
  deriving DecidableEq, Repr

namespace Token

/-- Numbers precede texts; texts compare by code point. -/
protected def compare : Token → Token → Ordering
  | .number m, .number n => Ord.compare m n
  | .number _, .text _ => .lt
  | .text _, .number _ => .gt
  | .text s, .text t => Ord.compare s t

instance : Ord Token := ⟨Token.compare⟩

theorem compare_eq (a b : Token) : Ord.compare a b = Token.compare a b := rfl

instance : Std.LawfulEqOrd Token where
  eq_of_compare {a b} h := by
    cases a <;> cases b <;> simp_all [compare_eq, Token.compare]
  compare_self {a} := by
    cases a <;> simp [compare_eq, Token.compare]

instance : Std.TransOrd Token where
  eq_swap {a b} := by
    cases a with
    | number m =>
      cases b with
      | number n => exact Std.OrientedOrd.eq_swap (α := Nat)
      | text t => rfl
    | text s =>
      cases b with
      | number n => rfl
      | text t => exact Std.OrientedOrd.eq_swap (α := String)
  isLE_trans {a b c} := by
    cases a <;> cases b <;> cases c <;>
      simp only [compare_eq, Token.compare] <;>
      first
        | exact Std.TransCmp.isLE_trans
        | simp [Ordering.isLE]

end Token

/-! ## Keyed types -/

/-- A type ordered by self-delimiting keys, which can be put one after another. -/
class Keyed (α : Type u) where
  orderKey : α → List Token
  orderKey_append : ∀ {a b : α} {r s : List Token},
    orderKey a ++ r = orderKey b ++ s → a = b ∧ r = s

export Keyed (orderKey)

namespace Keyed

theorem orderKey_append_iff {α : Type u} [Keyed α] {a b : α} {r s : List Token} :
    orderKey a ++ r = orderKey b ++ s ↔ a = b ∧ r = s :=
  ⟨orderKey_append, fun ⟨hKey, hRest⟩ => by rw [hKey, hRest]⟩

theorem orderKey_injective {α : Type u} [Keyed α] {a b : α}
    (h : orderKey a = orderKey b) : a = b :=
  (orderKey_append (r := []) (s := []) (by rw [h])).1

/-! ## The order of a keyed type -/

section Order

variable {α : Type u} [Keyed α]

instance (priority := low) instOrd : Ord α := ⟨fun a b => Ord.compare (orderKey a) (orderKey b)⟩

theorem compare_eq (a b : α) : Ord.compare a b = Ord.compare (orderKey a) (orderKey b) := rfl

instance (priority := low) instLawfulEqOrd : Std.LawfulEqOrd α where
  eq_of_compare {a b} h := by
    rw [compare_eq] at h
    exact orderKey_injective (Std.LawfulEqOrd.eq_of_compare h)
  compare_self {a} := by
    rw [compare_eq]
    exact Std.ReflOrd.compare_self

instance (priority := low) instTransOrd : Std.TransOrd α where
  eq_swap := Std.OrientedOrd.eq_swap (α := List Token)
  isLE_trans := Std.TransOrd.isLE_trans (α := List Token)

instance (priority := low) instDecidableEq : DecidableEq α := fun a b =>
  decidable_of_iff (Ord.compare a b = .eq) Std.LawfulEqOrd.compare_eq_iff_eq

end Order

end Keyed

/-! ## Keys of parts -/

/-- The key of an optional part: an absent part comes first. -/
def optionKey {α : Type u} (key : α → List Token) : Option α → List Token
  | none => [.number 0]
  | some a => .number 1 :: key a

/-- The key of a list of parts: a list precedes its extensions. -/
def listKey {α : Type u} (key : α → List Token) : List α → List Token
  | [] => [.number 0]
  | a :: as => .number 1 :: (key a ++ listKey key as)

theorem optionKey_append {α : Type u} [Keyed α] {x y : Option α} {r s : List Token}
    (h : optionKey orderKey x ++ r = optionKey orderKey y ++ s) : x = y ∧ r = s := by
  cases x <;> cases y <;> simp_all [optionKey, Keyed.orderKey_append_iff]

theorem listKey_append {α : Type u} [Keyed α] {xs ys : List α} {r s : List Token}
    (h : listKey orderKey xs ++ r = listKey orderKey ys ++ s) : xs = ys ∧ r = s := by
  induction xs generalizing ys with
  | nil => cases ys <;> simp_all [listKey]
  | cons x xs ih =>
    cases ys with
    | nil => simp [listKey] at h
    | cons y ys =>
      simp only [listKey, List.cons_append, List.append_assoc, List.cons.injEq, true_and] at h
      obtain ⟨rfl, hRest⟩ := Keyed.orderKey_append h
      obtain ⟨rfl, hTail⟩ := ih hRest
      exact ⟨rfl, hTail⟩

end OntoFold
