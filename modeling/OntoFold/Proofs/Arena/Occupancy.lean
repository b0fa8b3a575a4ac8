import Mathlib.Data.List.Nodup
import Mathlib.Data.List.Perm.Subperm
import OntoFold.Arena.Edit

/-!
# Occupied slots

Which slots of an arena hold nodes, and what one change of a slot does to them. An arena is
tidy over some addresses when these are exactly the occupied ones, every other slot stands
once on the free list, and the count of nodes is right.

* `Arena.Tidy.alloc`: a new node takes a slot that was not occupied, `Arena.nextSlot`.
* `Arena.Tidy.vacateSlot`: a vacated slot is given back.
-/

namespace OntoFold

namespace Arena

variable {a : Arena} {ids : List NodeId} {id j : NodeId}
  {slots : Array (Option Node)} {free : List NodeId} {root : NodeId} {live : Nat}

/-! ## Single slots -/

theorem get?_setSlot_self {n : Option Node} (h : id < a.slots.size) :
    (a.setSlot id n).get? id = n := by
  simp [get?, setSlot, h]

theorem get?_setSlot_ne {n : Option Node} (h : j ≠ id) : (a.setSlot id n).get? j = a.get? j := by
  simp [get?, setSlot, Ne.symm h]

theorem lt_size_of_get? {n : Node} (h : a.get? id = some n) : id < a.slots.size := by
  by_contra hLe
  simp [get?, Array.getElem?_eq_none (Nat.le_of_not_lt hLe)] at h

theorem node_eq_ok {n : Node} (h : a.get? id = some n) : a.node id = .ok n := by
  simp [node, h]

theorem modify_eq_ok {n : Node} (h : a.get? id = some n) (f : Node → Node) :
    a.modify id f = .ok (a.setSlot id (some (f n))) := by
  simp only [modify, node_eq_ok h]
  rfl

/-- The slot that the next new node takes: the one freed last, or a fresh one. -/
def nextSlot (a : Arena) : NodeId := a.free.head?.getD a.slots.size

/-- Vacates a single slot. -/
def vacateSlot (a : Arena) (id : NodeId) : Arena :=
  { a.setSlot id none with free := id :: a.free, live := a.live - 1 }

theorem get?_vacateSlot_ne (h : j ≠ id) : (a.vacateSlot id).get? j = a.get? j :=
  get?_setSlot_ne h

theorem get?_vacateSlot_self : (a.vacateSlot id).get? id = none := by
  by_cases h : id < a.slots.size
  · exact get?_setSlot_self h
  · simp [get?, vacateSlot, setSlot, h]

theorem get?_push_self (n : Node) :
    Arena.get? ⟨slots.push (some n), free, root, live + 1⟩ slots.size = some n := by
  simp [get?]

theorem get?_push_ne (n : Node) (h : j ≠ slots.size) :
    Arena.get? ⟨slots.push (some n), free, root, live + 1⟩ j =
      Arena.get? ⟨slots, free, root, live⟩ j := by
  simp [get?, Array.getElem?_push, h]

theorem get?_reuse_self (n : Node) (h : id < slots.size) :
    Arena.get? ⟨slots.setIfInBounds id (some n), free, root, live + 1⟩ id = some n := by
  simp [get?, h]

theorem get?_reuse_ne (n : Node) (h : j ≠ id) :
    Arena.get? ⟨slots.setIfInBounds id (some n), free, root, live + 1⟩ j =
      Arena.get? ⟨slots, id :: free, root, live⟩ j := by
  simp [get?, Ne.symm h]

/-! ## Tidy arenas -/

/-- The addresses are exactly the occupied ones, and every other slot is free. -/
structure Tidy (a : Arena) (ids : List NodeId) : Prop where
  nodup : ids.Nodup
  occupied : ∀ id, (a.get? id).isSome = true ↔ id ∈ ids
  free_nodup : a.free.Nodup
  mem_free : ∀ id, id ∈ a.free ↔ id < a.slots.size ∧ id ∉ ids
  live : a.live = ids.length

namespace Tidy

theorem perm {ids' : List NodeId} (h : a.Tidy ids) (hPerm : ids.Perm ids') : a.Tidy ids' where
  nodup := hPerm.nodup_iff.1 h.nodup
  occupied id := by rw [h.occupied, hPerm.mem_iff]
  free_nodup := h.free_nodup
  mem_free id := by rw [h.mem_free, hPerm.mem_iff]
  live := h.live.trans hPerm.length_eq

theorem get?_of_mem (h : a.Tidy ids) (hMem : id ∈ ids) : ∃ n, a.get? id = some n :=
  Option.isSome_iff_exists.1 ((h.occupied id).2 hMem)

theorem mem_of_get? (h : a.Tidy ids) {n : Node} (hGet : a.get? id = some n) : id ∈ ids :=
  (h.occupied id).1 (hGet ▸ rfl)

theorem lt_size (h : a.Tidy ids) (hMem : id ∈ ids) : id < a.slots.size := by
  obtain ⟨n, hn⟩ := h.get?_of_mem hMem
  exact lt_size_of_get? hn

theorem length_le_size (h : a.Tidy ids) : ids.length ≤ a.slots.size := by
  have hSubset : ids ⊆ List.range a.slots.size := fun id hMem =>
    List.mem_range.2 (h.lt_size hMem)
  have hLe := (List.subperm_of_subset h.nodup hSubset).length_le
  rwa [List.length_range] at hLe

theorem setSlot (h : a.Tidy ids) (hMem : id ∈ ids) (n : Node) :
    (a.setSlot id (some n)).Tidy ids where
  nodup := h.nodup
  occupied j := by
    by_cases hj : j = id
    · subst hj
      simp [get?_setSlot_self (h.lt_size hMem), hMem]
    · rw [get?_setSlot_ne hj, h.occupied]
  free_nodup := h.free_nodup
  mem_free j := by
    rw [show (a.setSlot id (some n)).slots.size = a.slots.size by simp [Arena.setSlot]]
    exact h.mem_free j
  live := h.live

/-- One more slot is occupied. -/
theorem occupied_cons {b : Arena} {n : Node} (h : a.Tidy ids) (hSelf : b.get? id = some n)
    (hOther : ∀ j, j ≠ id → b.get? j = a.get? j) (j : NodeId) :
    (b.get? j).isSome = true ↔ j ∈ id :: ids := by
  rw [List.mem_cons]
  by_cases hj : j = id
  · subst hj
    simp [hSelf]
  · rw [hOther j hj, h.occupied]
    simp [hj]

/-- Without a free slot a new node gets a new slot. -/
theorem push (h : Tidy ⟨slots, [], root, live⟩ ids) (n : Node) :
    Tidy ⟨slots.push (some n), [], root, live + 1⟩ (slots.size :: ids) where
  nodup := List.nodup_cons.2 ⟨fun hMem => Nat.lt_irrefl _ (h.lt_size hMem), h.nodup⟩
  occupied := h.occupied_cons (get?_push_self n) fun _ => get?_push_ne n
  free_nodup := List.nodup_nil
  mem_free j := by
    have hFree := h.mem_free j
    simp only [List.not_mem_nil, false_iff, not_and, Decidable.not_not] at hFree ⊢
    intro hLt
    rw [Array.size_push] at hLt
    by_cases hj : j = slots.size
    · exact hj ▸ List.mem_cons_self
    · exact List.mem_cons_of_mem _ (hFree (Nat.lt_of_le_of_ne (Nat.le_of_lt_succ hLt) hj))
  live := congrArg (· + 1) h.live

/-- A new node takes the first free slot. -/
theorem reuse (h : Tidy ⟨slots, id :: free, root, live⟩ ids) (n : Node) :
    Tidy ⟨slots.setIfInBounds id (some n), free, root, live + 1⟩ (id :: ids) where
  nodup := List.nodup_cons.2 ⟨((h.mem_free id).1 List.mem_cons_self).2, h.nodup⟩
  occupied := by
    have hLt := ((h.mem_free id).1 List.mem_cons_self).1
    exact h.occupied_cons (get?_reuse_self n hLt) fun _ => get?_reuse_ne n
  free_nodup := (List.nodup_cons.1 h.free_nodup).2
  mem_free j := by
    have hFresh := (List.nodup_cons.1 h.free_nodup).1
    have hMem := h.mem_free j
    rw [List.mem_cons] at hMem
    rw [List.mem_cons, Array.size_setIfInBounds]
    by_cases hj : j = id
    · subst hj
      simp [hFresh]
    · simpa [hj] using hMem
  live := congrArg (· + 1) h.live

/-- The next slot is not occupied. -/
theorem nextSlot_not_mem (h : a.Tidy ids) : a.nextSlot ∉ ids := by
  obtain ⟨slots, free, root, live⟩ := a
  cases free with
  | nil => exact fun hMem => Nat.lt_irrefl _ (h.lt_size hMem)
  | cons id free => exact ((h.mem_free id).1 List.mem_cons_self).2

/-- What a new node changes: it takes the next slot. -/
theorem alloc (h : a.Tidy ids) (n : Node) :
    ∃ b, a.alloc n = (a.nextSlot, b) ∧ b.Tidy (a.nextSlot :: ids) ∧ b.get? a.nextSlot = some n ∧
      (∀ j, j ≠ a.nextSlot → b.get? j = a.get? j) ∧ b.root = a.root := by
  obtain ⟨slots, free, root, live⟩ := a
  cases free with
  | nil => exact ⟨_, rfl, h.push n, get?_push_self n, fun _ => get?_push_ne n, rfl⟩
  | cons id free =>
    have hLt := ((h.mem_free id).1 List.mem_cons_self).1
    exact ⟨_, rfl, h.reuse n, get?_reuse_self n hLt, fun _ => get?_reuse_ne n, rfl⟩

/-- A vacated slot is given back. -/
theorem vacateSlot (h : a.Tidy (id :: ids)) : (a.vacateSlot id).Tidy ids where
  nodup := (List.nodup_cons.1 h.nodup).2
  occupied j := by
    by_cases hj : j = id
    · subst hj
      simp [get?_vacateSlot_self, (List.nodup_cons.1 h.nodup).1]
    · rw [get?_vacateSlot_ne hj, h.occupied, List.mem_cons]
      simp [hj]
  free_nodup := List.nodup_cons.2 ⟨fun hMem =>
    ((h.mem_free id).1 hMem).2 List.mem_cons_self, h.free_nodup⟩
  mem_free j := by
    have hMem := h.mem_free j
    have hLt := h.lt_size (List.mem_cons_self (a := id) (l := ids))
    have hNew := (List.nodup_cons.1 h.nodup).1
    simp only [Arena.vacateSlot, Arena.setSlot, List.mem_cons, Array.size_setIfInBounds]
    by_cases hj : j = id
    · subst hj
      simp [hLt, hNew]
    · rw [List.mem_cons] at hMem
      simpa [hj] using hMem
  live := by
    have hLive := h.live
    simp only [Arena.vacateSlot, hLive, List.length_cons]
    omega

end Tidy

theorem tidy_single (l : Label) : (single l).Tidy [0] where
  nodup := List.nodup_singleton 0
  occupied id := by
    cases id with
    | zero => simp [get?, single]
    | succ id => simp [get?, single]
  free_nodup := List.nodup_nil
  mem_free id := by
    simp only [single, List.not_mem_nil, false_iff, not_and, Decidable.not_not]
    intro hLt
    have : id = 0 := by simpa using hLt
    exact List.mem_singleton.2 this
  live := rfl

end Arena

end OntoFold
