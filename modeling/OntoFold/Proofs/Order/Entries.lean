import Mathlib.Data.List.Perm.Subperm
import OntoFold.Order.SortedMap

/-!
# Sizes of sets and entries of maps

Sets are compared by size through their members. Maps are described by what looking a key up
gives.

* `SortedSet.size_lt`: a proper subset is smaller.
* `length_ascend_le`: a set has no more members than a list of them.
* `SortedMap.get?_foldl_insert`: what a map holds after many insertions.
-/

namespace OntoFold

/-! ## Sizes of sets -/

namespace SortedSet

variable {α : Type u} [Ord α] {s t : SortedSet α} {a : α}

theorem isEmpty_iff : s.isEmpty = true ↔ ∀ a, a ∉ s := by
  rw [isEmpty, List.isEmpty_iff, List.eq_nil_iff_forall_not_mem]
  exact Iff.rfl

theorem size_le_one {b : α} (h : ∀ a ∈ s, a = b) [Std.LawfulEqOrd α] : s.size ≤ 1 := by
  have hSub : s.toList ⊆ [b] := fun a ha => List.mem_singleton.2 (h a ha)
  exact (List.subperm_of_subset s.ascending.nodup hSub).length_le

theorem eq_of_size_le_one {b : α} (h : s.size ≤ 1) (ha : a ∈ s) (hb : b ∈ s) : a = b := by
  obtain ⟨members, hAscending⟩ := s
  match members with
  | [] => cases ha
  | [c] => exact (List.mem_singleton.1 ha).trans (List.mem_singleton.1 hb).symm
  | c :: d :: rest =>
    simp only [size, List.length_cons] at h
    omega

variable [Std.LawfulEqOrd α]

theorem size_le (h : ∀ a ∈ s, a ∈ t) : s.size ≤ t.size := by
  apply List.Subperm.length_le
  exact List.subperm_of_subset s.ascending.nodup h

/-- A subset without some member of a set is smaller than the set. -/
theorem size_lt (h : ∀ a ∈ s, a ∈ t) (ha : a ∈ t) (hNew : a ∉ s) : s.size < t.size := by
  have hNodup : (a :: s.toList).Nodup := List.nodup_cons.2 ⟨hNew, s.ascending.nodup⟩
  have hSub : a :: s.toList ⊆ t.toList := List.cons_subset.2 ⟨ha, h⟩
  exact (List.subperm_of_subset hNodup hSub).length_le

end SortedSet

theorem length_ascend_le {α : Type u} [Ord α] [Std.LawfulEqOrd α] [Std.TransOrd α] (xs : List α) :
    (ascend xs).length ≤ xs.length :=
  (List.subperm_of_subset (ascending_ascend xs).nodup fun _ h => mem_ascend.1 h).length_le

/-- A set made of distinct members has as many of them. -/
theorem SortedSet.size_ofList {α : Type u} [Ord α] [Std.LawfulEqOrd α] [Std.TransOrd α]
    {xs : List α} (h : xs.Nodup) : (SortedSet.ofList xs).size = xs.length :=
  ((List.perm_ext_iff_of_nodup (ascending_ascend xs).nodup h).2 fun _ => mem_ascend).length_eq

/-! ## Looking keys up -/

namespace SortedMap

variable {κ : Type u} {ν : Type v} [Ord κ] {m : SortedMap κ ν} {k : κ} {v : ν}

theorem contains_iff : m.contains k = true ↔ ∃ v, m.get? k = some v := Option.isSome_iff_exists

theorem contains_eq_false : m.contains k = false ↔ m.get? k = none := by
  rw [contains, Option.isSome_eq_false_iff, Option.isNone_iff_eq_none]

theorem size_keys : m.keys.size = m.size := List.length_map _

theorem keys_nodup [Std.LawfulEqOrd κ] : (m.toList.map Prod.fst).Nodup := m.ascending.nodup

variable [Std.LawfulEqOrd κ] [Std.TransOrd κ]

theorem mem_keys : k ∈ m.keys ↔ m.contains k = true := by
  rw [contains_iff]
  simp only [get?_eq_some_iff]
  show k ∈ m.toList.map Prod.fst ↔ _
  simp

theorem mem_values : v ∈ m.values ↔ ∃ k, m.get? k = some v := by
  simp only [get?_eq_some_iff]
  simp [values]

theorem get?_filter {p : κ → ν → Bool} :
    (m.filter p).get? k = some v ↔ m.get? k = some v ∧ p k v = true := by
  rw [get?_eq_some_iff, get?_eq_some_iff]
  exact List.mem_filter

theorem mem_keys_filter {p : κ → ν → Bool} :
    k ∈ (m.filter p).keys ↔ ∃ v, m.get? k = some v ∧ p k v = true := by
  simp only [mem_keys, contains_iff, get?_filter]

theorem get?_mapValues {ω : Type w} {f : κ → ν → ω} {u : ω} :
    (m.mapValues f).get? k = some u ↔ ∃ v, m.get? k = some v ∧ f k v = u := by
  simp only [get?_eq_some_iff, mapValues, List.mem_map, Prod.mk.injEq, Prod.exists]
  constructor
  · rintro ⟨l, v, hMem, rfl, hValue⟩
    exact ⟨v, hMem, hValue⟩
  · rintro ⟨v, hMem, hValue⟩
    exact ⟨k, v, hMem, rfl, hValue⟩

theorem get?_insert_self : (m.insert k v).get? k = some v := by
  rw [get?_insert, if_pos Std.ReflOrd.compare_self]

theorem get?_insert_ne {l : κ} (h : l ≠ k) : (m.insert k v).get? l = m.get? l := by
  rw [get?_insert, if_neg fun hEq => h (Std.LawfulEqOrd.eq_of_compare hEq)]

/-- Altering the value of a key adds the key. -/
theorem contains_alter {l : κ} {f : Option ν → ν} :
    (m.alter l f).contains k = true ↔ k = l ∨ m.contains k = true := by
  unfold contains
  rw [get?_alter]
  by_cases h : k = l
  · rw [if_pos (h ▸ Std.ReflOrd.compare_self)]
    simp [h]
  · rw [if_neg fun hEq => h (Std.LawfulEqOrd.eq_of_compare hEq)]
    simp [h]

/-- Entries with distinct keys replace what a map held for their keys. -/
theorem get?_foldl_insert {xs : List (κ × ν)} (h : (xs.map Prod.fst).Nodup) :
    (xs.foldl (fun m x => m.insert x.1 x.2) m).get? k = some v ↔
      (k, v) ∈ xs ∨ (k ∉ xs.map Prod.fst ∧ m.get? k = some v) := by
  induction xs generalizing m with
  | nil => simp
  | cons x xs ih =>
    obtain ⟨hNew, hRest⟩ := List.nodup_cons.1 h
    rw [List.foldl_cons, ih hRest, List.map_cons, List.mem_cons, List.mem_cons, not_or]
    by_cases hk : k = x.1
    · subst hk
      rw [get?_insert_self]
      have hAbsent : (x.1, v) ∉ xs := fun hMem =>
        hNew (List.mem_map.2 ⟨_, hMem, rfl⟩)
      simp [hNew, hAbsent, Prod.ext_iff, eq_comm]
    · rw [get?_insert_ne hk]
      simp [hk, Prod.ext_iff]

/-- Where only some values give an entry, a key gets what its value gives. -/
theorem get?_foldl_insertSome {μ : Type w} (f : μ → Option ν) {xs : List (κ × μ)}
    (h : (xs.map Prod.fst).Nodup) :
    (xs.foldl (fun m x => (f x.2).elim m (m.insert x.1)) (∅ : SortedMap κ ν)).get? k = some v ↔
      ∃ u, (k, u) ∈ xs ∧ f u = some v := by
  have hKeys : ((xs.filterMap fun x => (f x.2).map fun v => (x.1, v)).map Prod.fst).Nodup := by
    refine List.pairwise_map.2 (List.Pairwise.filterMap _ ?_ (List.pairwise_map.1 h))
    intro x y hNe v hv w hw
    obtain ⟨-, -, rfl⟩ := Option.map_eq_some_iff.1 hv
    obtain ⟨-, -, rfl⟩ := Option.map_eq_some_iff.1 hw
    exact hNe
  have hFold : xs.foldl (fun m x => (f x.2).elim m (m.insert x.1)) (∅ : SortedMap κ ν) =
      (xs.filterMap fun x => (f x.2).map fun v => (x.1, v)).foldl
        (fun m x => m.insert x.1 x.2) ∅ := by
    rw [List.foldl_filterMap]
    congr 1
    funext m x
    cases f x.2 <;> rfl
  rw [hFold, get?_foldl_insert hKeys, get?_empty, List.mem_filterMap]
  constructor
  · rintro (⟨⟨l, u⟩, hMem, hu⟩ | ⟨-, hNone⟩)
    · obtain ⟨w, hw, hEq⟩ := Option.map_eq_some_iff.1 hu
      obtain ⟨rfl, rfl⟩ := Prod.mk.inj hEq
      exact ⟨u, hMem, hw⟩
    · cases hNone
  · rintro ⟨u, hMem, hu⟩
    refine Or.inl ⟨(k, u), hMem, ?_⟩
    rw [hu, Option.map_some]

end SortedMap

end OntoFold
