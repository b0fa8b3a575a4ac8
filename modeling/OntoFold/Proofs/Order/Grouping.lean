import Mathlib.Data.List.Nodup
import OntoFold.Order.SortedMap

/-!
# Grouping by keys

A group holds the elements of a list to which a function gives the same key. Read from the
last group to the first, the elements come with descending keys.

* `SortedMap.mem_groupBy`: the members of a group.
* `SortedMap.pairwise_groupBy`: the order of all elements.
* `SortedMap.ext_hasMember`: groupings with the same members.
* `takeWhile_eq_filter`: the front of an ordered list.
-/

namespace OntoFold

/-- A condition that holds no more once it fails selects a front part of a list. -/
theorem takeWhile_eq_filter {α : Type u} {p : α → Bool} {xs : List α}
    (h : xs.Pairwise fun a b => p b = true → p a = true) : xs.takeWhile p = xs.filter p := by
  induction xs with
  | nil => rfl
  | cons x xs ih =>
    obtain ⟨hFirst, hRest⟩ := List.pairwise_cons.1 h
    by_cases hx : p x = true
    · rw [List.takeWhile_cons_of_pos hx, List.filter_cons_of_pos hx, ih hRest]
    · rw [List.takeWhile_cons_of_neg hx, List.filter_cons_of_neg hx, eq_comm,
        List.filter_eq_nil_iff]
      exact fun y hy hp => hx (hFirst y hy hp)

namespace SortedMap

variable {κ : Type u} {α : Type v} [Ord κ] [Ord α]

/-- A value stands in the set of a key. -/
def HasMember (m : SortedMap κ (SortedSet α)) (k : κ) (a : α) : Prop :=
  ∃ s, m.get? k = some s ∧ a ∈ s

theorem not_hasMember_empty {k : κ} {a : α} :
    ¬ HasMember (∅ : SortedMap κ (SortedSet α)) k a := by
  rintro ⟨s, hGet, -⟩
  cases hGet

/-- Every group has a member. -/
def Peopled (m : SortedMap κ (SortedSet α)) : Prop := ∀ k s, m.get? k = some s → ∃ a, a ∈ s

theorem peopled_empty : Peopled (∅ : SortedMap κ (SortedSet α)) := by
  intro k s h
  cases h

theorem HasMember.contains {m : SortedMap κ (SortedSet α)} {k : κ} {a : α} (h : m.HasMember k a) :
    m.contains k = true := by
  obtain ⟨s, hs, -⟩ := h
  exact Option.isSome_iff_exists.2 ⟨s, hs⟩

theorem peopled_iff {m : SortedMap κ (SortedSet α)} :
    m.Peopled ↔ ∀ k, m.contains k = true → ∃ a, m.HasMember k a := by
  simp only [SortedMap.contains, Option.isSome_iff_exists]
  constructor
  · rintro hPeopled k ⟨s, hs⟩
    obtain ⟨a, ha⟩ := hPeopled k s hs
    exact ⟨a, s, hs, ha⟩
  · intro h k s hs
    obtain ⟨a, t, ht, ha⟩ := h k ⟨s, hs⟩
    obtain rfl := Option.some.inj (hs.symm.trans ht)
    exact ⟨a, ha⟩

/-- The elements of all groups, the last group first and each group backwards. -/
def descending (m : SortedMap κ (SortedSet α)) : List α :=
  m.toList.reverse.flatMap fun (_, s) => s.toList.reverse

/-- Read from the first group to the last, the elements come in the opposite order. -/
theorem flatMap_values (m : SortedMap κ (SortedSet α)) :
    m.values.flatMap SortedSet.toList = m.descending.reverse := by
  rw [descending, List.reverse_flatMap, List.reverse_reverse, values, List.flatMap_map]
  exact List.flatMap_congr fun x _ => (List.reverse_reverse _).symm

variable [Std.LawfulEqOrd κ] [Std.TransOrd κ] [Std.LawfulEqOrd α] [Std.TransOrd α]

variable {m : SortedMap κ (SortedSet α)} {k l : κ} {a : α} {key : α → κ} {xs : List α}

theorem get?_extend {members : List α} :
    (m.extend l members).get? k = if compare k l = .eq then
      some ((m.get? l).getD ∅ ∪ .ofList members) else m.get? k := get?_alter

theorem contains_extend {members : List α} :
    (m.extend l members).contains k = true ↔ m.contains k = true ∨ k = l := by
  unfold contains
  rw [get?_extend]
  by_cases hk : k = l
  · subst hk
    simp [Std.ReflOrd.compare_self]
  · rw [if_neg fun hEq => hk (Std.LawfulEqOrd.eq_of_compare hEq)]
    simp [hk]

theorem hasMember_extend {members : List α} :
    (m.extend l members).HasMember k a ↔ m.HasMember k a ∨ (k = l ∧ a ∈ members) := by
  unfold HasMember
  rw [get?_extend]
  by_cases hk : k = l
  · subst hk
    rw [if_pos Std.ReflOrd.compare_self]
    cases m.get? k <;> simp
  · rw [if_neg fun hEq => hk (Std.LawfulEqOrd.eq_of_compare hEq)]
    simp [hk]

/-- Filing lists of values under keys, one after another, adds them to the groups of their keys. -/
theorem hasMember_foldl_extendAll {β : Type w} {key : β → κ} {members : β → List α}
    {xs : List β} :
    (xs.foldl (fun m x => m.extend (key x) (members x)) m).HasMember k a ↔
      m.HasMember k a ∨ ∃ x ∈ xs, key x = k ∧ a ∈ members x := by
  induction xs generalizing m with
  | nil => simp
  | cons x xs ih =>
    rw [List.foldl_cons, ih, hasMember_extend, or_assoc, eq_comm (a := k)]
    simp only [List.mem_cons, or_and_right, exists_or, exists_eq_left]

theorem hasMember_foldl_extend {β : Type w} {key : β → κ} {value : β → α} {xs : List β} :
    (xs.foldl (fun m x => m.extend (key x) [value x]) m).HasMember k a ↔
      m.HasMember k a ∨ ∃ x ∈ xs, key x = k ∧ value x = a := by
  rw [hasMember_foldl_extendAll]
  simp only [List.mem_singleton, eq_comm (a := a)]

/-- Filing values under keys makes a group for every key, whether or not it gets a value. -/
theorem contains_foldl_extendAll {β : Type w} {key : β → κ} {members : β → List α}
    {xs : List β} :
    (xs.foldl (fun m x => m.extend (key x) (members x)) m).contains k = true ↔
      m.contains k = true ∨ ∃ x ∈ xs, key x = k := by
  induction xs generalizing m with
  | nil => simp
  | cons x xs ih =>
    rw [List.foldl_cons, ih, contains_extend, or_assoc, eq_comm (a := k)]
    simp only [List.mem_cons, or_and_right, exists_or, exists_eq_left]

/-- A group holds the elements with its key. -/
theorem mem_groupBy : (groupBy key xs).HasMember k a ↔ a ∈ xs ∧ key a = k := by
  rw [groupBy, hasMember_foldl_extend, or_iff_right not_hasMember_empty]
  constructor
  · rintro ⟨x, hx, hKey, rfl⟩
    exact ⟨hx, hKey⟩
  · rintro ⟨ha, hKey⟩
    exact ⟨a, ha, hKey, rfl⟩

theorem mem_entry_groupBy {s : SortedSet α} (h : (k, s) ∈ (groupBy key xs).toList) :
    a ∈ s ↔ a ∈ xs ∧ key a = k := by
  rw [← mem_groupBy]
  have hGet := get?_eq_some_iff.2 h
  constructor
  · exact fun hMem => ⟨s, hGet, hMem⟩
  · rintro ⟨s', hGet', hMem⟩
    rw [hGet] at hGet'
    exact Option.some.inj hGet' ▸ hMem

theorem mem_descending_groupBy : a ∈ (groupBy key xs).descending ↔ a ∈ xs := by
  simp only [descending, List.mem_flatMap, List.mem_reverse]
  constructor
  · rintro ⟨⟨k, s⟩, hEntry, hMem⟩
    exact ((mem_entry_groupBy hEntry).1 hMem).1
  · intro hMem
    obtain ⟨s, hGet, hIn⟩ := (mem_groupBy (k := key a)).2 ⟨hMem, rfl⟩
    exact ⟨⟨key a, s⟩, get?_eq_some_iff.1 hGet, hIn⟩

/-- However the groups are read, from the last one to the first no element repeats and keys do not
grow. -/
theorem pairwise_groupBy (key : α → κ) (xs : List α) (read : SortedSet α → List α)
    (hRead : ∀ s, (read s).Nodup ∧ ∀ a ∈ read s, a ∈ s) :
    ((groupBy key xs).toList.reverse.flatMap fun (_, s) => read s).Pairwise fun a b =>
      a ≠ b ∧ compare (key b) (key a) ≠ .gt := by
  rw [List.pairwise_flatMap]
  constructor
  · intro ⟨k, s⟩ hEntry
    rw [List.mem_reverse] at hEntry
    refine List.Pairwise.imp_of_mem ?_ (hRead s).1
    intro a b ha hb hNe
    have hKeys : key a = key b :=
      ((mem_entry_groupBy hEntry).1 ((hRead s).2 a ha)).2.trans
        ((mem_entry_groupBy hEntry).1 ((hRead s).2 b hb)).2.symm
    refine ⟨hNe, ?_⟩
    rw [hKeys, Std.ReflOrd.compare_self]
    exact Ordering.noConfusion
  · have hKeys := List.pairwise_map.1 (groupBy key xs).ascending
    refine List.pairwise_reverse.2 (List.Pairwise.imp_of_mem ?_ hKeys)
    rintro ⟨k, s⟩ ⟨l, r⟩ hs hr hLt a ha b hb
    obtain ⟨-, rfl⟩ := (mem_entry_groupBy hr).1 ((hRead r).2 a ha)
    obtain ⟨-, rfl⟩ := (mem_entry_groupBy hs).1 ((hRead s).2 b hb)
    dsimp only at hLt
    refine ⟨?_, ?_⟩
    · rintro rfl
      rw [Std.ReflOrd.compare_self] at hLt
      cases hLt
    · rw [hLt]
      exact Ordering.noConfusion

theorem groupBy_descending (key : α → κ) (xs : List α) :
    (groupBy key xs).descending.Pairwise fun a b => a ≠ b ∧ compare (key b) (key a) ≠ .gt :=
  pairwise_groupBy key xs (fun s => s.toList.reverse) fun s =>
    ⟨List.nodup_reverse.2 s.ascending.nodup, fun _ ha => List.mem_reverse.1 ha⟩

/-! ## Equal groupings -/

theorem Peopled.extend (h : m.Peopled) (k : κ) (a : α) : (m.extend k [a]).Peopled := by
  intro l s hGet
  rw [get?_extend] at hGet
  split at hGet
  · obtain rfl := Option.some.inj hGet
    exact ⟨a, SortedSet.mem_union.2 (Or.inr (SortedSet.mem_ofList.2 (List.mem_singleton_self a)))⟩
  · exact h l s hGet

theorem Peopled.foldl_extend {β : Type w} {value : β → α} {key : β → κ} (h : m.Peopled)
    (xs : List β) : (xs.foldl (fun m x => m.extend (key x) [value x]) m).Peopled :=
  List.foldlRecOn xs _ h fun _ hm x _ => hm.extend (key x) (value x)

/-- Groups with the same keys and the same members are equal. -/
theorem ext_contains {n : SortedMap κ (SortedSet α)}
    (hKeys : ∀ k, m.contains k = true ↔ n.contains k = true)
    (h : ∀ k a, m.HasMember k a ↔ n.HasMember k a) : m = n := by
  apply SortedMap.ext
  intro k
  have hKey := hKeys k
  have hMembers := h k
  unfold contains at hKey
  unfold HasMember at hMembers
  cases hm : m.get? k with
  | none =>
    cases hn : n.get? k with
    | none => rfl
    | some t => simp [hm, hn] at hKey
  | some s =>
    cases hn : n.get? k with
    | none => simp [hm, hn] at hKey
    | some t =>
      refine congrArg some (SortedSet.ext fun a => ?_)
      simpa [hm, hn] using hMembers a

/-- Groups with members are determined by them. -/
theorem ext_hasMember {n : SortedMap κ (SortedSet α)} (hm : m.Peopled) (hn : n.Peopled)
    (h : ∀ k a, m.HasMember k a ↔ n.HasMember k a) : m = n := by
  refine ext_contains (fun k => ⟨fun hk => ?_, fun hk => ?_⟩) h
  · obtain ⟨a, ha⟩ := peopled_iff.1 hm k hk
    exact ((h k a).1 ha).contains
  · obtain ⟨a, ha⟩ := peopled_iff.1 hn k hk
    exact ((h k a).2 ha).contains

end SortedMap

end OntoFold
