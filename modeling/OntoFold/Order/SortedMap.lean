import OntoFold.Order.SortedSet

/-!
# Sorted maps

Finite maps held as lists of entries with strictly ascending keys. Entries are visited in the
order of their keys, and a key has at most one value.

* `SortedMap.get?_insert`: what a map holds after an insertion.
* `SortedMap.get?_eq_some_iff`: looking a key up finds exactly its entry.
-/

namespace OntoFold

variable {κ : Type u} {ν : Type v} [Ord κ]

/-! ## Lists of entries -/

/-- Gives a key a new value, computed from the one it has. -/
def alterEntry (k : κ) (f : Option ν → ν) : List (κ × ν) → List (κ × ν)
  | [] => [(k, f none)]
  | (l, v) :: rest =>
    match compare k l with
    | .lt => (k, f none) :: (l, v) :: rest
    | .eq => (l, f (some v)) :: rest
    | .gt => (l, v) :: alterEntry k f rest

/-- The value a key has in a list of entries. -/
def findEntry (k : κ) : List (κ × ν) → Option ν
  | [] => none
  | (l, v) :: rest => if compare k l = .eq then some v else findEntry k rest

theorem map_fst_alterEntry (k : κ) (f : Option ν → ν) (entries : List (κ × ν)) :
    (alterEntry k f entries).map Prod.fst = insertAscending k (entries.map Prod.fst) := by
  induction entries with
  | nil => rfl
  | cons entry rest ih =>
    obtain ⟨l, v⟩ := entry
    unfold alterEntry
    rw [List.map_cons]
    unfold insertAscending
    split <;> simp_all

section Lawful

variable [Std.LawfulEqOrd κ]

theorem findEntry_eq_some_iff {k : κ} {v : ν} {entries : List (κ × ν)}
    [Std.TransOrd κ] (h : Ascending (entries.map Prod.fst)) :
    findEntry k entries = some v ↔ (k, v) ∈ entries := by
  induction entries with
  | nil => simp [findEntry]
  | cons entry rest ih =>
    obtain ⟨l, w⟩ := entry
    obtain ⟨hHead, hTail⟩ := List.pairwise_cons.1 h
    unfold findEntry
    split
    · next hEq =>
      obtain rfl := Std.LawfulEqOrd.eq_of_compare hEq
      refine ⟨fun hv => by simp_all, fun hMem => ?_⟩
      rcases List.mem_cons.1 hMem with hv | hMem
      · cases hv; rfl
      · have hLt := hHead k (List.mem_map.2 ⟨_, hMem, rfl⟩)
        rw [Std.ReflOrd.compare_self] at hLt
        cases hLt
    · next hNe =>
      rw [ih hTail, List.mem_cons]
      refine ⟨Or.inr, fun hMem => hMem.resolve_left ?_⟩
      rintro ⟨⟩
      exact hNe Std.ReflOrd.compare_self

theorem findEntry_eq_none_iff {k : κ} {entries : List (κ × ν)} :
    findEntry k entries = none ↔ k ∉ entries.map Prod.fst := by
  induction entries with
  | nil => simp [findEntry]
  | cons entry rest ih =>
    unfold findEntry
    split
    · next hEq => simp [Std.LawfulEqOrd.eq_of_compare hEq]
    · next hNe =>
      rw [ih, List.map_cons, List.mem_cons, not_or]
      refine ⟨fun hMem => ⟨?_, hMem⟩, And.right⟩
      rintro rfl
      exact hNe Std.ReflOrd.compare_self

/-- Entries with the same keys and the same members are the same. -/
theorem entries_ext {xs ys : List (κ × ν)} (h : Ascending (xs.map Prod.fst))
    (hKeys : xs.map Prod.fst = ys.map Prod.fst) (hMem : ∀ k v, (k, v) ∈ xs ↔ (k, v) ∈ ys) :
    xs = ys := by
  induction xs generalizing ys with
  | nil => cases ys <;> simp_all
  | cons x xs ih =>
    cases ys with
    | nil => simp at hKeys
    | cons y ys =>
      obtain ⟨k, v⟩ := x
      obtain ⟨l, w⟩ := y
      rw [List.map_cons] at h hKeys
      rw [List.map_cons] at hKeys
      obtain ⟨rfl, hTail⟩ := List.cons.inj hKeys
      have hx : ∀ v', (k, v') ∉ xs := fun v' hIn => h.not_mem (List.mem_map.2 ⟨_, hIn, rfl⟩)
      have hy : ∀ v', (k, v') ∉ ys := fun v' hIn =>
        h.not_mem (hTail ▸ List.mem_map.2 ⟨_, hIn, rfl⟩)
      have hHead : v = w := by
        have hv := (hMem k v).1 (List.mem_cons_self ..)
        simpa [hy v] using hv
      subst hHead
      rw [ih (List.pairwise_cons.1 h).2 hTail fun k' v' => ?_]
      have := hMem k' v'
      simp only [List.mem_cons, Prod.mk.injEq] at this
      constructor
      · intro hIn
        refine (this.1 (Or.inr hIn)).resolve_left ?_
        rintro ⟨rfl, rfl⟩
        exact hx _ hIn
      · intro hIn
        refine (this.2 (Or.inr hIn)).resolve_left ?_
        rintro ⟨rfl, rfl⟩
        exact hy _ hIn

variable [Std.TransOrd κ]

theorem ascending_alterEntry {k : κ} {f : Option ν → ν} {entries : List (κ × ν)}
    (h : Ascending (entries.map Prod.fst)) :
    Ascending ((alterEntry k f entries).map Prod.fst) := by
  rw [map_fst_alterEntry]
  exact h.insert

theorem findEntry_alterEntry {k l : κ} {f : Option ν → ν} {entries : List (κ × ν)}
    (h : Ascending (entries.map Prod.fst)) :
    findEntry l (alterEntry k f entries) =
      if compare l k = .eq then some (f (findEntry k entries)) else findEntry l entries := by
  induction entries with
  | nil => simp [alterEntry, findEntry]
  | cons entry rest ih =>
    obtain ⟨m, w⟩ := entry
    obtain ⟨hHead, hTail⟩ := List.pairwise_cons.1 h
    unfold alterEntry
    split
    · next hLt =>
      have hAbsent : findEntry k ((m, w) :: rest) = none := by
        refine findEntry_eq_none_iff.2 fun hMem => ?_
        rcases List.mem_cons.1 hMem with rfl | hMem
        · rw [Std.ReflOrd.compare_self] at hLt
          cases hLt
        · have hTrans := Std.TransCmp.lt_trans hLt (hHead k hMem)
          rw [Std.ReflOrd.compare_self] at hTrans
          cases hTrans
      rw [hAbsent]
      rfl
    · next hEq =>
      obtain rfl := Std.LawfulEqOrd.eq_of_compare hEq
      simp only [findEntry, Std.ReflOrd.compare_self, if_true]
      split <;> rfl
    · next hGt =>
      have hNe : compare k m ≠ .eq := by rw [hGt]; decide
      simp only [findEntry, ih hTail, hNe, if_false]
      split
      · next hEq =>
        obtain rfl := Std.LawfulEqOrd.eq_of_compare hEq
        rw [if_neg fun hEq' => hNe ?_]
        obtain rfl := Std.LawfulEqOrd.eq_of_compare hEq'
        exact Std.ReflOrd.compare_self
      · rfl

end Lawful

/-! ## Maps -/

/-- A finite map, as the list of its entries in the order of their keys. -/
structure SortedMap (κ : Type u) (ν : Type v) [Ord κ] where
  toList : List (κ × ν)
  ascending : Ascending (toList.map Prod.fst)

namespace SortedMap

theorem toList_injective {m n : SortedMap κ ν} (h : m.toList = n.toList) : m = n := by
  cases m; cases n; cases h; rfl

def empty : SortedMap κ ν := ⟨[], ascending_nil⟩

instance : EmptyCollection (SortedMap κ ν) := ⟨empty⟩

instance : Inhabited (SortedMap κ ν) := ⟨empty⟩

/-- The number of keys. -/
def size (m : SortedMap κ ν) : Nat := m.toList.length

def isEmpty (m : SortedMap κ ν) : Bool := m.toList.isEmpty

def keys (m : SortedMap κ ν) : SortedSet κ := ⟨m.toList.map Prod.fst, m.ascending⟩

/-- The values, in the order of their keys. -/
def values (m : SortedMap κ ν) : List ν := m.toList.map Prod.snd

def get? (m : SortedMap κ ν) (k : κ) : Option ν := findEntry k m.toList

def contains (m : SortedMap κ ν) (k : κ) : Bool := (m.get? k).isSome

@[simp] theorem get?_empty (k : κ) : (∅ : SortedMap κ ν).get? k = none := rfl

def filter (p : κ → ν → Bool) (m : SortedMap κ ν) : SortedMap κ ν :=
  ⟨m.toList.filter fun (k, v) => p k v,
    m.ascending.sublist ((List.filter_sublist ..).map _)⟩

/-- Recomputes every value from its entry. -/
def mapValues {ω : Type w} (f : κ → ν → ω) (m : SortedMap κ ν) : SortedMap κ ω :=
  ⟨m.toList.map fun (k, v) => (k, f k v), by
    have hKeys : (m.toList.map fun (k, v) => (k, f k v)).map Prod.fst = m.toList.map Prod.fst := by
      simp
    rw [hKeys]
    exact m.ascending⟩

section Lawful

variable [Std.LawfulEqOrd κ] [Std.TransOrd κ]

theorem get?_eq_some_iff {m : SortedMap κ ν} {k : κ} {v : ν} :
    m.get? k = some v ↔ (k, v) ∈ m.toList :=
  findEntry_eq_some_iff m.ascending

/-- Gives a key a new value, computed from the one it has. -/
def alter (m : SortedMap κ ν) (k : κ) (f : Option ν → ν) : SortedMap κ ν :=
  ⟨alterEntry k f m.toList, ascending_alterEntry m.ascending⟩

theorem get?_alter {m : SortedMap κ ν} {k l : κ} {f : Option ν → ν} :
    (m.alter k f).get? l = if compare l k = .eq then some (f (m.get? k)) else m.get? l :=
  findEntry_alterEntry m.ascending

def insert (m : SortedMap κ ν) (k : κ) (v : ν) : SortedMap κ ν := m.alter k fun _ => v

theorem get?_insert {m : SortedMap κ ν} {k l : κ} {v : ν} :
    (m.insert k v).get? l = if compare l k = .eq then some v else m.get? l :=
  get?_alter

theorem ext {m n : SortedMap κ ν} (h : ∀ k, m.get? k = n.get? k) : m = n := by
  have hMem : ∀ k v, (k, v) ∈ m.toList ↔ (k, v) ∈ n.toList := fun k v => by
    rw [← get?_eq_some_iff, ← get?_eq_some_iff, h]
  have hKeys : m.keys = n.keys := SortedSet.ext fun k => by
    change k ∈ m.toList.map Prod.fst ↔ k ∈ n.toList.map Prod.fst
    simp [hMem]
  exact toList_injective (entries_ext m.ascending (congrArg SortedSet.toList hKeys) hMem)

/-! ## Maps to sets -/

section ToSets

variable {α : Type v} [Ord α] [Std.LawfulEqOrd α] [Std.TransOrd α]

/-- Adds members to the set of a key. -/
def extend (m : SortedMap κ (SortedSet α)) (k : κ) (members : List α) :
    SortedMap κ (SortedSet α) :=
  m.alter k fun s => s.getD ∅ ∪ .ofList members

/-- The elements of a list, grouped by the keys that a function gives them. -/
def groupBy (key : α → κ) (elements : List α) : SortedMap κ (SortedSet α) :=
  elements.foldl (fun m a => m.extend (key a) [a]) ∅

end ToSets

end Lawful

end SortedMap

end OntoFold
