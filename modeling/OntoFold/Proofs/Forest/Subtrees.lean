import OntoFold.Tree.Forest

/-!
# The subtrees of a forest

What stands at the nodes of a forest: the labels of its first trees, the first trees
themselves, and the trees at all nodes. Maps commute with all three.
-/

namespace OntoFold

namespace Forest

variable {α : Type u} {β : Type v}

/-- The labels of the first trees. -/
def heads : Forest α → List α
  | nil => []
  | cons head _ rest => head :: rest.heads

/-- The first trees. -/
def trees : Forest α → List (Tree α)
  | nil => []
  | cons head below rest => ⟨head, below⟩ :: rest.trees

/-- The trees at all nodes, in pre-order. -/
def subtrees : Forest α → List (Tree α)
  | nil => []
  | cons head below rest => ⟨head, below⟩ :: (below.subtrees ++ rest.subtrees)

@[simp] theorem heads_nil : (nil : Forest α).heads = [] := rfl

@[simp] theorem heads_cons {a : α} {b r : Forest α} : (cons a b r).heads = a :: r.heads := rfl

@[simp] theorem subtrees_nil : (nil : Forest α).subtrees = [] := rfl

@[simp] theorem subtrees_cons {a : α} {b r : Forest α} :
    (cons a b r).subtrees = ⟨a, b⟩ :: (b.subtrees ++ r.subtrees) := rfl

@[simp] theorem toList_nil : (nil : Forest α).toList = [] := rfl

@[simp] theorem toList_cons {a : α} {b r : Forest α} :
    (cons a b r).toList = a :: (b.toList ++ r.toList) := rfl

@[simp] theorem heads_map (f : α → β) (t : Forest α) : (t.map f).heads = t.heads.map f := by
  induction t with
  | nil => rfl
  | cons head below rest _ ihRest => simp [map, ihRest]

@[simp] theorem toList_map (f : α → β) (t : Forest α) : (t.map f).toList = t.toList.map f := by
  induction t with
  | nil => rfl
  | cons head below rest ihBelow ihRest => simp [map, ihBelow, ihRest]

@[simp] theorem subtrees_map (f : α → β) (t : Forest α) :
    (t.map f).subtrees = t.subtrees.map (Tree.map f) := by
  induction t with
  | nil => rfl
  | cons head below rest ihBelow ihRest => simp [map, ihBelow, ihRest, Tree.map]

theorem heads_eq (t : Forest α) : t.heads = t.trees.map Tree.label := by
  induction t with
  | nil => rfl
  | cons head below rest _ ihRest => simp [trees, ihRest]

theorem map_label_subtrees (t : Forest α) : t.subtrees.map Tree.label = t.toList := by
  induction t with
  | nil => rfl
  | cons head below rest ihBelow ihRest => simp [ihBelow, ihRest]

theorem mem_toList_iff {a : α} {t : Forest α} : a ∈ t.toList ↔ ∃ b, ⟨a, b⟩ ∈ t.subtrees := by
  rw [← map_label_subtrees, List.mem_map]
  constructor
  · rintro ⟨⟨head, below⟩, hMem, rfl⟩
    exact ⟨below, hMem⟩
  · rintro ⟨below, hMem⟩
    exact ⟨_, hMem, rfl⟩

theorem mem_toList_of_mem_heads {a : α} {t : Forest α} (h : a ∈ t.heads) : a ∈ t.toList := by
  induction t with
  | nil => exact h
  | cons head below rest _ ihRest =>
    rcases List.mem_cons.1 h with rfl | h
    · exact List.mem_cons_self
    · exact List.mem_cons_of_mem _ (List.mem_append_right _ (ihRest h))

/-- Whatever stands below a node of a forest stands in the forest. -/
theorem mem_toList_of_mem_subtrees {a : α} {s : Tree α} {t : Forest α} (hs : s ∈ t.subtrees)
    (ha : a ∈ s.below.toList) : a ∈ t.toList := by
  induction t with
  | nil => cases hs
  | cons head below rest ihBelow ihRest =>
    rw [toList_cons, List.mem_cons, List.mem_append]
    rw [subtrees_cons, List.mem_cons, List.mem_append] at hs
    rcases hs with rfl | hs | hs
    · exact Or.inr (Or.inl ha)
    · exact Or.inr (Or.inl (ihBelow hs))
    · exact Or.inr (Or.inr (ihRest hs))

theorem subtrees_trans {s r : Tree α} {t : Forest α} (hs : s ∈ t.subtrees)
    (hr : r ∈ s.below.subtrees) : r ∈ t.subtrees := by
  induction t with
  | nil => cases hs
  | cons head below rest ihBelow ihRest =>
    rw [subtrees_cons, List.mem_cons, List.mem_append] at hs ⊢
    rcases hs with rfl | hs | hs
    · exact Or.inr (Or.inl hr)
    · exact Or.inr (Or.inl (ihBelow hs))
    · exact Or.inr (Or.inr (ihRest hs))

theorem mem_subtrees_iff {s : Tree α} {t : Forest α} :
    s ∈ t.subtrees ↔ ∃ r ∈ t.trees, s = r ∨ s ∈ r.below.subtrees := by
  induction t with
  | nil => simp [trees]
  | cons head below rest _ ihRest => simp [trees, ihRest, or_assoc]

theorem mem_subtrees_of_mem_trees {s : Tree α} {t : Forest α} (h : s ∈ t.trees) :
    s ∈ t.subtrees := mem_subtrees_iff.2 ⟨s, h, Or.inl rfl⟩

/-- A tree in a forest is a first one, or a child of some tree. -/
theorem mem_trees_or_child {s : Tree α} {f : Forest α} (h : s ∈ f.subtrees) :
    s ∈ f.trees ∨ ∃ r ∈ f.subtrees, s ∈ r.below.trees := by
  induction f with
  | nil => cases h
  | cons x b r ihBelow ihRest =>
    rw [subtrees_cons, List.mem_cons, List.mem_append] at h
    rcases h with rfl | h | h
    · exact Or.inl List.mem_cons_self
    · right
      rcases ihBelow h with hFirst | ⟨r, hr, hChild⟩
      · exact ⟨_, List.mem_cons_self, hFirst⟩
      · exact ⟨r, List.mem_cons_of_mem _ (List.mem_append_left _ hr), hChild⟩
    · rcases ihRest h with hFirst | ⟨r, hr, hChild⟩
      · exact Or.inl (List.mem_cons_of_mem _ hFirst)
      · exact Or.inr ⟨r, List.mem_cons_of_mem _ (List.mem_append_right _ hr), hChild⟩

theorem size_le_of_mem_subtrees {s : Tree α} {t : Forest α} (hs : s ∈ t.subtrees) :
    s.size ≤ t.size := by
  induction t with
  | nil => cases hs
  | cons head below rest ihBelow ihRest =>
    rw [subtrees_cons, List.mem_cons, List.mem_append] at hs
    rcases hs with rfl | hs | hs
    · simp only [Tree.size, size]
      omega
    · have := ihBelow hs
      simp only [size]
      omega
    · have := ihRest hs
      simp only [size]
      omega

end Forest

namespace Tree

variable {α : Type u} {β : Type v}

/-- A tree as a forest of its own. -/
def toForest (t : Tree α) : Forest α := .cons t.label t.below .nil

/-- The trees at all nodes of a tree, in pre-order. -/
def subtrees (t : Tree α) : List (Tree α) := t :: t.below.subtrees

@[simp] theorem toForest_mk {a : α} {b : Forest α} : toForest ⟨a, b⟩ = .cons a b .nil := rfl

theorem toForest_injective {s t : Tree α} (h : s.toForest = t.toForest) : s = t := by
  cases s
  cases t
  simpa using h

theorem subtrees_trans {r s t : Tree α} (hs : s ∈ t.subtrees) (hr : r ∈ s.below.subtrees) :
    r ∈ t.subtrees := by
  rcases List.mem_cons.1 hs with rfl | hs
  · exact List.mem_cons_of_mem _ hr
  · exact List.mem_cons_of_mem _ (Forest.subtrees_trans hs hr)

theorem subtrees_toForest (t : Tree α) : t.toForest.subtrees = t.subtrees := by
  simp [toForest, subtrees]

theorem toList_toForest (t : Tree α) : t.toForest.toList = t.toList := by
  simp [toForest, toList]

theorem length_toList (t : Tree α) : t.toList.length = t.size := by
  simp [toList, size, Forest.length_toList]

@[simp] theorem below_map (f : α → β) (t : Tree α) : (t.map f).below = t.below.map f := rfl

@[simp] theorem label_map (f : α → β) (t : Tree α) : (t.map f).label = f t.label := rfl

@[simp] theorem toList_map (f : α → β) (t : Tree α) : (t.map f).toList = t.toList.map f := by
  simp [toList]

@[simp] theorem size_map (f : α → β) (t : Tree α) : (t.map f).size = t.size := by
  simp [← length_toList]

theorem subtrees_map (f : α → β) (t : Tree α) :
    (t.map f).subtrees = t.subtrees.map (Tree.map f) := by
  simp [subtrees]

theorem map_mem_subtrees {s t : Tree α} (f : α → β) (h : s ∈ t.subtrees) :
    s.map f ∈ (t.map f).subtrees := subtrees_map f t ▸ List.mem_map_of_mem h

end Tree

end OntoFold
