import OntoFold.Arena.Substitution
import OntoFold.Proofs.Arena.Representation
import OntoFold.Proofs.Journal
import OntoFold.Proofs.Order.Grouping

/-!
# Ancestors in arenas

Following the links to parents ends at the root, since the tree above a node grows with every
link. The nodes above some nodes form a set that is closed upwards, and listing it by depth
puts every node behind those below it.

* `Arena.Represents.upwardClosure`: the closure of some nodes.
* `Arena.Represents.deepestFirst`: its order.
-/

namespace OntoFold

namespace Forest

/-- Below a node, an address leads to a child through nodes that have the property of the
address, when parents inherit it. -/
theorem exists_root_of_closed {β : Type v} {f : Forest (NodeId × β)} {P : NodeId → Prop}
    {j : NodeId} (h : ∀ s ∈ f.subtrees, ∀ i ∈ s.below.roots, P i → P s.label.1)
    (hj : j ∈ f.ids) (hP : P j) : ∃ i ∈ f.roots, P i := by
  induction f with
  | nil => cases hj
  | cons x b r ihBelow ihRest =>
    rw [ids_cons, List.mem_cons, List.mem_append] at hj
    rcases hj with rfl | hj | hj
    · exact ⟨x.1, List.mem_cons_self, hP⟩
    · obtain ⟨i, hi, hPi⟩ := ihBelow
        (fun s hs => h s (List.mem_cons_of_mem _ (List.mem_append_left _ hs))) hj
      exact ⟨x.1, List.mem_cons_self, h ⟨x, b⟩ List.mem_cons_self i hi hPi⟩
    · obtain ⟨i, hi, hPi⟩ := ihRest
        (fun s hs => h s (List.mem_cons_of_mem _ (List.mem_append_right _ hs))) hj
      exact ⟨i, List.mem_cons_of_mem _ hi, hPi⟩

/-- No node of the list stands below an earlier one. -/
def BottomUp (f : Forest (NodeId × Label)) (order : List NodeId) : Prop :=
  order.Pairwise fun i j => ∀ s ∈ f.subtrees, s.label.1 = i → j ∉ s.below.ids

end Forest

/-- A set of nodes that contains some nodes and the parents of its members. -/
structure Tree.Covers (t : Tree (NodeId × Label)) (ids : List NodeId)
    (stale : SortedSet NodeId) : Prop where
  mem : ∀ i ∈ ids, i ∈ stale
  upwards : ∀ r ∈ t.subtrees, ∀ i ∈ r.below.roots, i ∈ stale → r.label.1 ∈ stale
  subset : ∀ i ∈ stale, i ∈ t.ids

namespace Arena

variable {a : Arena} {s t : Tree (NodeId × Label)} {id : NodeId} {stale : SortedSet NodeId}

/-! ## Parents -/

/-- A node is the root, or a child of a node with a larger tree. -/
theorem Represents.parent_cases (h : a.Represents t) (hs : s ∈ t.subtrees) :
    (s = t ∧ a.get? s.label.1 = some ⟨s.label.2, none, s.below.roots⟩) ∨
      ∃ r ∈ t.subtrees, s ∈ r.below.trees ∧
        a.get? s.label.1 = some ⟨s.label.2, some r.label.1, s.below.roots⟩ := by
  rcases List.mem_cons.1 hs with rfl | hBelow
  · exact Or.inl ⟨rfl, h.get?_root⟩
  · right
    obtain ⟨r, hr, hChild⟩ : ∃ r ∈ t.subtrees, s ∈ r.below.trees := by
      rcases Forest.mem_trees_or_child hBelow with hFirst | ⟨r, hr, hChild⟩
      · exact ⟨t, List.mem_cons_self, hFirst⟩
      · exact ⟨r, List.mem_cons_of_mem _ hr, hChild⟩
    have hRoot : s.label.1 ∈ r.below.roots := by
      rw [Forest.roots_eq]
      exact List.mem_map_of_mem hChild
    obtain ⟨q, hq⟩ := h.get? hs
    obtain ⟨n, hn, hParent⟩ := h.parent hr hRoot
    obtain rfl : n = _ := Option.some.inj (hn.symm.trans hq)
    obtain rfl : q = some r.label.1 := hParent
    exact ⟨r, hr, hChild, hq⟩

theorem size_lt_of_mem_below {α : Type u} {r s : Tree α} (h : s ∈ r.below.trees) :
    s.size < r.size :=
  Nat.lt_succ_of_le (Forest.size_le_of_mem_subtrees (Forest.mem_subtrees_of_mem_trees h))

theorem size_le_of_mem {α : Type u} {t s : Tree α} (h : s ∈ t.subtrees) : s.size ≤ t.size := by
  rcases List.mem_cons.1 h with rfl | h
  · exact Nat.le_refl _
  · exact Nat.le_succ_of_le (Forest.size_le_of_mem_subtrees h)

/-! ## Depths -/

theorem ancestorsWithin_succ {fuel : Nat} {ids : List NodeId}
    (h : a.ancestorsWithin fuel id = .ok ids) : a.ancestorsWithin (fuel + 1) id = .ok ids := by
  induction fuel generalizing id ids with
  | zero => cases h
  | succ fuel ih =>
    rw [ancestorsWithin] at h ⊢
    cases hNode : a.node id with
    | error e => rw [hNode] at h; cases h
    | ok n =>
      rw [hNode] at h
      simp only [bind, Except.bind] at h ⊢
      cases hParent : n.parent with
      | none => rw [hParent] at h; exact h
      | some parent =>
        rw [hParent] at h
        cases hRest : a.ancestorsWithin fuel parent with
        | error e => simp [hRest] at h
        | ok rest =>
          simp only [hRest] at h
          simp only [ih hRest]
          exact h

/-- Enough fuel to climb from a node to the root. -/
theorem Represents.ancestorsWithin (h : a.Represents t) {fuel : Nat} (hs : s ∈ t.subtrees)
    (hFuel : t.size < s.size + fuel) : ∃ ids, a.ancestorsWithin fuel s.label.1 = .ok ids := by
  induction fuel generalizing s with
  | zero => exact absurd hFuel (Nat.not_lt_of_le (size_le_of_mem hs))
  | succ fuel ih =>
    rw [Arena.ancestorsWithin]
    rcases h.parent_cases hs with ⟨-, hGet⟩ | ⟨r, hr, hChild, hGet⟩
    · exact ⟨[], by rw [node_eq_ok hGet]; rfl⟩
    · have hLt := size_lt_of_mem_below hChild
      obtain ⟨ids, hIds⟩ := ih hr (by omega)
      refine ⟨r.label.1 :: ids, ?_⟩
      rw [node_eq_ok hGet]
      simp only [bind, Except.bind, hIds]
      rfl

/-- Every node has a depth, and children are one deeper. -/
theorem Represents.exists_depth (h : a.Represents t) :
    ∃ depth : NodeId → Nat, (∀ s ∈ t.subtrees, a.depth s.label.1 = .ok (depth s.label.1)) ∧
      ∀ r ∈ t.subtrees, ∀ s ∈ r.below.trees, depth s.label.1 = depth r.label.1 + 1 := by
  have hDepth : ∀ s ∈ t.subtrees, ∃ ids,
      a.ancestorsWithin (a.slots.size + 1) s.label.1 = .ok ids := by
    intro s hs
    have hSize := h.size_le
    exact h.ancestorsWithin hs (by omega)
  refine ⟨fun i => match a.depth i with | .ok n => n | .error _ => 0, fun s hs => ?_,
    fun r hr s hChild => ?_⟩
  · obtain ⟨ids, hIds⟩ := hDepth s hs
    have hOk : a.depth s.label.1 = .ok ids.length := by
      rw [depth, hIds]
      rfl
    simp only [hOk]
  · have hs : s ∈ t.subtrees :=
      Tree.subtrees_trans hr (Forest.mem_subtrees_of_mem_trees hChild)
    have hGet : a.get? s.label.1 = some ⟨s.label.2, some r.label.1, s.below.roots⟩ := by
      rcases h.parent_cases hs with ⟨rfl, -⟩ | ⟨r', hr', hChild', hGet⟩
      · exact absurd (size_lt_of_mem_below hChild) (Nat.not_lt_of_le (size_le_of_mem hr))
      · rwa [h.parent_unique hr' hr (Forest.mem_roots_of_mem_trees hChild')
          (Forest.mem_roots_of_mem_trees hChild)] at hGet
    have hLt := size_lt_of_mem_below hChild
    have hSize := h.size_le
    have hFuel : t.size < r.size + a.slots.size := by omega
    obtain ⟨ids, hIds⟩ := h.ancestorsWithin hr hFuel
    have hRow : a.depth r.label.1 = .ok ids.length := by
      rw [depth, ancestorsWithin_succ hIds]
      rfl
    have hChildRow : a.depth s.label.1 = .ok (ids.length + 1) := by
      rw [depth, Arena.ancestorsWithin, node_eq_ok hGet]
      simp only [bind, Except.bind, hIds]
      rfl
    simp only [hRow, hChildRow]

/-! ## Closing upwards -/

/-- Climbing from a node adds what is missing above it. -/
theorem Represents.addUpwards (h : a.Represents t) {fuel : Nat} (hs : s ∈ t.subtrees)
    (hFuel : t.size < s.size + fuel)
    (hUpwards : ∀ r ∈ t.subtrees, ∀ i ∈ r.below.roots, i ∈ stale →
      r.label.1 ∈ stale ∨ r.label.1 = s.label.1)
    (hSubset : ∀ i ∈ stale, i ∈ t.ids) :
    ∃ closed, a.addUpwards fuel s.label.1 stale = .ok closed ∧
      t.Covers (s.label.1 :: stale.toList) closed := by
  induction fuel generalizing s stale with
  | zero => exact absurd hFuel (Nat.not_lt_of_le (size_le_of_mem hs))
  | succ fuel ih =>
    rw [Arena.addUpwards]
    by_cases hMem : s.label.1 ∈ stale
    · refine ⟨stale, by rw [if_pos hMem]; rfl, fun i hi => ?_, fun r hr i hi hStale => ?_, hSubset⟩
      · rcases List.mem_cons.1 hi with rfl | hi
        · exact hMem
        · exact hi
      · rcases hUpwards r hr i hi hStale with hIn | hEq
        · exact hIn
        · exact hEq ▸ hMem
    · have hInsert : ∀ i ∈ stale.insert s.label.1, i ∈ t.ids := fun i hi => by
        rcases SortedSet.mem_insert.1 hi with rfl | hi
        · exact Tree.mem_ids_of_mem_subtrees hs
        · exact hSubset i hi
      rw [if_neg hMem]
      rcases h.parent_cases hs with ⟨rfl, hGet⟩ | ⟨r, hr, hChild, hGet⟩
      · -- The root has no parent to add, and it is nobody's child.
        refine ⟨stale.insert s.label.1, by rw [node_eq_ok hGet]; rfl,
          fun i hi => SortedSet.mem_insert.2 (List.mem_cons.1 hi), fun r hr i hi hStale => ?_,
          hInsert⟩
        rcases SortedSet.mem_insert.1 hStale with rfl | hStale
        · obtain ⟨n, hn, hParent⟩ := h.parent hr hi
          rw [hGet] at hn
          rw [← Option.some.inj hn] at hParent
          cases hParent
        · exact SortedSet.mem_insert.2 (hUpwards r hr i hi hStale).symm
      · have hLt := size_lt_of_mem_below hChild
        have hStep : ∀ q ∈ t.subtrees, ∀ i ∈ q.below.roots, i ∈ stale.insert s.label.1 →
            q.label.1 ∈ stale.insert s.label.1 ∨ q.label.1 = r.label.1 := by
          intro q hq i hi hStale
          rcases SortedSet.mem_insert.1 hStale with rfl | hStale
          · exact Or.inr (h.parent_unique hq hr hi (Forest.mem_roots_of_mem_trees hChild))
          · exact Or.inl (SortedSet.mem_insert.2 (hUpwards q hq i hi hStale).symm)
        obtain ⟨closed, hRun, hCovers⟩ := ih hr (by omega) hStep hInsert
        refine ⟨closed, ?_, fun i hi => hCovers.mem i (List.mem_cons_of_mem _ ?_),
          hCovers.upwards, hCovers.subset⟩
        · rw [node_eq_ok hGet]
          simp only [bind, Except.bind]
          exact hRun
        · exact SortedSet.mem_insert.2 (List.mem_cons.1 hi)

/-- Some nodes and all their ancestors. -/
theorem Represents.upwardClosure (h : a.Represents t) {ids : List NodeId}
    (hIds : ∀ i ∈ ids, i ∈ t.ids) :
    ∃ closed, a.upwardClosure ids = .ok closed ∧ t.Covers ids closed := by
  suffices hFold : ∀ seen stale, t.Covers seen stale → ∃ closed,
      ids.foldlM (fun stale id => a.addUpwards (a.slots.size + 1) id stale) stale = .ok closed ∧
        t.Covers (ids ++ seen) closed by
    have hEmpty : t.Covers [] ∅ :=
      ⟨fun _ hi => absurd hi List.not_mem_nil, fun _ _ _ _ hi => absurd hi SortedSet.not_mem_empty,
        fun _ hi => absurd hi SortedSet.not_mem_empty⟩
    obtain ⟨closed, hRun, hCovers⟩ := hFold [] ∅ hEmpty
    exact ⟨closed, hRun, List.append_nil ids ▸ hCovers⟩
  induction ids with
  | nil => exact fun seen stale hStale => ⟨stale, rfl, hStale⟩
  | cons i ids ih =>
    intro seen stale hStale
    obtain ⟨n, hn⟩ := h.tidy.get?_of_mem (hIds i List.mem_cons_self)
    obtain ⟨below, hs, -⟩ := h.exists_subtree hn
    have hFuel : t.size < Tree.size ⟨(i, n.label), below⟩ + (a.slots.size + 1) := by
      have hSize := h.size_le
      omega
    obtain ⟨next, hStep, hNext⟩ := h.addUpwards hs hFuel
      (fun r hr j hj hMem => Or.inl (hStale.upwards r hr j hj hMem)) hStale.subset
    have hSeen : t.Covers (i :: seen) next := ⟨fun j hj => by
      rcases List.mem_cons.1 hj with rfl | hj
      · exact hNext.mem _ List.mem_cons_self
      · exact hNext.mem _ (List.mem_cons_of_mem _ (hStale.mem j hj)), hNext.upwards, hNext.subset⟩
    obtain ⟨closed, hRun, hCovers⟩ :=
      ih (fun j hj => hIds j (List.mem_cons_of_mem _ hj)) (i :: seen) next hSeen
    refine ⟨closed, ?_, fun j hj => hCovers.mem j ?_, hCovers.upwards, hCovers.subset⟩
    · simp only [List.foldlM_cons, hStep, bind, Except.bind, hRun]
    · simpa [or_left_comm] using hj

/-! ## Listing by depth -/

/-- Listed by depth, no node stands below an earlier one. -/
theorem Represents.deepestFirst (h : a.Represents t) {stale : SortedSet NodeId}
    (hStale : ∀ i ∈ stale, i ∈ t.ids) :
    ∃ order, a.deepestFirst stale = .ok order ∧ order.Nodup ∧ (∀ i, i ∈ order ↔ i ∈ stale) ∧
      t.toForest.BottomUp order := by
  obtain ⟨depth, hDepth, hChild⟩ := h.exists_depth
  have hRoot : ∀ r ∈ t.subtrees, ∀ i ∈ r.below.roots, depth i = depth r.label.1 + 1 := by
    intro r hr i hi
    obtain ⟨s, hs, rfl⟩ := Forest.mem_trees_of_mem_roots hi
    exact hChild r hr s hs
  have hOrder := SortedMap.groupBy_descending depth stale.toList
  refine ⟨(SortedMap.groupBy depth stale.toList).descending, ?_, hOrder.imp And.left,
    fun i => SortedMap.mem_descending_groupBy, hOrder.imp ?_⟩
  · have hDepths : stale.toList.mapM a.depth = .ok (stale.toList.map depth) := by
      refine mapM_eq_ok fun i hi => ?_
      obtain ⟨n, hn⟩ := h.tidy.get?_of_mem (hStale i hi)
      obtain ⟨below, hs, -⟩ := h.exists_subtree hn
      exact hDepth _ hs
    have hZip : (stale.toList.map depth).zip stale.toList =
        stale.toList.map fun i => (depth i, i) := by
      have hZipMap := List.zip_map' (f := depth) (g := id) (l := stale.toList)
      rwa [List.map_id] at hZipMap
    rw [Arena.deepestFirst, hDepths]
    simp only [bind, Except.bind, hZip, List.foldl_map]
    rfl
  · -- A node at most as deep as another one does not stand below it.
    rintro i j ⟨-, hLe⟩ s hs rfl hj
    rw [Tree.subtrees_toForest] at hs
    have hClosed : ∀ r ∈ s.below.subtrees, ∀ k ∈ r.below.roots, depth k ≤ depth s.label.1 →
        depth r.label.1 ≤ depth s.label.1 := by
      intro r hr k hk hLe
      rw [hRoot r (Tree.subtrees_trans hs hr) k hk] at hLe
      exact Nat.le_of_succ_le hLe
    obtain ⟨k, hk, hLeRoot⟩ :=
      Forest.exists_root_of_closed hClosed hj (Nat.compare_ne_gt.1 hLe)
    rw [hRoot s hs k hk] at hLeRoot
    exact Nat.not_succ_le_self _ hLeRoot

end Arena

end OntoFold
