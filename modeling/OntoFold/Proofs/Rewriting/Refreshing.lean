import OntoFold.Proofs.Arena.Ancestors
import OntoFold.Proofs.Rewriting.Merging

/-!
# Refreshing from the bottom up

Refreshing some nodes one after another, each one after those below it, is the same as one
traversal of the tree that refreshes them on its way up. A refreshed node may drop children,
but never one that still waits for its turn.

* `Forest.refreshAll_cons`: the first node of an order can be refreshed ahead of the traversal.
* `Arena.Represents.foldlM_refresh`: refreshing in order never fails and is that traversal.
-/

namespace OntoFold

/-- The tree, refreshed at its root if that is stale. -/
def Tree.refreshedIf (stale : List NodeId) (t : Tree (NodeId × Label)) : Tree (NodeId × Label) :=
  if t.label.1 ∈ stale then t.refreshed else t

namespace Forest

variable {f b r : Forest (NodeId × Label)} {stale other : List NodeId} {id j : NodeId}
  {s t u : Tree (NodeId × Label)}

/-- Refreshes the stale nodes of a forest on the way up. -/
def refreshAll (stale : List NodeId) : Forest (NodeId × Label) → Forest (NodeId × Label)
  | nil => nil
  | cons x below rest =>
    let t := Tree.refreshedIf stale ⟨x, below.refreshAll stale⟩
    cons t.label t.below (rest.refreshAll stale)

/-- Only the stale nodes of the forest itself count. -/
theorem refreshAll_congr (h : ∀ j ∈ f.ids, j ∈ stale ↔ j ∈ other) :
    f.refreshAll stale = f.refreshAll other := by
  induction f with
  | nil => rfl
  | cons x b r ihBelow ihRest =>
    simp only [ids_cons, List.mem_cons, List.mem_append] at h
    simp only [refreshAll, Tree.refreshedIf, h x.1 (Or.inl rfl),
      ihBelow fun j hj => h j (Or.inr (Or.inl hj)), ihRest fun j hj => h j (Or.inr (Or.inr hj))]

theorem refreshAll_of_not_mem (h : ∀ j ∈ f.ids, j ∉ stale) : f.refreshAll stale = f := by
  induction f with
  | nil => rfl
  | cons x b r ihBelow ihRest =>
    simp only [ids_cons, List.mem_cons, List.mem_append] at h
    simp only [refreshAll, Tree.refreshedIf, h x.1 (Or.inl rfl), if_false,
      ihBelow fun j hj => h j (Or.inr (Or.inl hj)), ihRest fun j hj => h j (Or.inr (Or.inr hj))]

theorem ids_subset_of_subtrees_subset (h : ∀ s ∈ b.subtrees, s ∈ f.subtrees) (hj : j ∈ b.ids) :
    j ∈ f.ids := by
  obtain ⟨l, below, hMem⟩ := mem_ids_iff.1 hj
  exact mem_ids_of_mem_subtrees (h _ hMem)

/-- The first node of an order can be refreshed ahead of the traversal. -/
theorem refreshAll_cons (hNodup : f.ids.Nodup) (hs : s ∈ f.subtrees)
    (hNew : s.label.1 ∉ stale) (hBelow : ∀ j ∈ stale, j ∉ s.below.ids) :
    f.refreshAll (s.label.1 :: stale) = (f.exchange s.label.1 s.refreshed).refreshAll stale := by
  induction f with
  | nil => cases hs
  | cons x b r ihBelow ihRest =>
    rw [ids_cons, List.nodup_cons, List.nodup_append] at hNodup
    obtain ⟨hx, hb, hr, hDisjoint⟩ := hNodup
    rw [List.mem_append, not_or] at hx
    -- A forest without the node does not notice it among the stale ones.
    have hSkip : ∀ g : Forest (NodeId × Label), s.label.1 ∉ g.ids →
        g.refreshAll (s.label.1 :: stale) = g.refreshAll stale := fun g hg =>
      refreshAll_congr fun j hj => by
        rw [List.mem_cons]
        exact or_iff_right fun hEq => hg (hEq ▸ hj)
    rw [subtrees_cons, List.mem_cons, List.mem_append] at hs
    rcases hs with rfl | hs | hs
    · have hKeep : b.refreshAll (x.1 :: stale) = b := refreshAll_of_not_mem fun j hj hMem => by
        rcases List.mem_cons.1 hMem with rfl | hMem
        · exact hx.1 hj
        · exact hBelow j hMem hj
      have hKeepMerged : (b.mergedFor x.2.phrase).refreshAll stale = b.mergedFor x.2.phrase :=
        refreshAll_of_not_mem fun j hj hMem =>
          hBelow j hMem (ids_subset_of_subtrees_subset (fun _ => mem_subtrees_of_mem_mergedFor) hj)
      rw [exchange, if_pos rfl, refreshAll, refreshAll, hKeep, hSkip r hx.2]
      simp only [Tree.refreshedIf, List.mem_cons_self, if_true, Tree.refreshed, hNew, if_false,
        hKeepMerged]
    · have hId := mem_ids_of_mem_subtrees hs
      have hne : x.1 ≠ s.label.1 := fun hEq => hx.1 (hEq ▸ hId)
      have hOut : s.label.1 ∉ r.ids := fun hMem => hDisjoint _ hId _ hMem rfl
      rw [exchange, if_neg hne, exchange_of_not_mem hOut, refreshAll, refreshAll,
        ihBelow hb hs, hSkip r hOut]
      simp only [Tree.refreshedIf, List.mem_cons, hne, false_or]
    · have hId := mem_ids_of_mem_subtrees hs
      have hne : x.1 ≠ s.label.1 := fun hEq => hx.2 (hEq ▸ hId)
      have hOut : s.label.1 ∉ b.ids := fun hMem => hDisjoint _ hMem _ hId rfl
      rw [exchange, if_neg hne, exchange_of_not_mem hOut, refreshAll, refreshAll,
        ihRest hr hs, hSkip b hOut]
      simp only [Tree.refreshedIf, List.mem_cons, hne, false_or]

/-! ## Orders from the bottom up -/

/-- An exchange for a tree of the same root and fewer nodes brings no node below another one. -/
theorem exists_subtree_of_exchange (h : ∀ v ∈ f.subtrees, v.label.1 = s.label.1 → v = s)
    (hRoot : u.label.1 = s.label.1) (hShrink : ∀ v ∈ u.below.subtrees, v ∈ s.below.subtrees)
    (ht : t ∈ (f.exchange s.label.1 u).subtrees) :
    ∃ v ∈ f.subtrees, v.label.1 = t.label.1 ∧ ∀ j ∈ t.below.ids, j ∈ v.below.ids := by
  induction f generalizing t with
  | nil => cases ht
  | cons x b r ihBelow ihRest =>
    have hBelow : ∀ t ∈ (b.exchange s.label.1 u).subtrees, ∃ v ∈ b.subtrees,
        v.label.1 = t.label.1 ∧ ∀ j ∈ t.below.ids, j ∈ v.below.ids := fun t ht =>
      ihBelow (fun v hv => h v (List.mem_cons_of_mem _ (List.mem_append_left _ hv))) ht
    by_cases hx : x.1 = s.label.1
    · have hFirst := h ⟨x, b⟩ List.mem_cons_self hx
      rw [exchange, if_pos hx, subtrees_cons, List.mem_cons, List.mem_append] at ht
      rcases ht with rfl | ht | ht
      · refine ⟨⟨x, b⟩, List.mem_cons_self, hx.trans hRoot.symm, fun j hj => ?_⟩
        rw [hFirst]
        exact ids_subset_of_subtrees_subset hShrink hj
      · refine ⟨t, List.mem_cons_of_mem _ (List.mem_append_left _ ?_), rfl, fun _ => id⟩
        rw [← hFirst] at hShrink
        exact hShrink t ht
      · exact ⟨t, List.mem_cons_of_mem _ (List.mem_append_right _ ht), rfl, fun _ => id⟩
    · rw [exchange, if_neg hx, subtrees_cons, List.mem_cons, List.mem_append] at ht
      rcases ht with rfl | ht | ht
      · refine ⟨⟨x, b⟩, List.mem_cons_self, rfl, fun j hj => ?_⟩
        obtain ⟨l, below, hMem⟩ := mem_ids_iff.1 hj
        obtain ⟨v, hv, hId, -⟩ := hBelow _ hMem
        have hIn := mem_ids_of_mem_subtrees hv
        rwa [hId] at hIn
      · obtain ⟨v, hv, hId, hSub⟩ := hBelow t ht
        exact ⟨v, List.mem_cons_of_mem _ (List.mem_append_left _ hv), hId, hSub⟩
      · obtain ⟨v, hv, hId, hSub⟩ := ihRest
          (fun v hv => h v (List.mem_cons_of_mem _ (List.mem_append_right _ hv))) ht
        exact ⟨v, List.mem_cons_of_mem _ (List.mem_append_right _ hv), hId, hSub⟩

theorem BottomUp.exchange {order : List NodeId} (h : f.BottomUp order) (hNodup : f.ids.Nodup)
    (hs : s ∈ f.subtrees) : (f.exchange s.label.1 s.refreshed).BottomUp order := by
  refine h.imp fun {i j} hBelow t ht hi hj => ?_
  obtain ⟨v, hv, hId, hSub⟩ := exists_subtree_of_exchange (u := s.refreshed)
    (fun v hv hId => eq_of_mem_subtrees hNodup hv hs hId) rfl
    (fun _ => mem_subtrees_of_mem_mergedFor) ht
  exact hBelow v hv (hId.trans hi) (hSub j hj)

end Forest

namespace Tree

/-- Refreshes the stale nodes of a tree on the way up. -/
def refreshAll (stale : List NodeId) (t : Tree (NodeId × Label)) : Tree (NodeId × Label) :=
  refreshedIf stale ⟨t.label, t.below.refreshAll stale⟩

theorem toForest_refreshAll (stale : List NodeId) (t : Tree (NodeId × Label)) :
    (t.refreshAll stale).toForest = t.toForest.refreshAll stale := rfl

end Tree

namespace Arena

variable {a : Arena} {t : Tree (NodeId × Label)}

/-- Refreshing nodes from the bottom up is one traversal. -/
theorem Represents.foldlM_refresh (h : a.Represents t) {order : List NodeId}
    (hNodup : order.Nodup) (hMem : ∀ i ∈ order, i ∈ t.ids) (hOrder : t.toForest.BottomUp order) :
    ∃ b, order.foldlM Arena.refresh a = .ok b ∧ b.Represents (t.refreshAll order) := by
  induction order generalizing a t with
  | nil =>
    refine ⟨a, rfl, ?_⟩
    have hSame : t.refreshAll [] = t := Tree.toForest_injective (by
      rw [Tree.toForest_refreshAll]
      exact Forest.refreshAll_of_not_mem fun _ _ => List.not_mem_nil)
    exact hSame.symm ▸ h
  | cons i order ih =>
    obtain ⟨hNew, hRest⟩ := List.nodup_cons.1 hNodup
    obtain ⟨hFirst, hLater⟩ := List.pairwise_cons.1 hOrder
    obtain ⟨n, hn⟩ := h.tidy.get?_of_mem (hMem i List.mem_cons_self)
    obtain ⟨below, hs, -⟩ := h.exists_subtree hn
    have hs' := t.subtrees_toForest.symm ▸ hs
    have hBelow : ∀ j ∈ order, j ∉ below.ids := fun j hj => hFirst j hj _ hs' rfl
    obtain ⟨b, hRefresh, hb⟩ := h.refresh hs
    obtain ⟨others, hOld, hFresh⟩ := Tree.ids_exchange (s := Tree.refreshed ⟨(i, n.label), below⟩)
      h.nodup hs
    -- Nodes that wait for their turn are neither the refreshed one nor below it.
    have hStay : ∀ j ∈ order, j ∈ (t.exchange i (Tree.refreshed ⟨(i, n.label), below⟩)).ids := by
      intro j hj
      have hIn := hOld.mem_iff.1 (hMem j (List.mem_cons_of_mem _ hj))
      refine hFresh.mem_iff.2 (List.mem_append_right _ ((List.mem_append.1 hIn).resolve_left ?_))
      intro hInside
      rcases List.mem_cons.1 hInside with rfl | hInside
      · exact hNew hj
      · exact hBelow j hj hInside
    have hOrder' : (t.exchange i (Tree.refreshed ⟨(i, n.label), below⟩)).toForest.BottomUp
        order := by
      rw [Tree.toForest_exchange]
      exact Forest.BottomUp.exchange hLater h.nodup_toForest hs'
    obtain ⟨c, hRun, hc⟩ := ih hb hRest hStay hOrder'
    refine ⟨c, ?_, ?_⟩
    · simp only [List.foldlM_cons, hRefresh, bind, Except.bind, hRun]
    · have hAhead : (t.exchange i (Tree.refreshed ⟨(i, n.label), below⟩)).refreshAll order =
          t.refreshAll (i :: order) := Tree.toForest_injective (by
        rw [Tree.toForest_refreshAll, Tree.toForest_refreshAll, Tree.toForest_exchange]
        exact (Forest.refreshAll_cons h.nodup_toForest hs' hNew hBelow).symm)
      exact hAhead ▸ hc

end Arena

end OntoFold
