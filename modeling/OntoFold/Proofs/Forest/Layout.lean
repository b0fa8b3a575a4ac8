import Mathlib.Data.List.Nodup
import OntoFold.Fault
import OntoFold.Proofs.Forest.Subtrees

/-!
# Addressed forests

A forest whose nodes carry distinct addresses. One edit is enough to describe what happens to
an arena: the tree at an address is exchanged for another tree.

* `Forest.ids_exchange`: which addresses an exchange removes and which it brings.
* `Forest.exchange_exchange`: of two exchanges at one address the second one counts.
-/

namespace OntoFold

namespace Forest

variable {β : Type v} {f b r : Forest (NodeId × β)} {id j : NodeId} {s t : Tree (NodeId × β)}

/-- The addresses of the nodes, in pre-order. -/
def ids (f : Forest (NodeId × β)) : List NodeId := f.toList.map Prod.fst

/-- The addresses of the first nodes. -/
def roots (f : Forest (NodeId × β)) : List NodeId := f.heads.map Prod.fst

@[simp] theorem ids_nil : (nil : Forest (NodeId × β)).ids = [] := rfl

@[simp] theorem ids_cons {x : NodeId × β} : (cons x b r).ids = x.1 :: (b.ids ++ r.ids) := by
  simp [ids]

@[simp] theorem roots_nil : (nil : Forest (NodeId × β)).roots = [] := rfl

@[simp] theorem roots_cons {x : NodeId × β} : (cons x b r).roots = x.1 :: r.roots := rfl

theorem roots_eq (f : Forest (NodeId × β)) : f.roots = f.trees.map fun t => t.label.1 := by
  rw [roots, heads_eq, List.map_map]
  rfl

theorem mem_trees_of_mem_roots (h : id ∈ f.roots) : ∃ t ∈ f.trees, t.label.1 = id := by
  rw [roots_eq] at h
  exact List.mem_map.1 h

theorem mem_roots_of_mem_trees (h : t ∈ f.trees) : t.label.1 ∈ f.roots := by
  rw [roots_eq]
  exact List.mem_map_of_mem h

theorem mem_ids_of_mem_roots (h : id ∈ f.roots) : id ∈ f.ids := by
  obtain ⟨x, hx, rfl⟩ := List.mem_map.1 h
  exact List.mem_map.2 ⟨x, mem_toList_of_mem_heads hx, rfl⟩

theorem mem_ids_iff : id ∈ f.ids ↔ ∃ l b, ⟨(id, l), b⟩ ∈ f.subtrees := by
  simp only [ids, List.mem_map, mem_toList_iff]
  constructor
  · rintro ⟨⟨i, l⟩, ⟨b, hMem⟩, rfl⟩
    exact ⟨l, b, hMem⟩
  · rintro ⟨l, b, hMem⟩
    exact ⟨(id, l), ⟨b, hMem⟩, rfl⟩

theorem mem_ids_of_mem_subtrees (h : s ∈ f.subtrees) : s.label.1 ∈ f.ids :=
  mem_ids_iff.2 ⟨s.label.2, s.below, h⟩

theorem mem_ids_of_mem_below (h : s ∈ f.subtrees) (hj : j ∈ s.below.ids) : j ∈ f.ids := by
  obtain ⟨x, hx, rfl⟩ := List.mem_map.1 hj
  exact List.mem_map.2 ⟨x, mem_toList_of_mem_subtrees h hx, rfl⟩

theorem mem_ids_of_mem_trees {s : Tree (NodeId × β)} (h : s ∈ f.trees)
    (hj : j ∈ s.label.1 :: s.below.ids) : j ∈ f.ids := by
  have hs := mem_subtrees_of_mem_trees h
  rcases List.mem_cons.1 hj with rfl | hj
  · exact mem_ids_of_mem_subtrees hs
  · exact mem_ids_of_mem_below hs hj

/-- An address belongs to one tree only. -/
theorem eq_of_mem_subtrees (h : f.ids.Nodup) (hs : s ∈ f.subtrees) (ht : t ∈ f.subtrees)
    (hId : s.label.1 = t.label.1) : s = t := by
  induction f with
  | nil => cases hs
  | cons x b r ihBelow ihRest =>
    rw [ids_cons, List.nodup_cons, List.nodup_append] at h
    obtain ⟨hNew, hb, hr, hDisjoint⟩ := h
    rw [List.mem_append, not_or] at hNew
    rw [subtrees_cons, List.mem_cons, List.mem_append] at hs ht
    rcases hs with rfl | hs | hs <;> rcases ht with rfl | ht | ht
    · rfl
    · exact absurd (hId ▸ mem_ids_of_mem_subtrees ht) hNew.1
    · exact absurd (hId ▸ mem_ids_of_mem_subtrees ht) hNew.2
    · exact absurd (hId ▸ mem_ids_of_mem_subtrees hs) hNew.1
    · exact ihBelow hb hs ht
    · exact absurd hId (hDisjoint _ (mem_ids_of_mem_subtrees hs) _ (mem_ids_of_mem_subtrees ht))
    · exact absurd (hId ▸ mem_ids_of_mem_subtrees hs) hNew.2
    · exact absurd hId.symm
        (hDisjoint _ (mem_ids_of_mem_subtrees ht) _ (mem_ids_of_mem_subtrees hs))
    · exact ihRest hr hs ht

/-- A tree in a forest of distinct addresses has distinct addresses. -/
theorem nodup_of_mem_subtrees (h : f.ids.Nodup) (hs : s ∈ f.subtrees) :
    (s.label.1 :: s.below.ids).Nodup := by
  induction f with
  | nil => cases hs
  | cons x b r ihBelow ihRest =>
    rw [ids_cons, List.nodup_cons, List.nodup_append] at h
    obtain ⟨hNew, hb, hr, -⟩ := h
    rw [subtrees_cons, List.mem_cons, List.mem_append] at hs
    rcases hs with rfl | hs | hs
    · exact List.nodup_cons.2 ⟨fun hMem => hNew (List.mem_append_left _ hMem), hb⟩
    · exact ihBelow hb hs
    · exact ihRest hr hs

theorem roots_nodup (h : f.ids.Nodup) : f.roots.Nodup := by
  induction f with
  | nil => exact List.nodup_nil
  | cons x b r _ ihRest =>
    rw [ids_cons, List.nodup_cons, List.nodup_append] at h
    rw [roots_cons, List.nodup_cons]
    exact ⟨fun hMem => h.1 (List.mem_append_right _ (mem_ids_of_mem_roots hMem)), ihRest h.2.2.1⟩

/-! ## Exchanging a tree -/

/-- Puts a tree in place of the tree at an address. -/
def exchange (id : NodeId) (s : Tree (NodeId × β)) : Forest (NodeId × β) → Forest (NodeId × β)
  | nil => nil
  | cons x below rest =>
    if x.1 = id then cons s.label s.below rest
    else cons x (exchange id s below) (exchange id s rest)

theorem exchange_of_not_mem (h : id ∉ f.ids) : f.exchange id s = f := by
  induction f with
  | nil => rfl
  | cons x b r ihBelow ihRest =>
    simp only [ids_cons, List.mem_cons, List.mem_append, not_or] at h
    rw [exchange, if_neg (Ne.symm h.1), ihBelow h.2.1, ihRest h.2.2]

/-- The new tree takes its place. -/
theorem mem_exchange (ht : t ∈ f.subtrees) : s ∈ (f.exchange t.label.1 s).subtrees := by
  induction f with
  | nil => cases ht
  | cons x b r ihBelow ihRest =>
    by_cases hx : x.1 = t.label.1
    · rw [exchange, if_pos hx]
      exact List.mem_cons_self
    · rw [exchange, if_neg hx, subtrees_cons, List.mem_cons, List.mem_append]
      rw [subtrees_cons, List.mem_cons, List.mem_append] at ht
      rcases ht with rfl | ht | ht
      · exact absurd rfl hx
      · exact Or.inr (Or.inl (ihBelow ht))
      · exact Or.inr (Or.inr (ihRest ht))

theorem exchange_self (h : ∀ u ∈ f.subtrees, u.label.1 = s.label.1 → u = s) :
    f.exchange s.label.1 s = f := by
  induction f with
  | nil => rfl
  | cons x b r ihBelow ihRest =>
    by_cases hx : x.1 = s.label.1
    · rw [exchange, if_pos hx, ← h ⟨x, b⟩ List.mem_cons_self hx]
    · rw [exchange, if_neg hx,
        ihBelow fun u hu => h u (List.mem_cons_of_mem _ (List.mem_append_left _ hu)),
        ihRest fun u hu => h u (List.mem_cons_of_mem _ (List.mem_append_right _ hu))]

/-- Of two exchanges at one address the second one counts. -/
theorem exchange_exchange (f : Forest (NodeId × β)) (hs : s.label.1 = id) :
    (f.exchange id s).exchange id t = f.exchange id t := by
  induction f with
  | nil => rfl
  | cons x b r ihBelow ihRest =>
    by_cases hx : x.1 = id
    · rw [exchange, if_pos hx, exchange, if_pos hs, exchange, if_pos hx]
    · rw [exchange, if_neg hx, exchange, if_neg hx, ihBelow, ihRest, exchange, if_neg hx]

theorem roots_exchange (f : Forest (NodeId × β)) (h : f.ids.Nodup) :
    (f.exchange id s).roots = f.roots.map fun j => if j = id then s.label.1 else j := by
  induction f with
  | nil => rfl
  | cons x b r _ ihRest =>
    rw [ids_cons, List.nodup_cons, List.nodup_append] at h
    obtain ⟨hNew, -, hr, -⟩ := h
    by_cases hx : x.1 = id
    · have hRest : ∀ j ∈ r.roots, (if j = id then s.label.1 else j) = j := by
        intro j hj
        refine if_neg fun hEq => hNew (List.mem_append_right _ (mem_ids_of_mem_roots ?_))
        rwa [hx, ← hEq]
      rw [exchange, if_pos hx, roots_cons, roots_cons, List.map_cons, if_pos hx,
        List.map_congr_left hRest, List.map_id']
    · rw [exchange, if_neg hx, roots_cons, roots_cons, List.map_cons, if_neg hx, ihRest hr]

/-- An exchange takes the addresses of one tree away and brings those of the other one. -/
theorem ids_exchange (h : f.ids.Nodup) (ht : t ∈ f.subtrees) :
    ∃ others, f.ids.Perm ((t.label.1 :: t.below.ids) ++ others) ∧
      (f.exchange t.label.1 s).ids.Perm ((s.label.1 :: s.below.ids) ++ others) := by
  induction f with
  | nil => cases ht
  | cons x b r ihBelow ihRest =>
    rw [ids_cons, List.nodup_cons, List.nodup_append] at h
    obtain ⟨hNew, hb, hr, hDisjoint⟩ := h
    rw [List.mem_append, not_or] at hNew
    rw [subtrees_cons, List.mem_cons, List.mem_append] at ht
    rcases ht with rfl | ht | ht
    · refine ⟨r.ids, ?_, ?_⟩
      · rw [ids_cons, List.cons_append]
      · rw [exchange, if_pos rfl, ids_cons, List.cons_append]
    · have hId := mem_ids_of_mem_subtrees ht
      have hx : x.1 ≠ t.label.1 := fun hEq => hNew.1 (hEq ▸ hId)
      have hOther : t.label.1 ∉ r.ids := fun hMem => hDisjoint _ hId _ hMem rfl
      obtain ⟨others, hOld, hFresh⟩ := ihBelow hb ht
      refine ⟨x.1 :: (others ++ r.ids), ?_, ?_⟩
      · rw [ids_cons]
        refine ((hOld.append_right r.ids).cons x.1).trans ?_
        rw [List.append_assoc]
        exact List.perm_middle.symm
      · rw [exchange, if_neg hx, exchange_of_not_mem hOther, ids_cons]
        refine ((hFresh.append_right r.ids).cons x.1).trans ?_
        rw [List.append_assoc]
        exact List.perm_middle.symm
    · have hId := mem_ids_of_mem_subtrees ht
      have hx : x.1 ≠ t.label.1 := fun hEq => hNew.2 (hEq ▸ hId)
      have hOther : t.label.1 ∉ b.ids := fun hMem => hDisjoint _ hMem _ hId rfl
      obtain ⟨others, hOld, hFresh⟩ := ihRest hr ht
      refine ⟨x.1 :: (b.ids ++ others), ?_, ?_⟩
      · rw [ids_cons]
        refine ((hOld.append_left b.ids).cons x.1).trans ?_
        refine .trans ?_ List.perm_middle.symm
        exact (List.perm_append_comm_assoc ..).cons _
      · rw [exchange, if_neg hx, exchange_of_not_mem hOther, ids_cons]
        refine ((hFresh.append_left b.ids).cons x.1).trans ?_
        refine .trans ?_ List.perm_middle.symm
        exact (List.perm_append_comm_assoc ..).cons _

end Forest

/-! ## Addressed trees -/

namespace Tree

variable {β : Type v}

/-- The addresses of the nodes, in pre-order. -/
def ids (t : Tree (NodeId × β)) : List NodeId := t.toList.map Prod.fst

theorem ids_eq (t : Tree (NodeId × β)) : t.ids = t.label.1 :: t.below.ids := rfl

theorem length_ids (t : Tree (NodeId × β)) : t.ids.length = t.size := by
  rw [ids, List.length_map, length_toList]

theorem mem_ids_of_mem_subtrees {s t : Tree (NodeId × β)} (h : s ∈ t.subtrees) :
    s.label.1 ∈ t.ids := by
  rcases List.mem_cons.1 h with rfl | h
  · exact List.mem_cons_self
  · exact List.mem_cons_of_mem _ (Forest.mem_ids_of_mem_subtrees h)

theorem ids_toForest (t : Tree (NodeId × β)) : t.toForest.ids = t.ids := by
  rw [Forest.ids, toList_toForest, ids]

/-- Puts a tree in place of the tree at an address. -/
def exchange (t : Tree (NodeId × β)) (id : NodeId) (s : Tree (NodeId × β)) :
    Tree (NodeId × β) :=
  if t.label.1 = id then s else ⟨t.label, t.below.exchange id s⟩

theorem toForest_exchange (id : NodeId) (s t : Tree (NodeId × β)) :
    (t.exchange id s).toForest = t.toForest.exchange id s := by
  obtain ⟨x, b⟩ := t
  by_cases hx : x.1 = id
  · simp only [exchange, hx, if_pos, toForest, Forest.exchange]
  · simp only [exchange, hx, if_false, toForest, Forest.exchange]

theorem mem_exchange {s t u : Tree (NodeId × β)} (hu : u ∈ t.subtrees) :
    s ∈ (t.exchange u.label.1 s).subtrees := by
  rw [← subtrees_toForest] at hu ⊢
  rw [toForest_exchange]
  exact Forest.mem_exchange hu

theorem exchange_self {s t : Tree (NodeId × β)} (h : t.ids.Nodup) (hs : s ∈ t.subtrees) :
    t.exchange s.label.1 s = t := by
  rw [← ids_toForest] at h
  rw [← subtrees_toForest] at hs
  refine toForest_injective ?_
  rw [toForest_exchange]
  exact Forest.exchange_self fun u hu hId => Forest.eq_of_mem_subtrees h hu hs hId

theorem exchange_exchange {i : NodeId} {s : Tree (NodeId × β)} (t u : Tree (NodeId × β))
    (hs : s.label.1 = i) : (t.exchange i s).exchange i u = t.exchange i u := by
  refine toForest_injective ?_
  rw [toForest_exchange, toForest_exchange, toForest_exchange, Forest.exchange_exchange _ hs]

theorem exchange_root {t s : Tree (NodeId × β)} {id : NodeId} (h : s.label.1 = id) :
    (t.exchange id s).label.1 = t.label.1 := by
  unfold exchange
  split
  · next hRoot => rw [h, hRoot]
  · rfl

/-- An exchange takes the addresses of one tree away and brings those of the other one. -/
theorem ids_exchange {s t u : Tree (NodeId × β)} (h : t.ids.Nodup) (hu : u ∈ t.subtrees) :
    ∃ others, t.ids.Perm (u.ids ++ others) ∧
      (t.exchange u.label.1 s).ids.Perm (s.ids ++ others) := by
  rw [← ids_toForest] at h ⊢
  rw [← subtrees_toForest] at hu
  rw [← ids_toForest (t.exchange ..), toForest_exchange]
  exact Forest.ids_exchange h hu

end Tree

end OntoFold
