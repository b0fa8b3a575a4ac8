import OntoFold.Proofs.Arena.Growth
import OntoFold.Proofs.Arena.Removal

/-!
# Replacing trees

A replaced tree gives its slots back first, then a copy of the other tree is grafted behind the
siblings and moved to the vacated place. The copy may take over addresses of the replaced tree,
but no other ones that are in use.

* `Arena.Represents.replaceSubtree`: replacing a tree below the root.
* `Arena.Represents.replaceSubtree_root`: replacing the whole tree.
-/

namespace OntoFold

/-- In a list without repetitions, setting the place of a member renames the member. -/
theorem set_eq_map {α : Type u} [DecidableEq α] {xs : List α} (h : xs.Nodup) {a b : α}
    {place : Nat} (hPlace : xs[place]? = some a) :
    xs.set place b = xs.map fun x => if x = a then b else x := by
  induction xs generalizing place with
  | nil => cases hPlace
  | cons x xs ih =>
    obtain ⟨hNew, hTail⟩ := List.nodup_cons.1 h
    cases place with
    | zero =>
      obtain rfl : x = a := by simpa using hPlace
      have hKeep : ∀ y ∈ xs, (if y = x then b else y) = y := fun y hy =>
        if_neg fun (hEq : y = x) => hNew (hEq ▸ hy)
      rw [List.set_cons_zero, List.map_cons, if_pos rfl, List.map_congr_left hKeep, List.map_id']
    | succ place =>
      have hMem : xs[place]? = some a := by simpa using hPlace
      have hx : x ≠ a := fun hEq => hNew (hEq ▸ List.mem_of_getElem? hMem)
      rw [List.set_cons_succ, List.map_cons, if_neg hx, ih hTail hMem]

namespace Arena

variable {a b : Arena} {ids : List NodeId} {id parent : NodeId}
  {r s t : Tree (NodeId × Label)}

/-- The last child takes the place of an earlier one. -/
theorem moveLast_eq_ok {n : Node} {children : List NodeId} (h : a.get? parent = some n)
    (hChildren : n.children = children ++ [id]) {place : Nat} (hPlace : place < children.length) :
    a.moveLast parent id place =
      .ok (a.setSlot parent (some { n with children := children.set place id })) := by
  have hLast : n.children.getLast? = some id := by simp [hChildren]
  have hLength : ¬ n.children.length ≤ place + 1 := by
    rw [hChildren, List.length_append, List.length_singleton]
    omega
  simp only [moveLast, node_eq_ok h, bind, Except.bind, hLast, ne_eq, not_true, if_false, hLength]
  rw [hChildren, List.dropLast_concat]
  rfl

namespace Represents

/-- The root is replaced together with the arena. -/
theorem replaceSubtree_root (h : a.Represents t) (other : Arena) :
    a.replaceSubtree t.label.1 other = .ok (other.root, other) := by
  simp only [Arena.replaceSubtree, node_eq_ok h.get?_root, bind, Except.bind]
  rfl

/-- A tree below the root is exchanged for a copy of the other tree. All other nodes are kept, apart
from the entry of the old tree among the children of its parent. -/
theorem replaceSubtree (h : a.Represents t) (hs : s ∈ t.subtrees) {u : Tree (NodeId × Label)}
    (hu : u ∈ s.below.trees) (hr : b.Represents r) :
    ∃ (copy : Tree (NodeId × Label)) (c : Arena),
      a.replaceSubtree u.label.1 b = .ok (copy.label.1, c) ∧
      copy.map Prod.snd = r.map Prod.snd ∧ c.Represents (t.exchange u.label.1 copy) ∧
      (∀ j ∈ t.ids, j ∉ u.ids → j ∉ copy.ids) ∧
      ∀ j ∈ t.ids, j ∉ u.ids → ∀ n, a.get? j = some n → c.get? j = some { n with
        children := n.children.map fun i => if i = u.label.1 then copy.label.1 else i } := by
  have hId : u.label.1 ∈ s.below.roots := by
    rw [Forest.roots_eq]
    exact List.mem_map_of_mem hu
  have huMem : u ∈ t.subtrees :=
    Tree.subtrees_trans hs (Forest.mem_subtrees_iff.2 ⟨u, hu, Or.inl rfl⟩)
  obtain ⟨q, hq⟩ := h.get? hs
  obtain ⟨n, hn, hParent⟩ := h.parent hs hId
  have hsOut : s.label.1 ∉ u.ids := fun hMem =>
    h.not_mem_below hs (Forest.mem_ids_of_mem_trees hu hMem)
  obtain ⟨others, hOld, -⟩ := Tree.ids_exchange (s := u) h.nodup huMem
  -- Vacating leaves the parent as it is, so the graft finds it.
  obtain ⟨hTidy, hGet, hRoot⟩ := vacate_tidy (h.tidy.perm hOld) ((h.holds_below hs).trees hu)
  have hOthers : ∀ j ∈ t.ids, j ∉ u.ids → j ∈ others := fun j hj hOut =>
    (List.mem_append.1 (hOld.mem_iff.1 hj)).resolve_left hOut
  have hsMem : s.label.1 ∈ others := hOthers _ (h.tidy.mem_of_get? hq) hsOut
  obtain ⟨copy, c, hGraft, hMap, hGrow⟩ := graft_grows hTidy hsMem (r.map Prod.snd)
  have hc := hGrow.extended _ ((hGet _ hsMem).trans hq)
  have hCopyIds : copy.toForest.ids = copy.ids := copy.ids_toForest
  have hDisjoint : ∀ j ∈ others, j ∉ copy.ids := fun j hj hMem =>
    (List.nodup_append.1 hGrow.tidy.nodup).2.2 j (hCopyIds ▸ hMem) j hj rfl
  obtain ⟨place, hPlace⟩ : ∃ place, s.below.roots.idxOf? u.label.1 = some place :=
    Option.isSome_iff_exists.1 (List.isSome_idxOf?.2 hId)
  obtain ⟨hLt, hAt, -⟩ := List.idxOf?_eq_some_iff.1 hPlace
  have hMove := moveLast_eq_ok hc rfl hLt
  rw [set_eq_map (h.roots_nodup hs) (List.getElem?_eq_some_iff.2 ⟨hLt, hAt⟩)] at hMove
  have hsGrown : s.label.1 ∈ copy.ids ++ others := List.mem_append_right _ hsMem
  have hGrownTidy : c.Tidy (copy.ids ++ others) := hCopyIds ▸ hGrow.tidy
  have hKept : ∀ j ∈ t.ids, j ∉ u.ids → ∀ n, a.get? j = some n →
      (c.setSlot s.label.1 (some ⟨s.label.2, q, s.below.roots.map fun i =>
        if i = u.label.1 then copy.label.1 else i⟩)).get? j = some { n with
          children := n.children.map fun i => if i = u.label.1 then copy.label.1 else i } := by
    intro j hj hOut m hm
    by_cases hjs : j = s.label.1
    · subst hjs
      obtain rfl : m = _ := Option.some.inj (hm.symm.trans hq)
      exact get?_setSlot_self (hGrownTidy.lt_size hsGrown)
    · -- No other node lists the replaced tree.
      obtain ⟨below, hBelow, hChildren⟩ := h.exists_subtree hm
      have hKeep : ∀ i ∈ m.children, (if i = u.label.1 then copy.label.1 else i) = i := by
        intro i hi
        refine if_neg fun hEq => hjs ?_
        rw [hChildren, hEq] at hi
        exact h.parent_unique hBelow hs hi hId
      rw [get?_setSlot_ne hjs, hGrow.other j (hOthers j hj hOut) hjs, hGet j (hOthers j hj hOut),
        hm, List.map_congr_left hKeep, List.map_id']
  refine ⟨copy, _, ?_, hMap, h.exchange huMem ⟨n, hn, hParent⟩ ?holds hKept ?root ?tidy,
    fun j hj hOut => hDisjoint j (hOthers j hj hOut), hKept⟩
  · simp only [Arena.replaceSubtree, node_eq_ok hn, node_eq_ok hq, bind, Except.bind, hParent,
      hPlace, hr.tree, hGraft, hMove]
    rfl
  case holds =>
    refine hGrow.holds.congr fun j hj => get?_setSlot_ne fun hEq => ?_
    exact hDisjoint _ hsMem (hEq ▸ hCopyIds ▸ hj)
  case root =>
    have hRootNe : t.label.1 ≠ u.label.1 := by
      intro hEq
      have hNone := h.get?_root
      rw [hEq, hn] at hNone
      rw [Option.some.inj hNone] at hParent
      cases hParent
    rw [Tree.exchange, if_neg hRootNe]
    exact hGrow.root.trans (hRoot.trans h.root)
  case tidy =>
    obtain ⟨others', hOld', hNew⟩ := Tree.ids_exchange (s := copy) h.nodup huMem
    have hPerm : others.Perm others' :=
      (List.perm_append_left_iff _).1 (hOld.symm.trans hOld')
    exact (hGrownTidy.setSlot hsGrown _).perm ((hPerm.append_left _).trans hNew.symm)

end Represents

end Arena

end OntoFold
