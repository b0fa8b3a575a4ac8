import OntoFold.Proofs.Arena.Scripts

/-!
# What a replacement leaves alone

Replacing the tree at a node by a copy of another arena gives the slots of the old tree back and
takes slots for the copy, the ones given back first. Nothing outside the old tree is in one of
these slots, so everything outside stays as it is; only the parent of the old node now lists the
copy where it listed the old node.

* `Arena.Transplant`: what stays and what changes.
* `Arena.Represents.transplant`: a replacement below the root.
* `Arena.replaceSubtree_transplants`: replacements in arenas in order.
-/

namespace OntoFold

namespace Arena

variable {a b c : Arena} {old copy id : NodeId} {r s t u : Tree (NodeId × Label)}

/-- What an arena is once a copy of another arena stands in the place of a node below the root. -/
structure Transplant (a b c : Arena) (old copy : NodeId) : Prop where
  /-- The tree at the copy is the whole tree of the other arena. -/
  copied : ∃ s, c.treeAt copy = .ok s ∧ b.tree = .ok (s.map Prod.snd)
  /-- The parent of the old node is the parent of the copy. It lists the copy where it listed the
  old node, and is the same otherwise. -/
  listed : ∃ n parent p m, a.get? old = some n ∧ n.parent = some parent ∧
    a.get? parent = some p ∧ old ∈ p.children ∧
    c.get? parent = some { p with children := p.children.set (p.children.idxOf old) copy } ∧
    c.get? copy = some m ∧ m.parent = some parent
  /-- All other nodes outside the old tree stay as they are. -/
  kept : ∀ id n, a.get? id = some n → id ≠ old → ¬ a.Below old id → ¬ a.Lists id old →
    c.get? id = some n
  /-- The copy takes over no address that is in use outside the old tree. -/
  apart : ∀ id, (a.get? id).isSome → id ≠ old → ¬ a.Below old id → id ≠ copy ∧ ¬ c.Below copy id
  /-- The nodes of the old tree are gone, and those of the other arena have come. -/
  size : ∃ s, a.treeAt old = .ok s ∧ c.size + s.size = a.size + b.size

/-- An exchange of trees changes the size by the difference of their sizes. -/
theorem Represents.size_exchange (h : a.Represents t) (hu : u ∈ t.subtrees)
    (hc : c.Represents (t.exchange u.label.1 s)) : c.size + u.size = a.size + s.size := by
  obtain ⟨others, hOld, hNew⟩ := Tree.ids_exchange (s := s) h.nodup hu
  have hBefore := hOld.length_eq
  have hAfter := hNew.length_eq
  simp only [List.length_append, Tree.length_ids] at hBefore hAfter
  rw [h.size, hc.size]
  omega

/-- A replacement below the root is a transplant. -/
theorem Represents.transplant (h : a.Represents t) (hs : s ∈ t.subtrees) (hu : u ∈ s.below.trees)
    (hr : b.Represents r) :
    ∃ copy c, a.replaceSubtree u.label.1 b = .ok (copy, c) ∧ a.Transplant b c u.label.1 copy := by
  obtain ⟨copy, c, hReplace, hMap, hc, hApart, hKept⟩ := h.replaceSubtree hs hu hr
  have hListed := Forest.mem_roots_of_mem_trees hu
  have huMem : u ∈ t.subtrees := Tree.subtrees_trans hs (Forest.mem_subtrees_of_mem_trees hu)
  have hCopy : copy ∈ (t.exchange u.label.1 copy).subtrees := Tree.mem_exchange huMem
  -- The addresses of the old tree are the old node and what stands below it.
  have hOutside : ∀ {id}, id ≠ u.label.1 → ¬ a.Below u.label.1 id → id ∉ u.ids :=
    fun hNe hBelow hMem => ((h.mem_ids_subtree huMem).1 hMem).elim hNe hBelow
  obtain ⟨q, hq⟩ := h.get? hs
  have hParentOut : s.label.1 ∉ u.ids := fun hMem =>
    h.not_mem_below hs (Forest.mem_ids_of_mem_trees hu hMem)
  have hParent := hKept _ (h.tidy.mem_of_get? hq) hParentOut _ hq
  have hPlace : s.below.roots[s.below.roots.idxOf u.label.1]? = some u.label.1 := by
    rw [List.getElem?_eq_getElem (List.idxOf_lt_length_iff.2 hListed), List.getElem_idxOf]
  rw [← set_eq_map (h.roots_nodup hs) hPlace] at hParent
  refine ⟨copy.label.1, c, hReplace, ?copied, ?listed, ?kept, ?apart, ?size⟩
  case copied => exact ⟨copy, hc.treeAt hCopy, by rw [hr.tree, hMap]⟩
  case listed =>
    obtain ⟨n, hn, hnParent⟩ := h.parent hs hListed
    obtain ⟨m, hm, hmParent⟩ := hc.sound.parent s.label.1 copy.label.1
      ⟨_, hParent, List.mem_set (List.idxOf_lt_length_iff.2 hListed) _⟩
    exact ⟨n, s.label.1, _, m, hn, hnParent, hq, hListed, hParent, hm, hmParent⟩
  case kept =>
    intro id n hn hNe hBelow hLists
    rw [hKept id (h.tidy.mem_of_get? hn) (hOutside hNe hBelow) n hn]
    have hSame : ∀ i ∈ n.children, (if i = u.label.1 then copy.label.1 else i) = i := by
      intro i hi
      refine if_neg fun hEq => hLists ⟨n, hn, ?_⟩
      rwa [hEq] at hi
    rw [List.map_congr_left hSame, List.map_id']
  case apart =>
    intro id hId hNe hBelow
    have hOut := hApart id ((h.tidy.occupied id).1 hId) (hOutside hNe hBelow)
    rwa [hc.mem_ids_subtree hCopy, not_or] at hOut
  case size =>
    refine ⟨u, h.treeAt huMem, ?_⟩
    rw [h.size_exchange huMem hc, hr.size, ← Tree.size_map Prod.snd copy, hMap, Tree.size_map]

/-- Replacing a node below the root by another arena never fails, puts a copy of the other arena in
its place and leaves everything outside the old tree alone. Replacing the root gives the other
arena. -/
theorem replaceSubtree_transplants (ha : a.Sound) (hb : b.Sound) :
    (∀ old, (a.get? old).isSome → old ≠ a.root →
      ∃ copy c, a.replaceSubtree old b = .ok (copy, c) ∧ a.Transplant b c old copy) ∧
    a.replaceSubtree a.root b = .ok (b.root, b) := by
  obtain ⟨t, ht⟩ := ha.represents
  obtain ⟨r, hr⟩ := hb.represents
  constructor
  · intro old hOld hRoot
    obtain ⟨s, hs, u, hu, rfl⟩ := ht.exists_child hOld hRoot
    exact ht.transplant hs hu hr
  · rw [ht.root, ht.replaceSubtree_root]

/-- The copy takes the slot of the old child, its child that of the old node, and the next one the
slot of a node removed before. -/
theorem replaceSubtree_transplants_recycling :
    let leaf (n : Nat) : Label := ⟨.count n, none⟩
    let s : Script := .removeChild (.addChild (.addChild (.addChild (.addChild (.single (leaf 0))
      0 (leaf 1)) 0 (leaf 2)) 1 (leaf 3)) 2 (leaf 4)) 4
    let r : Script := .addChild (.addChild (.single (leaf 5)) 0 (leaf 6)) 1 (leaf 7)
    ∃ a b, s.run = .ok a ∧ r.run = .ok b ∧ a.Sound ∧ b.Sound ∧ (a.get? 1).isSome ∧ 1 ≠ a.root ∧
      ∃ c, a.replaceSubtree 1 b = .ok (3, c) ∧ a.Transplant b c 1 3 ∧
        c.preorder = .ok [0, 3, 1, 4, 2] := by
  intro leaf s r
  obtain ⟨a, t, hRun, ht⟩ := Script.run_represents (s := s) (by decide +kernel)
  obtain ⟨b, u, hOther, hu⟩ := Script.run_represents (s := r) (by decide +kernel)
  have hNode : ∀ a, s.run = .ok a → (a.get? 1).isSome ∧ 1 ≠ a.root := by decide +kernel
  obtain ⟨hOld, hRoot⟩ := hNode a hRun
  obtain ⟨copy, c, hReplace, hTransplant⟩ :=
    (replaceSubtree_transplants ht.sound hu.sound).1 1 hOld hRoot
  have hOrder : ∀ a, s.run = .ok a → ∀ b, r.run = .ok b →
      ∀ x, a.replaceSubtree 1 b = .ok x → x.1 = 3 ∧ x.2.preorder = .ok [0, 3, 1, 4, 2] := by
    decide +kernel
  obtain ⟨hCopy, hPreorder⟩ := hOrder a hRun b hOther _ hReplace
  obtain rfl : copy = 3 := hCopy
  exact ⟨a, b, hRun, hOther, ht.sound, hu.sound, hOld, hRoot, c, hReplace, hTransplant, hPreorder⟩

end Arena

end OntoFold
