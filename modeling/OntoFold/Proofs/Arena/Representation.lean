import OntoFold.Proofs.Arena.Occupancy
import OntoFold.Proofs.Forest.Layout

/-!
# The tree an arena represents

An arena represents an addressed tree when every node of the tree stands in its slot, with the
right parent and children, and all other slots are free. Reading such an arena gives back
the tree, and an exchange of one tree for another is checked slot by slot.

* `Arena.Represents.treeAt`: reading at any node gives the tree there.
* `Arena.Represents.exchange`: when an arena represents a tree after an exchange.
-/

namespace OntoFold

namespace Arena

/-- The nodes of a forest stand in their slots, below the given parent. -/
def Holds (a : Arena) : Option NodeId → Forest (NodeId × Label) → Prop
  | _, .nil => True
  | parent, .cons x below rest =>
    a.get? x.1 = some ⟨x.2, parent, below.roots⟩ ∧
      a.Holds (some x.1) below ∧ a.Holds parent rest

/-- The arena holds an addressed tree and nothing else. -/
structure Represents (a : Arena) (t : Tree (NodeId × Label)) : Prop where
  root : a.root = t.label.1
  holds : a.Holds none t.toForest
  tidy : a.Tidy t.ids

variable {a b : Arena} {p q : Option NodeId} {f : Forest (NodeId × Label)}
  {s t u : Tree (NodeId × Label)} {id j : NodeId}

/-! ## Forests in slots -/

namespace Holds

theorem get? (h : a.Holds p f) (hs : s ∈ f.subtrees) :
    ∃ q, a.get? s.label.1 = some ⟨s.label.2, q, s.below.roots⟩ := by
  induction f generalizing p with
  | nil => cases hs
  | cons x below rest ihBelow ihRest =>
    obtain ⟨hGet, hBelow, hRest⟩ := h
    rw [Forest.subtrees_cons, List.mem_cons, List.mem_append] at hs
    rcases hs with rfl | hs | hs
    · exact ⟨p, hGet⟩
    · exact ihBelow hBelow hs
    · exact ihRest hRest hs

theorem below (h : a.Holds p f) (hs : s ∈ f.subtrees) : a.Holds (some s.label.1) s.below := by
  induction f generalizing p with
  | nil => cases hs
  | cons x below rest ihBelow ihRest =>
    obtain ⟨-, hBelow, hRest⟩ := h
    rw [Forest.subtrees_cons, List.mem_cons, List.mem_append] at hs
    rcases hs with rfl | hs | hs
    · exact hBelow
    · exact ihBelow hBelow hs
    · exact ihRest hRest hs

/-- The first nodes have the given parent. -/
theorem parent (h : a.Holds p f) (hj : j ∈ f.roots) : ∃ n, a.get? j = some n ∧ n.parent = p := by
  induction f with
  | nil => cases hj
  | cons x below rest _ ihRest =>
    obtain ⟨hGet, -, hRest⟩ := h
    rcases List.mem_cons.1 hj with rfl | hj
    · exact ⟨_, hGet, rfl⟩
    · exact ihRest hRest hj

/-- Slots that change their lists of children, but not in an address of the forest, keep it. -/
theorem frame {σ : NodeId → NodeId} (h : a.Holds p f) (hσ : ∀ j ∈ f.ids, σ j = j)
    (hGet : ∀ j ∈ f.ids, ∀ n, a.get? j = some n →
      b.get? j = some { n with children := n.children.map σ }) : b.Holds p f := by
  induction f generalizing p with
  | nil => trivial
  | cons x below rest ihBelow ihRest =>
    obtain ⟨hx, hBelow, hRest⟩ := h
    simp only [Forest.ids_cons, List.mem_cons, List.mem_append] at hσ hGet
    refine ⟨?_, ihBelow hBelow (fun j hj => hσ j (Or.inr (Or.inl hj))) (fun j hj =>
      hGet j (Or.inr (Or.inl hj))), ihRest hRest (fun j hj => hσ j (Or.inr (Or.inr hj)))
      (fun j hj => hGet j (Or.inr (Or.inr hj)))⟩
    have hRoots : below.roots.map σ = below.roots := by
      refine (List.map_congr_left fun j hj => ?_).trans (List.map_id _)
      exact hσ j (Or.inr (Or.inl (Forest.mem_ids_of_mem_roots hj)))
    simpa only [hRoots] using hGet x.1 (Or.inl rfl) _ hx

theorem congr (h : a.Holds p f) (hGet : ∀ j ∈ f.ids, b.get? j = a.get? j) : b.Holds p f := by
  refine h.frame (fun _ _ => rfl) fun j hj n hn => ?_
  rw [hGet j hj, hn, List.map_id']

theorem forest (h : a.Holds p f) {fuel : Nat} (hFuel : f.size ≤ fuel) :
    a.forest fuel f.roots = .ok f := by
  induction f generalizing p fuel with
  | nil => cases fuel <;> rfl
  | cons x below rest ihBelow ihRest =>
    obtain ⟨hx, hBelow, hRest⟩ := h
    cases fuel with
    | zero => simp [Forest.size] at hFuel
    | succ fuel =>
      simp only [Forest.size] at hFuel
      have hFuelBelow : below.size ≤ fuel := by omega
      have hFuelRest : rest.size ≤ fuel := by omega
      rw [Forest.roots_cons, Arena.forest, node_eq_ok hx]
      simp only [bind, Except.bind, ihBelow hBelow hFuelBelow, ihRest hRest hFuelRest]
      rfl

/-- A tree in the slots is read where its root stands. -/
theorem treeAt (h : a.Holds p s.toForest) (hSize : s.below.size ≤ a.slots.size) :
    a.treeAt s.label.1 = .ok s := by
  rw [Arena.treeAt, node_eq_ok h.1]
  simp only [bind, Except.bind, h.2.1.forest hSize]
  rfl

/-- Exchanging a tree: the new tree stands below the parent of the old one, and all other nodes
name its root among their children where they named the old root. -/
theorem exchange (h : a.Holds p f) (hNodup : f.ids.Nodup) (ht : t ∈ f.subtrees)
    (hParent : ∃ n, a.get? t.label.1 = some n ∧ n.parent = q) (hs : b.Holds q s.toForest)
    (hOther : ∀ j ∈ f.ids, j ∉ t.ids → ∀ n, a.get? j = some n → b.get? j =
      some { n with children := n.children.map fun c => if c = t.label.1 then s.label.1 else c }) :
    b.Holds p (f.exchange t.label.1 s) := by
  induction f generalizing p with
  | nil => cases ht
  | cons x below rest ihBelow ihRest =>
    obtain ⟨hx, hBelow, hRest⟩ := h
    rw [Forest.ids_cons, List.nodup_cons, List.nodup_append] at hNodup
    obtain ⟨hNew, hb, hr, hDisjoint⟩ := hNodup
    rw [List.mem_append, not_or] at hNew
    simp only [Forest.ids_cons, List.mem_cons, List.mem_append] at hOther
    rw [Forest.subtrees_cons, List.mem_cons, List.mem_append] at ht
    -- A forest that shares no address with the old tree is kept.
    have hKeep : ∀ (g : Forest (NodeId × Label)) (p : Option NodeId), a.Holds p g →
        (∀ j ∈ g.ids, j ∈ below.ids ∨ j ∈ rest.ids) → (∀ j ∈ g.ids, j ∉ t.ids) →
        b.Holds p g := fun g p hg hIn hOut =>
      hg.frame (fun j hj => if_neg fun (hEq : j = t.label.1) =>
        hOut j hj (hEq ▸ List.mem_cons_self)) fun j hj => hOther j (Or.inr (hIn j hj)) (hOut j hj)
    rcases ht with rfl | ht | ht
    · obtain ⟨n, hn, rfl⟩ := hParent
      obtain rfl : n = ⟨x.2, p, below.roots⟩ := Option.some.inj (hn.symm.trans hx)
      rw [Forest.exchange, if_pos rfl]
      refine ⟨hs.1, hs.2.1, hKeep rest p hRest (fun j hj => Or.inr hj) fun j hj hMem => ?_⟩
      rcases List.mem_cons.1 hMem with rfl | hMem
      · exact hNew.2 hj
      · exact hDisjoint _ hMem _ hj rfl
    · have hIds : ∀ j ∈ t.ids, j ∈ below.ids := fun j hj => by
        rcases List.mem_cons.1 hj with rfl | hj
        · exact Forest.mem_ids_of_mem_subtrees ht
        · exact Forest.mem_ids_of_mem_below ht hj
      have hxt : x.1 ∉ t.ids := fun hMem => hNew.1 (hIds _ hMem)
      have hne : x.1 ≠ t.label.1 := fun hEq => hxt (hEq ▸ List.mem_cons_self)
      have hRestOut : ∀ j ∈ rest.ids, j ∉ t.ids := fun j hj hMem =>
        hDisjoint _ (hIds j hMem) _ hj rfl
      rw [Forest.exchange, if_neg hne, Forest.exchange_of_not_mem fun hMem =>
        hRestOut _ hMem List.mem_cons_self]
      refine ⟨?_, ihBelow hBelow hb ht fun j hj => hOther j (Or.inr (Or.inl hj)),
        hKeep rest p hRest (fun j hj => Or.inr hj) hRestOut⟩
      rw [Forest.roots_exchange below hb]
      exact hOther x.1 (Or.inl rfl) hxt _ hx
    · have hIds : ∀ j ∈ t.ids, j ∈ rest.ids := fun j hj => by
        rcases List.mem_cons.1 hj with rfl | hj
        · exact Forest.mem_ids_of_mem_subtrees ht
        · exact Forest.mem_ids_of_mem_below ht hj
      have hxt : x.1 ∉ t.ids := fun hMem => hNew.2 (hIds _ hMem)
      have hne : x.1 ≠ t.label.1 := fun hEq => hxt (hEq ▸ List.mem_cons_self)
      have hBelowOut : ∀ j ∈ below.ids, j ∉ t.ids := fun j hj hMem =>
        hDisjoint _ hj _ (hIds j hMem) rfl
      have hNotBelow : t.label.1 ∉ below.ids := fun hMem => hBelowOut _ hMem List.mem_cons_self
      rw [Forest.exchange, if_neg hne, Forest.exchange_of_not_mem hNotBelow]
      refine ⟨?_, hKeep below _ hBelow (fun j hj => Or.inl hj) hBelowOut,
        ihRest hRest hr ht fun j hj => hOther j (Or.inr (Or.inr hj))⟩
      rw [← Forest.exchange_of_not_mem (s := s) hNotBelow, Forest.roots_exchange below hb]
      exact hOther x.1 (Or.inl rfl) hxt _ hx

end Holds

/-! ## Reading the represented tree -/

namespace Represents

theorem nodup (h : a.Represents t) : t.ids.Nodup := h.tidy.nodup

theorem nodup_toForest (h : a.Represents t) : t.toForest.ids.Nodup :=
  t.ids_toForest.symm ▸ h.tidy.nodup

theorem nodup_below (h : a.Represents t) (hs : s ∈ t.subtrees) : s.below.ids.Nodup :=
  (List.nodup_cons.1 (Forest.nodup_of_mem_subtrees h.nodup_toForest
    (t.subtrees_toForest.symm ▸ hs))).2

/-- No node stands below itself. -/
theorem not_mem_below (h : a.Represents t) (hs : s ∈ t.subtrees) : s.label.1 ∉ s.below.ids :=
  (List.nodup_cons.1 (Forest.nodup_of_mem_subtrees h.nodup_toForest
    (t.subtrees_toForest.symm ▸ hs))).1

theorem roots_nodup (h : a.Represents t) (hs : s ∈ t.subtrees) : s.below.roots.Nodup :=
  Forest.roots_nodup (h.nodup_below hs)

theorem get? (h : a.Represents t) (hs : s ∈ t.subtrees) :
    ∃ q, a.get? s.label.1 = some ⟨s.label.2, q, s.below.roots⟩ :=
  h.holds.get? (t.subtrees_toForest.symm ▸ hs)

theorem holds_below (h : a.Represents t) (hs : s ∈ t.subtrees) :
    a.Holds (some s.label.1) s.below :=
  h.holds.below (t.subtrees_toForest.symm ▸ hs)

theorem get?_root (h : a.Represents t) :
    a.get? t.label.1 = some ⟨t.label.2, none, t.below.roots⟩ := h.holds.1

/-- Every occupied slot holds a node of the tree. -/
theorem exists_subtree (h : a.Represents t) {n : Node} (hGet : a.get? id = some n) :
    ∃ below, ⟨(id, n.label), below⟩ ∈ t.subtrees ∧ n.children = below.roots := by
  have hMem := h.tidy.mem_of_get? hGet
  rw [← Tree.ids_toForest, Forest.mem_ids_iff] at hMem
  obtain ⟨l, below, hs⟩ := hMem
  rw [Tree.subtrees_toForest] at hs
  obtain ⟨q, hq⟩ := h.get? hs
  obtain rfl : n = ⟨l, q, below.roots⟩ := Option.some.inj (hGet.symm.trans hq)
  exact ⟨below, hs, rfl⟩

/-- The children of a node name it as their parent. -/
theorem parent (h : a.Represents t) (hs : s ∈ t.subtrees) (hj : j ∈ s.below.roots) :
    ∃ n, a.get? j = some n ∧ n.parent = some s.label.1 :=
  (h.holds_below hs).parent hj

/-- Only the parent of a node lists it among its children. -/
theorem parent_unique (h : a.Represents t) (hs : s ∈ t.subtrees) {r : Tree (NodeId × Label)}
    (hr : r ∈ t.subtrees)
    (hId : id ∈ s.below.roots) (hId' : id ∈ r.below.roots) : s.label.1 = r.label.1 := by
  obtain ⟨n, hn, hParent⟩ := h.parent hs hId
  obtain ⟨n', hn', hParent'⟩ := h.parent hr hId'
  obtain rfl : n = n' := Option.some.inj (hn.symm.trans hn')
  exact Option.some.inj (hParent.symm.trans hParent')

theorem size_le (h : a.Represents t) : t.size ≤ a.slots.size := by
  have hLe := h.tidy.length_le_size
  rwa [Tree.length_ids] at hLe

/-- Reading at any node gives the tree there. -/
theorem treeAt (h : a.Represents t) (hs : s ∈ t.subtrees) : a.treeAt s.label.1 = .ok s := by
  obtain ⟨q, hq⟩ := h.get? hs
  have hSize : s.below.size ≤ a.slots.size := by
    have hLe := Forest.size_le_of_mem_subtrees (t.subtrees_toForest.symm ▸ hs)
    have hWhole := h.size_le
    simp only [Tree.size, Tree.toForest, Forest.size] at hLe hWhole
    omega
  exact Holds.treeAt ⟨hq, h.holds_below hs, trivial⟩ hSize

theorem addressed (h : a.Represents t) : a.addressed = .ok t := by
  rw [Arena.addressed, h.root]
  exact h.treeAt List.mem_cons_self

theorem tree (h : a.Represents t) : a.tree = .ok (t.map Prod.snd) := by
  rw [Arena.tree, h.addressed]
  rfl

theorem decodeAt (h : a.Represents t) (hs : s ∈ t.subtrees) :
    a.decodeAt s.label.1 = .ok (s.map Prod.snd).decode := by
  rw [Arena.decodeAt, h.treeAt hs]
  rfl

theorem decode (h : a.Represents t) : a.decode = .ok (t.map Prod.snd).decode := by
  rw [Arena.decode, h.root]
  exact h.decodeAt List.mem_cons_self

theorem size (h : a.Represents t) : a.size = t.size := by
  rw [Arena.size, h.tidy.live, Tree.length_ids]

/-- An arena represents a tree after an exchange when the new tree stands below the parent of
the old one and all other nodes are kept. -/
theorem exchange (h : a.Represents t) (hu : u ∈ t.subtrees)
    (hParent : ∃ n, a.get? u.label.1 = some n ∧ n.parent = q) (hs : b.Holds q s.toForest)
    (hOther : ∀ j ∈ t.ids, j ∉ u.ids → ∀ n, a.get? j = some n → b.get? j =
      some { n with children := n.children.map fun c => if c = u.label.1 then s.label.1 else c })
    (hRoot : b.root = (t.exchange u.label.1 s).label.1)
    (hTidy : b.Tidy (t.exchange u.label.1 s).ids) : b.Represents (t.exchange u.label.1 s) where
  root := hRoot
  holds := by
    rw [Tree.toForest_exchange]
    refine h.holds.exchange h.nodup_toForest (t.subtrees_toForest.symm ▸ hu) hParent hs ?_
    rwa [Tree.ids_toForest]
  tidy := hTidy

end Represents

end Arena

end OntoFold
