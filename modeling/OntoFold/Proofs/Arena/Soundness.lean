import OntoFold.Proofs.Arena.Ancestors
import OntoFold.Proofs.Arena.Replacement
import OntoFold.Proofs.Journal

/-!
# Arenas in order

The links, the order of reading and the free list of an arena are in order exactly when the arena
represents a tree. So what is known of represented trees holds of every arena in order, and what
stands below a node can be read off the links as well as off the tree there.

* `Arena.Represents.addChild`: adding a node.
* `Arena.Represents.sound`: an arena that represents a tree is in order.
* `Arena.Sound.represents`: an arena in order represents a tree.
* `Arena.Represents.below_iff`: what stands below a node.
-/

namespace OntoFold

open Relation (ReflTransGen TransGen)

namespace Forest

/-- The forest with a leaf as its last tree. -/
def extend {α : Type u} (x : α) : Forest α → Forest α
  | nil => cons x nil nil
  | cons y below rest => cons y below (rest.extend x)

variable {β : Type v} {x : NodeId × β}

theorem roots_extend (f : Forest (NodeId × β)) : (f.extend x).roots = f.roots ++ [x.1] := by
  induction f with
  | nil => rfl
  | cons y b r _ ihRest => rw [extend, roots_cons, ihRest, roots_cons, List.cons_append]

theorem ids_extend (f : Forest (NodeId × β)) : (f.extend x).ids = f.ids ++ [x.1] := by
  induction f with
  | nil => rfl
  | cons y b r _ ihRest =>
    rw [extend, ids_cons, ihRest, ids_cons, List.cons_append, List.append_assoc]

end Forest

namespace Arena

variable {a b : Arena} {id : NodeId} {p : Option NodeId} {f : Forest (NodeId × Label)}
  {s t : Tree (NodeId × Label)}

/-! ## Adding a node -/

theorem Holds.extend {x : NodeId × Label} (h : a.Holds p f) (hx : a.get? x.1 = some ⟨x.2, p, []⟩) :
    a.Holds p (f.extend x) := by
  induction f with
  | nil => exact ⟨hx, trivial, trivial⟩
  | cons y below rest _ ihRest =>
    obtain ⟨hy, hBelow, hRest⟩ := h
    exact ⟨hy, hBelow, ihRest hRest⟩

namespace Represents

/-- A new node becomes the last child. -/
theorem addChild (h : a.Represents t) (hs : s ∈ t.subtrees) (l : Label) :
    ∃ id b, a.addChild s.label.1 l = .ok (id, b) ∧
      b.Represents (t.exchange s.label.1 ⟨s.label, s.below.extend (id, l)⟩) := by
  obtain ⟨q, hq⟩ := h.get? hs
  obtain ⟨id, b, hAdd, -, hGrow⟩ := addChild_grows h.tidy (h.tidy.mem_of_get? hq) l
  obtain ⟨others, hOld, hNew⟩ :=
    Tree.ids_exchange (s := ⟨s.label, s.below.extend (id, l)⟩) h.nodup hs
  refine ⟨id, b, hAdd, h.update hs ?get ?below (fun j hj hOut => ?other) hGrow.root ?tidy⟩
  case get =>
    rw [hGrow.extended _ hq, hq, Forest.roots_extend]
    rfl
  case below =>
    refine Holds.extend ((h.holds_below hs).congr fun j hj => ?_) hGrow.holds.1
    refine hGrow.other j ?_ fun hEq => h.not_mem_below hs (hEq ▸ hj)
    exact hOld.mem_iff.2 (List.mem_append_left _ (List.mem_cons_of_mem _ hj))
  case other => exact hGrow.other j hj fun hEq => hOut (hEq ▸ List.mem_cons_self)
  case tidy =>
    have hIds : Tree.ids ⟨s.label, s.below.extend (id, l)⟩ = s.ids ++ [id] := by
      rw [Tree.ids_eq, Forest.ids_extend, Tree.ids_eq, List.cons_append]
    refine hGrow.tidy.perm (((hOld.cons id).trans ?_).trans hNew.symm)
    rw [hIds, List.append_assoc, List.singleton_append]
    exact List.perm_middle.symm

/-! ## Addresses in use -/

theorem exists_at (h : a.Represents t) (hId : (a.get? id).isSome) :
    ∃ s ∈ t.subtrees, s.label.1 = id := by
  obtain ⟨n, hn⟩ := Option.isSome_iff_exists.1 hId
  obtain ⟨below, hs, -⟩ := h.exists_subtree hn
  exact ⟨_, hs, rfl⟩

/-- An address in use is the root, or that of a child. -/
theorem exists_child (h : a.Represents t) (hId : (a.get? id).isSome) (hRoot : id ≠ a.root) :
    ∃ r ∈ t.subtrees, ∃ s ∈ r.below.trees, s.label.1 = id := by
  obtain ⟨s, hs, rfl⟩ := h.exists_at hId
  rcases h.parent_cases hs with ⟨rfl, -⟩ | ⟨r, hr, hChild, -⟩
  · exact absurd h.root.symm hRoot
  · exact ⟨r, hr, s, hChild, rfl⟩

end Represents

/-! ## Arenas in order -/

/-- One node lists another one among its children. -/
def Lists (a : Arena) (parent child : NodeId) : Prop :=
  ∃ n, a.get? parent = some n ∧ child ∈ n.children

/-- One node stands somewhere below another one. -/
def Below (a : Arena) (upper lower : NodeId) : Prop := TransGen a.Lists upper lower

/-- The links, the order of reading and the free list of an arena are in order. -/
structure Sound (a : Arena) : Prop where
  /-- The root is in use and has no parent. -/
  root : ∃ n, a.get? a.root = some n ∧ n.parent = none
  /-- Any other node names a parent that lists it once. -/
  listed : ∀ id n, a.get? id = some n → id ≠ a.root →
    ∃ parent m, n.parent = some parent ∧ a.get? parent = some m ∧ m.children.count id = 1
  /-- What a node lists is in use and names it as the parent. -/
  parent : ∀ parent child, a.Lists parent child →
    ∃ n, a.get? child = some n ∧ n.parent = some parent
  reachable : ∀ id, (a.get? id).isSome → ReflTransGen a.Lists a.root id
  /-- Reading meets every node once, and their number is the size. -/
  preorder : ∃ order, a.preorder = .ok order ∧ order.Nodup ∧
    (∀ id, id ∈ order ↔ (a.get? id).isSome) ∧ a.size = order.length
  free_nodup : a.free.Nodup
  mem_free : ∀ id, id ∈ a.free ↔ id < a.slots.size ∧ a.get? id = none

namespace Represents

theorem lists_iff (h : a.Represents t) {parent : NodeId} :
    a.Lists parent id ↔ ∃ s ∈ t.subtrees, s.label.1 = parent ∧ id ∈ s.below.roots := by
  constructor
  · rintro ⟨n, hn, hMem⟩
    obtain ⟨below, hs, hChildren⟩ := h.exists_subtree hn
    exact ⟨_, hs, rfl, hChildren ▸ hMem⟩
  · rintro ⟨s, hs, rfl, hMem⟩
    obtain ⟨q, hq⟩ := h.get? hs
    exact ⟨_, hq, hMem⟩

theorem lists_subtree (h : a.Represents t) (hs : s ∈ t.subtrees) :
    a.Lists s.label.1 id ↔ id ∈ s.below.roots := by
  obtain ⟨q, hq⟩ := h.get? hs
  constructor
  · rintro ⟨n, hn, hMem⟩
    obtain rfl := Option.some.inj (hq.symm.trans hn)
    exact hMem
  · exact fun hMem => ⟨_, hq, hMem⟩

/-- What stands below a node of the tree is reached from the node. -/
theorem reaches (h : a.Represents t) (hs : s ∈ t.subtrees) (hId : id ∈ s.below.ids) :
    a.Below s.label.1 id := by
  -- Whoever lists a node from which the address can be reached can reach it as well.
  have hClosed : ∀ r ∈ s.below.subtrees, ∀ i ∈ r.below.roots,
      ReflTransGen a.Lists i id → ReflTransGen a.Lists r.label.1 id := by
    intro r hr i hi hReach
    exact ReflTransGen.head ((h.lists_subtree (Tree.subtrees_trans hs hr)).2 hi) hReach
  obtain ⟨i, hi, hReach⟩ := Forest.exists_root_of_closed hClosed hId ReflTransGen.refl
  exact TransGen.head' ((h.lists_subtree hs).2 hi) hReach

/-- The links lead from a node to what stands below it in the tree, and nowhere else. -/
theorem below_iff (h : a.Represents t) (hs : s ∈ t.subtrees) :
    a.Below s.label.1 id ↔ id ∈ s.below.ids := by
  refine ⟨fun hBelow => ?_, h.reaches hs⟩
  induction hBelow with
  | single hLists => exact Forest.mem_ids_of_mem_roots ((h.lists_subtree hs).1 hLists)
  | tail _ hLists ih =>
    obtain ⟨l, below, hr⟩ := Forest.mem_ids_iff.1 ih
    have hChild := (h.lists_subtree (Tree.subtrees_trans hs hr)).1 hLists
    exact Forest.mem_ids_of_mem_below hr (Forest.mem_ids_of_mem_roots hChild)

/-- The addresses of a tree are its root and what stands below it. -/
theorem mem_ids_subtree (h : a.Represents t) (hs : s ∈ t.subtrees) :
    id ∈ s.ids ↔ id = s.label.1 ∨ a.Below s.label.1 id := by
  rw [h.below_iff hs, Tree.ids_eq, List.mem_cons]

theorem reachable (h : a.Represents t) (hId : id ∈ t.ids) : ReflTransGen a.Lists a.root id := by
  rw [h.root]
  rcases (h.mem_ids_subtree List.mem_cons_self).1 hId with rfl | hBelow
  · exact ReflTransGen.refl
  · exact TransGen.to_reflTransGen hBelow

/-- An arena that represents a tree is in order. -/
theorem sound (h : a.Represents t) : a.Sound where
  root := ⟨_, h.root ▸ h.get?_root, rfl⟩
  listed id n hn hRoot := by
    obtain ⟨r, hr, s, hChild, rfl⟩ := h.exists_child (hn ▸ rfl) hRoot
    have hListed := Forest.mem_roots_of_mem_trees hChild
    obtain ⟨n', hn', hParent⟩ := h.parent hr hListed
    obtain rfl : n = n' := Option.some.inj (hn.symm.trans hn')
    obtain ⟨q, hq⟩ := h.get? hr
    exact ⟨r.label.1, _, hParent, hq, List.count_eq_one_of_mem (h.roots_nodup hr) hListed⟩
  parent parent child hLists := by
    obtain ⟨s, hs, rfl, hMem⟩ := h.lists_iff.1 hLists
    exact h.parent hs hMem
  reachable id hId := h.reachable ((h.tidy.occupied id).1 hId)
  preorder := by
    refine ⟨t.ids, ?_, h.nodup, fun id => (h.tidy.occupied id).symm, h.tidy.live⟩
    rw [Arena.preorder, h.addressed]
    rfl
  free_nodup := h.tidy.free_nodup
  mem_free id := by
    rw [h.tidy.mem_free, ← h.tidy.occupied, Bool.not_eq_true, Option.isSome_eq_false_iff,
      Option.isNone_iff_eq_none]

end Represents

/-- What is read at some addresses that name the same parent stands in the slots, when all listed
nodes name the node that lists them. -/
theorem forest_holds {fuel : Nat} {ids : List NodeId}
    (hParent : ∀ parent child, a.Lists parent child →
      ∃ n, a.get? child = some n ∧ n.parent = some parent)
    (hRead : a.forest fuel ids = .ok f)
    (hIds : ∀ id ∈ ids, ∃ n, a.get? id = some n ∧ n.parent = p) :
    f.roots = ids ∧ a.Holds p f := by
  induction fuel generalizing ids f p with
  | zero =>
    cases ids with
    | nil =>
      cases hRead
      exact ⟨rfl, trivial⟩
    | cons id ids => cases hRead
  | succ fuel ih =>
    cases ids with
    | nil =>
      cases hRead
      exact ⟨rfl, trivial⟩
    | cons id ids =>
      obtain ⟨n, hn, rfl⟩ := hIds id List.mem_cons_self
      rw [Arena.forest, node_eq_ok hn, Run.ok_bind] at hRead
      obtain ⟨below, hBelow, hRead⟩ := Run.bind_eq_ok hRead
      obtain ⟨rest, hRest, hRead⟩ := Run.bind_eq_ok hRead
      obtain rfl := Except.ok.inj hRead
      obtain ⟨hRoots, hHolds⟩ := ih hBelow fun child hChild => hParent id child ⟨n, hn, hChild⟩
      obtain ⟨hLater, hHoldsLater⟩ := ih hRest fun j hj => hIds j (List.mem_cons_of_mem _ hj)
      refine ⟨by rw [Forest.roots_cons, hLater], ?_, hHolds, hHoldsLater⟩
      rw [hRoots, hn]

/-- An arena in order represents the tree that is read from it. -/
theorem Sound.represents (h : a.Sound) : ∃ t, a.Represents t := by
  obtain ⟨n, hRoot, hNone⟩ := h.root
  obtain ⟨order, hOrder, hNodup, hMem, hSize⟩ := h.preorder
  obtain ⟨t, hRead, hIds⟩ := Run.bind_eq_ok hOrder
  obtain rfl : t.ids = order := Except.ok.inj hIds
  rw [addressed, Arena.treeAt, node_eq_ok hRoot, Run.ok_bind] at hRead
  obtain ⟨below, hBelow, hTree⟩ := Run.bind_eq_ok hRead
  obtain rfl := Except.ok.inj hTree
  obtain ⟨hRoots, hHolds⟩ := forest_holds h.parent hBelow fun child hChild =>
    h.parent a.root child ⟨n, hRoot, hChild⟩
  refine ⟨⟨(a.root, n.label), below⟩, rfl, ⟨?_, hHolds, trivial⟩, ?_⟩
  · rw [hRoot, hRoots, ← hNone]
  · refine ⟨hNodup, fun id => (hMem id).symm, h.free_nodup, fun id => ?_, hSize⟩
    rw [h.mem_free, hMem, Bool.not_eq_true, Option.isSome_eq_false_iff,
      Option.isNone_iff_eq_none]

end Arena

end OntoFold
