import OntoFold.Proofs.Arena.Replacement
import OntoFold.Proofs.Journal
import OntoFold.Proofs.Rewriting.Splicing

/-!
# Replacing the nodes that hold a term

Where the nodes that hold a term are not nested, they can be replaced one after another: those
that wait for their turn stay in use and are not touched by the copies made before.

* `Arena.Splicing`: what holds between two replacements.
* `Arena.Splicing.replaceAll`: replacing a list of nodes never fails, whatever nodes wait behind
  them.
-/

namespace OntoFold

namespace Forest

theorem mem_trees_splice {f : Forest (NodeId × Label)} {copies : Copies}
    {s : Tree (NodeId × Label)} (hs : s ∈ f.trees) (hSelf : copies s.label.1 = none) :
    ⟨s.label, s.below.splice copies⟩ ∈ (f.splice copies).trees := by
  induction f with
  | nil => cases hs
  | cons x b r _ ihRest =>
    rcases List.mem_cons.1 hs with rfl | hs
    · rw [splice_cons_of_none hSelf]
      exact List.mem_cons_self
    · exact List.mem_cons_of_mem _ (ihRest hs)

end Forest

namespace Arena

/-! ## Between two replacements -/

/-- Some of the nodes that hold the target have been replaced, and others wait for their turn.
The parents of the replaced ones have been collected. -/
structure Splicing (t : Tree (NodeId × Label)) (T R : Term) (copies : Copies)
    (pending parents : List NodeId) (a : Arena) : Prop where
  nodup : pending.Nodup
  target : ∀ j ∈ pending, ∃ s ∈ t.subtrees, s.label.1 = j ∧ s.label.2.phrase = .term T
  represents : ∃ u : Tree (NodeId × Label),
    a.Represents u ∧ u.toForest = t.toForest.splice copies
  isSome_iff : ∀ x ∈ t.toList, (copies x.1).isSome ↔ x.2.GivesWay T R ∧ x.1 ∉ pending
  encode : ∀ x ∈ t.toList, ∀ c, copies x.1 = some c →
    c.map Prod.snd = Label.encode ⟨.term R, x.2.position⟩
  fresh : ∀ i c, copies i = some c → ∀ j ∈ pending, j ∉ c.ids
  collected : ∀ r ∈ t.subtrees, ∀ s ∈ r.below.trees, (copies s.label.1).isSome →
    r.label.1 ∈ parents
  parents : ∀ p ∈ parents, ∃ r ∈ t.subtrees, r.label.1 = p ∧
    ∃ s ∈ r.below.trees, (copies s.label.1).isSome

/-- No node that holds the term stands below another one. -/
def Separate (T : Term) (t : Tree (NodeId × Label)) : Prop :=
  ∀ s ∈ t.subtrees, s.label.2.phrase = .term T → ∀ x ∈ s.below.toList, x.2.phrase ≠ .term T

/-- The nodes that hold the target can be replaced one by one: none of them stands below
another one, and the root is not to be replaced. -/
structure Replaceable (t : Tree (NodeId × Label)) (T R : Term) : Prop where
  nodup : t.ids.Nodup
  separate : Separate T t
  root : ¬ t.label.2.GivesWay T R

variable {a : Arena} {t : Tree (NodeId × Label)} {T R : Term} {copies : Copies}
  {id : NodeId} {pending parents : List NodeId} {r s : Tree (NodeId × Label)}

theorem Replaceable.mem_below (h : Replaceable t T R) (hr : r ∈ t.subtrees) (hs : s ∈ t.subtrees)
    (hId : s.label.1 ∈ r.below.ids) : s ∈ r.below.subtrees := by
  obtain ⟨l, below, hMem⟩ := Forest.mem_ids_iff.1 hId
  have hSame : s = ⟨(s.label.1, l), below⟩ := by
    have hNodup : t.toForest.ids.Nodup := t.ids_toForest.symm ▸ h.nodup
    refine Forest.eq_of_mem_subtrees hNodup ?_ ?_ rfl
    · exact t.subtrees_toForest.symm ▸ hs
    · exact t.subtrees_toForest.symm ▸ Tree.subtrees_trans hr hMem
  exact hSame ▸ hMem

namespace Splicing

theorem copies_eq_none (h : Splicing t T R copies pending parents a) {x : NodeId × Label}
    (hx : x ∈ t.toList) (hMem : x.1 ∈ pending) : copies x.1 = none := by
  rw [← Option.not_isSome_iff_eq_none, h.isSome_iff x hx]
  exact fun hSome => hSome.2 hMem

theorem phrase_of_isSome (h : Splicing t T R copies pending parents a) {x : NodeId × Label}
    (hx : x ∈ t.toList) (hSome : (copies x.1).isSome) : x.2.phrase = .term T :=
  ((h.isSome_iff x hx).1 hSome).1.1

/-- Nothing above a node that holds the target has been replaced. -/
theorem above_eq_none (h : Splicing t T R copies pending parents a) (hT : Replaceable t T R)
    (hs : s ∈ t.subtrees) (hPhrase : s.label.2.phrase = .term T) (hr : r ∈ t.subtrees)
    (hId : s.label.1 ∈ r.below.ids) : copies r.label.1 = none := by
  rw [← Option.not_isSome_iff_eq_none]
  intro hSome
  have hTarget := h.phrase_of_isSome (Tree.label_mem_toList hr) hSome
  exact hT.separate r hr hTarget _ (Forest.mem_toList_iff.2 ⟨_, hT.mem_below hr hs hId⟩) hPhrase

/-- Nothing below a node that holds the target has been replaced. -/
theorem splice_below (h : Splicing t T R copies pending parents a) (hT : Replaceable t T R)
    (hs : s ∈ t.subtrees) (hPhrase : s.label.2.phrase = .term T) :
    s.below.splice copies = s.below := by
  refine (Forest.splice_congr fun i hi => ?_).trans (Forest.splice_none s.below)
  obtain ⟨x, hx, rfl⟩ := List.mem_map.1 hi
  rw [← Option.not_isSome_iff_eq_none]
  intro hSome
  obtain ⟨below, hBelow⟩ := Forest.mem_toList_iff.1 hx
  have hMem := Tree.label_mem_toList (Tree.subtrees_trans hs hBelow)
  exact hT.separate s hs hPhrase x hx (h.phrase_of_isSome hMem hSome)

/-- A node that waits for its turn is in use as before. -/
theorem mem_subtrees (h : Splicing t T R copies pending parents a) (hT : Replaceable t T R)
    (hs : s ∈ t.subtrees) (hPhrase : s.label.2.phrase = .term T)
    (hMem : s.label.1 ∈ pending) {u : Tree (NodeId × Label)}
    (hu : u.toForest = t.toForest.splice copies) : s ∈ u.subtrees := by
  have hNone := h.copies_eq_none (Tree.label_mem_toList hs) hMem
  rw [← Tree.subtrees_toForest, hu]
  have hStay := Forest.mem_subtrees_splice (t.subtrees_toForest.symm ▸ hs) hNone
    fun r hr hId => h.above_eq_none hT hs hPhrase (t.subtrees_toForest ▸ hr) hId
  rwa [h.splice_below hT hs hPhrase] at hStay

/-- So is its parent. -/
theorem mem_subtrees_parent (h : Splicing t T R copies pending parents a)
    (hT : Replaceable t T R) (hr : r ∈ t.subtrees) (hs : s ∈ r.below.trees)
    (hPhrase : s.label.2.phrase = .term T) {u : Tree (NodeId × Label)}
    (hu : u.toForest = t.toForest.splice copies) :
    ⟨r.label, r.below.splice copies⟩ ∈ u.subtrees := by
  have hChild := Forest.mem_subtrees_of_mem_trees hs
  have hsMem := Tree.subtrees_trans hr hChild
  rw [← Tree.subtrees_toForest, hu]
  refine Forest.mem_subtrees_splice (t.subtrees_toForest.symm ▸ hr) ?_ fun q hq hId => ?_
  · exact h.above_eq_none hT hsMem hPhrase hr (Forest.mem_ids_of_mem_subtrees hChild)
  · rw [Tree.subtrees_toForest] at hq
    refine h.above_eq_none hT hsMem hPhrase hq ?_
    exact Forest.mem_ids_of_mem_subtrees (Forest.subtrees_trans (hT.mem_below hq hr hId) hChild)

/-- What waits for its turn after a node is in use and outside the tree of the node. -/
theorem waiting_outside (h : Splicing t T R copies (s.label.1 :: pending) parents a)
    (hT : Replaceable t T R) (hs : s ∈ t.subtrees) (hPhrase : s.label.2.phrase = .term T)
    {u : Tree (NodeId × Label)} (hu : u.toForest = t.toForest.splice copies) {j : NodeId}
    (hj : j ∈ pending) : j ∈ u.ids ∧ j ∉ s.ids := by
  obtain ⟨v, hv, rfl, hTarget⟩ := h.target j (List.mem_cons_of_mem _ hj)
  have hvu := h.mem_subtrees hT hv hTarget (List.mem_cons_of_mem _ hj) hu
  refine ⟨Tree.mem_ids_of_mem_subtrees hvu, fun hIn => ?_⟩
  rcases List.mem_cons.1 hIn with hSelf | hBelow
  · exact (List.nodup_cons.1 h.nodup).1 (hSelf ▸ hj)
  · exact hT.separate s hs hPhrase _
      (Forest.mem_toList_iff.2 ⟨_, hT.mem_below hs hv hBelow⟩) hTarget

/-- A node that defines a class is passed over. -/
theorem skip (h : Splicing t T R copies (id :: pending) parents a) (hT : Replaceable t T R)
    {l : Label} (hl : (id, l) ∈ t.toList) (hNot : ¬ l.GivesWay T R) :
    Splicing t T R copies pending parents a where
  nodup := (List.nodup_cons.1 h.nodup).2
  target j hj := h.target j (List.mem_cons_of_mem _ hj)
  represents := h.represents
  isSome_iff x hx := by
    rw [h.isSome_iff x hx, List.mem_cons, not_or]
    refine and_congr_right fun hGives => and_iff_right fun hEq => hNot ?_
    have hSame : x = (id, l) := List.inj_on_of_nodup_map hT.nodup hx hl hEq
    rwa [hSame] at hGives
  encode := h.encode
  fresh i c hc j hj := h.fresh i c hc j (List.mem_cons_of_mem _ hj)
  collected := h.collected
  parents := h.parents

/-- A copy in place of a node that gives way, with the parent of the node collected. -/
theorem add (h : Splicing t T R copies (s.label.1 :: pending) parents a) (hT : Replaceable t T R)
    (hr : r ∈ t.subtrees) (hs : s ∈ r.below.trees)
    (hGives : s.label.2.GivesWay T R) {copy : Tree (NodeId × Label)} {b : Arena}
    (hCopy : copy.map Prod.snd = Label.encode ⟨.term R, s.label.2.position⟩)
    (hFresh : ∀ j ∈ pending, j ∉ copy.ids)
    (hParent : ∀ q ∈ t.subtrees, ∀ v ∈ q.below.trees, v.label = s.label → q.label.1 = r.label.1)
    (hb : ∃ u : Tree (NodeId × Label),
      b.Represents u ∧ u.toForest = t.toForest.splice (copies.add s.label.1 copy)) :
    Splicing t T R (copies.add s.label.1 copy) pending (parents ++ [r.label.1]) b := by
  obtain ⟨hNew, hPendingNodup⟩ := List.nodup_cons.1 h.nodup
  have hsLabel : s.label ∈ t.toList :=
    Tree.label_mem_toList (Tree.subtrees_trans hr (Forest.mem_subtrees_of_mem_trees hs))
  have hSame : ∀ x ∈ t.toList, x.1 = s.label.1 → x = s.label := fun x hx hEq =>
    List.inj_on_of_nodup_map hT.nodup hx hsLabel hEq
  constructor
  case nodup => exact hPendingNodup
  case target => exact fun j hj => h.target j (List.mem_cons_of_mem _ hj)
  case represents => exact hb
  case isSome_iff =>
    intro x hx
    by_cases hEq : x.1 = s.label.1
    · rw [hSame x hx hEq, Copies.add_self]
      simp [hNew, hGives]
    · rw [Copies.add_ne hEq, h.isSome_iff x hx, List.mem_cons, not_or]
      simp [hEq]
  case encode =>
    intro x hx c hc
    rcases Copies.add_eq_some hc with ⟨hEq, rfl⟩ | hOld
    · rwa [hSame x hx hEq]
    · exact h.encode x hx c hOld
  case fresh =>
    intro i c hc j hj
    rcases Copies.add_eq_some hc with ⟨-, rfl⟩ | hOld
    · exact hFresh j hj
    · exact h.fresh i c hOld j (List.mem_cons_of_mem _ hj)
  case collected =>
    intro q hq v hv hIsSome
    rcases Copies.isSome_add.1 hIsSome with hEq | hOld
    · have hvLabel := Tree.label_mem_toList
        (Tree.subtrees_trans hq (Forest.mem_subtrees_of_mem_trees hv))
      rw [hParent q hq v hv (hSame v.label hvLabel hEq)]
      exact List.mem_append_right _ (List.mem_singleton_self _)
    · exact List.mem_append_left _ (h.collected q hq v hv hOld)
  case parents =>
    intro p hp
    rcases List.mem_append.1 hp with hp | hp
    · obtain ⟨q, hq, hqp, v, hv, hIsSome⟩ := h.parents p hp
      exact ⟨q, hq, hqp, v, hv, Copies.isSome_add.2 (Or.inr hIsSome)⟩
    · refine ⟨r, hr, (List.mem_singleton.1 hp).symm, s, hs, ?_⟩
      exact Copies.isSome_add.2 (Or.inl rfl)

/-- A node that gives way is replaced by a copy, and its parent is collected. -/
theorem replace (h : Splicing t T R copies (s.label.1 :: pending) parents a)
    (hT : Replaceable t T R) (hr : r ∈ t.subtrees) (hs : s ∈ r.below.trees)
    (hGives : s.label.2.GivesWay T R) :
    ∃ (fresh : Arena) (copy : Tree (NodeId × Label)) (b : Arena),
      ofPhrase (.term R) s.label.2.position = .ok fresh ∧
      a.replaceSubtree s.label.1 fresh = .ok (copy.label.1, b) ∧
      (∃ n, a.get? s.label.1 = some n ∧ n.label = s.label.2 ∧ n.parent = some r.label.1) ∧
      Splicing t T R (copies.add s.label.1 copy) pending (parents ++ [r.label.1]) b := by
  obtain ⟨u, hRep, hu⟩ := h.represents
  have hsMem := Tree.subtrees_trans hr (Forest.mem_subtrees_of_mem_trees hs)
  have hPhrase := hGives.1
  have hNone : copies s.label.1 = none :=
    h.copies_eq_none (Tree.label_mem_toList hsMem) List.mem_cons_self
  have hsu : s ∈ u.subtrees := h.mem_subtrees hT hsMem hPhrase List.mem_cons_self hu
  have hru := h.mem_subtrees_parent hT hr hs hPhrase hu
  have hChild : s ∈ (r.below.splice copies).trees := by
    have hMem := Forest.mem_trees_splice hs hNone
    rwa [h.splice_below hT hsMem hPhrase] at hMem
  -- The fresh arena holds the replacement; a copy of its tree takes the place of the node.
  obtain ⟨tree, fresh, hFresh, hTree, hTreeRep⟩ :=
    ofPhrase_represents (.term R) s.label.2.position
  obtain ⟨copy, b, hReplace, hCopy, hb, hCopyIds, -⟩ := hRep.replaceSubtree hru hChild hTreeRep
  rw [hTree] at hCopy
  obtain ⟨n, hn, hParent⟩ := hRep.parent hru (Forest.mem_roots_of_mem_trees hChild)
  obtain ⟨q, hq⟩ := hRep.get? hsu
  obtain rfl : n = _ := Option.some.inj (hn.symm.trans hq)
  refine ⟨fresh, copy, b, hFresh, hReplace, ⟨_, hq, rfl, hParent⟩,
    h.add hT hr hs hGives hCopy ?outside ?unique ⟨_, hb, ?spliced⟩⟩
  case outside =>
    intro j hj
    obtain ⟨hIn, hOut⟩ := h.waiting_outside hT hsMem hPhrase hu hj
    exact hCopyIds j hIn hOut
  case unique =>
    intro q hq v hv hSame
    have hvu := h.mem_subtrees_parent hT hq hv (hSame ▸ hPhrase) hu
    have hRoot : s.label.1 ∈ (q.below.splice copies).roots :=
      Forest.mem_roots_splice (hSame ▸ Forest.mem_roots_of_mem_trees hv) hNone
    have hParents := hRep.parent_unique hvu hru hRoot (Forest.mem_roots_of_mem_trees hChild)
    exact hParents
  case spliced =>
    rw [Tree.toForest_exchange, hu]
    refine Forest.exchange_splice (t.ids_toForest.symm ▸ hT.nodup) hNone fun i c hc => ?_
    exact h.fresh i c hc _ List.mem_cons_self

end Splicing

/-! ## Replacing a list of nodes -/

/-- A node is passed over exactly when its label does not give way. -/
theorem skips_iff {l : Label} (h : l.phrase = .term T) :
    (l.position = some .definedClass ∧ ¬ R.classExpression?.any ClassExpression.isNamed) ↔
      ¬ l.GivesWay T R := by
  simp [Label.GivesWay, h]

theorem replaceAll_skip {n : Node} {ids : List NodeId} (hNode : a.get? id = some n)
    (hPhrase : n.label.phrase = .term T) (hNot : ¬ n.label.GivesWay T R) :
    (replaceAll T R (id :: ids) parents a).result = (replaceAll T R ids parents a).result := by
  rw [replaceAll, Run.result_bind, Run.result_liftM, node_eq_ok hNode, Run.ok_bind]
  dsimp only
  rw [if_pos ((skips_iff hPhrase).2 hNot), Run.result_bind, Run.result_report, Run.ok_bind]

theorem replaceAll_replace {n : Node} {ids : List NodeId} {fresh b : Arena} {copy parent : NodeId}
    (hNode : a.get? id = some n) (hGives : n.label.GivesWay T R)
    (hFresh : ofPhrase (.term R) n.label.position = .ok fresh)
    (hReplace : a.replaceSubtree id fresh = .ok (copy, b)) (hParent : n.parent = some parent) :
    (replaceAll T R (id :: ids) parents a).result =
      (replaceAll T R ids (parents ++ [parent]) b).result := by
  rw [replaceAll, Run.result_bind, Run.result_liftM, node_eq_ok hNode, Run.ok_bind]
  dsimp only
  rw [if_neg fun hSkip => (skips_iff hGives.1).1 hSkip hGives, Run.result_bind, Run.result_liftM,
    hFresh, Run.ok_bind, Run.result_bind, Run.result_liftM, hReplace, Run.ok_bind, hParent]

theorem replaceAll_root {n : Node} {fresh : Arena} {copy : NodeId} (parents : List NodeId)
    (hNode : a.get? id = some n) (hGives : n.label.GivesWay T R)
    (hFresh : ofPhrase (.term R) n.label.position = .ok fresh)
    (hReplace : a.replaceSubtree id fresh = .ok (copy, fresh)) (hParent : n.parent = none) :
    (replaceAll T R [id] parents a).result = .ok ⟨fresh, none⟩ := by
  rw [replaceAll, Run.result_bind, Run.result_liftM, node_eq_ok hNode, Run.ok_bind]
  dsimp only
  rw [if_neg fun hSkip => (skips_iff hGives.1).1 hSkip hGives, Run.result_bind, Run.result_liftM,
    hFresh, Run.ok_bind, Run.result_bind, Run.result_liftM, hReplace, Run.ok_bind, hParent]
  rfl

/-- Replacing a list of nodes replaces those that give way; other nodes may wait behind them. -/
theorem Splicing.replaceAll {nodes : List (NodeId × Label)} {rest : List NodeId}
    (h : Splicing t T R copies (nodes.map Prod.fst ++ rest) parents a) (hT : Replaceable t T R)
    (hNodes : ∀ x ∈ nodes, x ∈ t.toList) :
    ∃ copies' collected b,
      (Arena.replaceAll T R (nodes.map Prod.fst) parents a).result = .ok ⟨b, some collected⟩ ∧
      Splicing t T R copies' rest collected b ∧
      collected.length = parents.length + nodes.countP fun x => x.2.GivesWay T R := by
  induction nodes generalizing copies parents a with
  | nil => exact ⟨copies, parents, a, rfl, h, rfl⟩
  | cons x nodes ih =>
    have hx := hNodes x List.mem_cons_self
    have hRest := fun y hy => hNodes y (List.mem_cons_of_mem _ hy)
    rw [List.map_cons, List.cons_append] at h
    rw [List.map_cons]
    obtain ⟨s, hs, hId, hPhrase⟩ := h.target x.1 List.mem_cons_self
    obtain rfl : s.label = x :=
      List.inj_on_of_nodup_map hT.nodup (Tree.label_mem_toList hs) hx hId
    by_cases hGives : s.label.2.GivesWay T R
    · have hBelow : s ∈ t.below.subtrees := by
        rcases List.mem_cons.1 hs with rfl | hBelow
        · exact absurd hGives hT.root
        · exact hBelow
      obtain ⟨r, hr, hChild⟩ : ∃ r ∈ t.subtrees, s ∈ r.below.trees := by
        rcases Forest.mem_trees_or_child hBelow with hFirst | ⟨r, hr, hChild⟩
        · exact ⟨t, List.mem_cons_self, hFirst⟩
        · exact ⟨r, List.mem_cons_of_mem _ hr, hChild⟩
      obtain ⟨fresh, copy, b, hFresh, hReplace, ⟨n, hn, hLabel, hParent⟩, hNext⟩ :=
        h.replace hT hr hChild hGives
      obtain ⟨copies', collected, c, hRun, hEnd, hCount⟩ := ih hNext hRest
      refine ⟨copies', collected, c, ?_, hEnd, ?_⟩
      · rw [← hLabel] at hGives hFresh
        rw [replaceAll_replace hn hGives hFresh hReplace hParent, hRun]
      · rw [hCount, List.countP_cons_of_pos (by simpa using hGives), List.length_append,
          List.length_singleton]
        omega
    · obtain ⟨u, hRep, hu⟩ := h.represents
      obtain ⟨q, hq⟩ := hRep.get? (h.mem_subtrees hT hs hPhrase List.mem_cons_self hu)
      obtain ⟨copies', collected, b, hRun, hEnd, hCount⟩ :=
        ih (h.skip hT (l := s.label.2) hx hGives) hRest
      refine ⟨copies', collected, b, ?_, hEnd, ?_⟩
      · rw [replaceAll_skip hq hPhrase hGives, hRun]
      · rw [hCount, List.countP_cons_of_neg (by simpa using hGives)]

end Arena

end OntoFold
