import OntoFold.Proofs.Arena.Representation

/-!
# Removing trees

Vacating a tree frees the slots of all its nodes and touches no other slot. The traversal is
bounded by the number of links: a node that is vacated gives its links back.

* `Arena.vacate_tidy`: what vacating a tree does.
* `Arena.Represents.removeChild`: removing a child shortens the list of its parent.
-/

namespace OntoFold

namespace Forest

variable {α : Type u} {β : Type v} {f b r : Forest (NodeId × β)} {id j : NodeId}
  {gone : List NodeId}

theorem ids_eq_flatMap (f : Forest (NodeId × β)) : f.ids = f.trees.flatMap Tree.ids := by
  induction f with
  | nil => rfl
  | cons x b r _ ihRest => simp [trees, Tree.ids_eq, ihRest]

/-! ## Dropping first trees -/

/-- The forest without the first trees at some addresses. -/
def without (gone : List NodeId) : Forest (NodeId × β) → Forest (NodeId × β)
  | nil => nil
  | cons x below rest =>
    if x.1 ∈ gone then rest.without gone else cons x below (rest.without gone)

@[simp] theorem without_nil (f : Forest (NodeId × β)) : f.without [] = f := by
  induction f with
  | nil => rfl
  | cons x b r _ ihRest => rw [without, if_neg List.not_mem_nil, ihRest]

theorem without_without (f : Forest (NodeId × β)) (gone more : List NodeId) :
    (f.without gone).without more = f.without (gone ++ more) := by
  induction f with
  | nil => rfl
  | cons x b r _ ihRest =>
    by_cases hx : x.1 ∈ gone
    · rw [without, if_pos hx, ihRest, without, if_pos (List.mem_append_left _ hx)]
    · by_cases hMore : x.1 ∈ more
      · rw [without, if_neg hx, without, if_pos hMore, ihRest, without,
          if_pos (List.mem_append_right _ hMore)]
      · rw [without, if_neg hx, without, if_neg hMore, ihRest, without,
          if_neg fun hMem => (List.mem_append.1 hMem).elim hx hMore]

theorem without_of_not_mem (h : ∀ i ∈ gone, i ∉ f.roots) : f.without gone = f := by
  induction f with
  | nil => rfl
  | cons x b r _ ihRest =>
    have hx : x.1 ∉ gone := fun hMem => h _ hMem List.mem_cons_self
    rw [without, if_neg hx, ihRest fun i hi hMem => h i hi (List.mem_cons_of_mem _ hMem)]

theorem roots_without (f : Forest (NodeId × β)) (gone : List NodeId) :
    (f.without gone).roots = f.roots.filter fun i => decide (i ∉ gone) := by
  induction f with
  | nil => rfl
  | cons x b r _ ihRest =>
    by_cases hx : x.1 ∈ gone
    · rw [without, if_pos hx, ihRest, roots_cons, List.filter_cons_of_neg (by simpa using hx)]
    · rw [without, if_neg hx, roots_cons, ihRest, roots_cons,
        List.filter_cons_of_pos (by simpa using hx)]

/-- Dropping one first tree takes its addresses away. -/
theorem ids_without_singleton (h : f.ids.Nodup) {t : Tree (NodeId × β)} (ht : t ∈ f.trees) :
    f.ids.Perm (t.ids ++ (f.without [t.label.1]).ids) := by
  induction f with
  | nil => cases ht
  | cons x b r _ ihRest =>
    rw [ids_cons, List.nodup_cons, List.nodup_append] at h
    obtain ⟨hNew, -, hr, -⟩ := h
    rcases List.mem_cons.1 ht with rfl | ht
    · have hRest : ∀ i ∈ [x.1], i ∉ r.roots := by
        intro i hi hMem
        obtain rfl := List.mem_singleton.1 hi
        exact hNew (List.mem_append_right _ (mem_ids_of_mem_roots hMem))
      rw [without, if_pos (List.mem_singleton_self _), without_of_not_mem hRest, ids_cons,
        Tree.ids_eq, List.cons_append]
    · have hRoot : t.label.1 ∈ r.ids :=
        mem_ids_of_mem_subtrees (mem_subtrees_iff.2 ⟨t, ht, Or.inl rfl⟩)
      have hx : x.1 ∉ [t.label.1] := by
        intro hMem
        rw [List.mem_singleton.1 hMem] at hNew
        exact hNew (List.mem_append_right _ hRoot)
      rw [without, if_neg hx, ids_cons, ids_cons]
      refine (((ihRest hr ht).append_left b.ids).cons x.1).trans ?_
      refine .trans ?_ List.perm_middle.symm
      exact (List.perm_append_comm_assoc ..).cons _

end Forest

namespace Arena

variable {a b : Arena} {ids : List NodeId} {id : NodeId} {p : Option NodeId}
  {f : Forest (NodeId × Label)} {s t : Tree (NodeId × Label)}

/-! ## Links -/

/-- The number of links of a list of slots. -/
theorem linkCount_set {slots : List (Option Node)} {n : Node}
    (h : slots[id]? = some (some n)) :
    (slots.set id none).foldr (fun n total => (n.map fun n => n.children.length).getD 0 + total) 0
        + n.children.length =
      slots.foldr (fun n total => (n.map fun n => n.children.length).getD 0 + total) 0 := by
  induction slots generalizing id with
  | nil => cases h
  | cons m slots ih =>
    cases id with
    | zero =>
      obtain rfl : m = some n := by simpa using h
      simp only [List.set_cons_zero, List.foldr_cons, Option.map_none, Option.getD_none,
        Option.map_some, Option.getD_some]
      omega
    | succ id =>
      have := ih (by simpa using h)
      simp only [List.set_cons_succ, List.foldr_cons]
      omega

/-- A vacated node gives its links back. -/
theorem linkCount_vacateSlot {n : Node} (h : a.get? id = some n) :
    (a.vacateSlot id).linkCount + n.children.length = a.linkCount := by
  have hSlot : a.slots.toList[id]? = some (some n) := by
    rw [Array.getElem?_toList]
    exact Option.join_eq_some_iff.1 h
  rw [linkCount, linkCount, vacateSlot, setSlot, Array.toList_setIfInBounds]
  exact linkCount_set hSlot

/-! ## Vacating -/

theorem Holds.trees (h : a.Holds p f) (ht : t ∈ f.trees) : a.Holds p t.toForest := by
  induction f with
  | nil => cases ht
  | cons x below rest _ ihRest =>
    obtain ⟨hx, hBelow, hRest⟩ := h
    rcases List.mem_cons.1 ht with rfl | ht
    · exact ⟨hx, hBelow, trivial⟩
    · exact ihRest hRest ht

theorem Holds.without (h : a.Holds p f) (gone : List NodeId) : a.Holds p (f.without gone) := by
  induction f with
  | nil => trivial
  | cons x below rest _ ihRest =>
    obtain ⟨hx, hBelow, hRest⟩ := h
    rw [Forest.without]
    split
    · exact ihRest hRest
    · exact ⟨hx, hBelow, ihRest hRest⟩

/-- Vacating some trees, with enough fuel for their number and for all links. -/
theorem vacateAll_tidy {fuel : Nat} (ts : List (Tree (NodeId × Label)))
    (hFuel : ts.length + a.linkCount ≤ fuel) (h : a.Tidy (ts.flatMap Tree.ids ++ ids))
    (hTrees : ∀ t ∈ ts, ∃ p, a.Holds p t.toForest) :
    (vacateAll fuel (ts.map fun t => t.label.1) a).Tidy ids ∧
      (∀ j ∈ ids, (vacateAll fuel (ts.map fun t => t.label.1) a).get? j = a.get? j) ∧
      (vacateAll fuel (ts.map fun t => t.label.1) a).root = a.root := by
  induction fuel generalizing a ts with
  | zero =>
    obtain rfl : ts = [] := List.length_eq_zero_iff.1 (by omega)
    exact ⟨by simpa [vacateAll] using h, fun _ _ => rfl, rfl⟩
  | succ fuel ih =>
    cases ts with
    | nil => exact ⟨by simpa [vacateAll] using h, fun _ _ => rfl, rfl⟩
    | cons t ts =>
      obtain ⟨p, hHolds⟩ := hTrees t List.mem_cons_self
      obtain ⟨hGet, hBelow, -⟩ := hHolds
      have hTidy : (a.vacateSlot t.label.1).Tidy
          ((t.below.trees.reverse ++ ts).flatMap Tree.ids ++ ids) := by
        refine Tidy.vacateSlot (h.perm ?_)
        rw [List.flatMap_cons, Tree.ids_eq, List.flatMap_append, Forest.ids_eq_flatMap]
        simp only [List.cons_append]
        exact (((List.reverse_perm _).symm.flatMap_right _).append_right _).append_right _
          |>.cons _
      -- The trees that remain to be vacated do not contain the vacated address.
      have hOther : ∀ j ∈ (t.below.trees.reverse ++ ts).flatMap Tree.ids ++ ids,
          (a.vacateSlot t.label.1).get? j = a.get? j := fun j hj =>
        get?_vacateSlot_ne fun hEq => by
          rw [hEq] at hj
          obtain ⟨n, hn⟩ := hTidy.get?_of_mem hj
          rw [get?_vacateSlot_self] at hn
          cases hn
      have hTrees' : ∀ u ∈ t.below.trees.reverse ++ ts,
          ∃ p, (a.vacateSlot t.label.1).Holds p u.toForest := by
        intro u hu
        have hKeep : ∀ q, a.Holds q u.toForest →
            (a.vacateSlot t.label.1).Holds q u.toForest := fun q hq =>
          hq.congr fun j hj => hOther j (List.mem_append_left _
            (List.mem_flatMap.2 ⟨u, hu, u.ids_toForest ▸ hj⟩))
        rcases List.mem_append.1 hu with hu | hu
        · exact ⟨_, hKeep _ (hBelow.trees (List.mem_reverse.1 hu))⟩
        · obtain ⟨q, hq⟩ := hTrees u (List.mem_cons_of_mem _ hu)
          exact ⟨q, hKeep q hq⟩
      have hLinks := linkCount_vacateSlot hGet
      have hLength : t.below.roots.length = t.below.trees.length := by
        rw [Forest.roots_eq, List.length_map]
      have hStep : vacateAll (fuel + 1) ((t :: ts).map fun t => t.label.1) a =
          vacateAll fuel ((t.below.trees.reverse ++ ts).map fun t => t.label.1)
            (a.vacateSlot t.label.1) := by
        rw [List.map_cons, vacateAll]
        simp only [hGet]
        rw [List.map_append, List.map_reverse, ← Forest.roots_eq]
        rfl
      obtain ⟨hTidyEnd, hGetEnd, hRootEnd⟩ := ih _ (by
        simp only [List.length_append, List.length_reverse, List.length_cons] at hFuel hLinks ⊢
        omega) hTidy hTrees'
      rw [hStep]
      refine ⟨hTidyEnd, fun j hj => ?_, hRootEnd⟩
      rw [hGetEnd j hj, hOther j (List.mem_append_right _ hj)]

/-- Vacating a tree frees its slots and no others. -/
theorem vacate_tidy (h : a.Tidy (t.ids ++ ids)) (hHolds : a.Holds p t.toForest) :
    (a.vacate t.label.1).Tidy ids ∧ (∀ j ∈ ids, (a.vacate t.label.1).get? j = a.get? j) ∧
      (a.vacate t.label.1).root = a.root :=
  vacateAll_tidy [t] (by simp [Nat.add_comm]) (by simpa using h) fun u hu => by
    obtain rfl := List.mem_singleton.1 hu
    exact ⟨p, hHolds⟩

/-! ## Changing a node -/

namespace Represents

/-- An arena represents a tree after a change of one node and of what is below it. -/
theorem update {l : Label} {below : Forest (NodeId × Label)} (h : a.Represents t)
    (hs : s ∈ t.subtrees)
    (hGet : b.get? s.label.1 = (a.get? s.label.1).map fun n => ⟨l, n.parent, below.roots⟩)
    (hBelow : b.Holds (some s.label.1) below)
    (hOther : ∀ j ∈ t.ids, j ∉ s.ids → b.get? j = a.get? j) (hRoot : b.root = a.root)
    (hTidy : b.Tidy (t.exchange s.label.1 ⟨(s.label.1, l), below⟩).ids) :
    b.Represents (t.exchange s.label.1 ⟨(s.label.1, l), below⟩) := by
  obtain ⟨q, hq⟩ := h.get? hs
  refine h.exchange hs ⟨_, hq, rfl⟩ ⟨?_, hBelow, trivial⟩ ?_ ?_ hTidy
  · rw [hGet, hq]
    rfl
  · intro j hj hOut n hn
    have hSame : (fun c => if c = s.label.1 then s.label.1 else c) = id := by
      funext c
      by_cases hc : c = s.label.1
      · rw [if_pos hc, hc, id]
      · rw [if_neg hc, id]
    rw [hOther j hj hOut, hn, hSame, List.map_id]
  · rw [hRoot, h.root]
    exact (Tree.exchange_root (t := t) (s := ⟨(s.label.1, l), below⟩) rfl).symm

/-- Changing the label of a node. -/
theorem relabel (h : a.Represents t) (hs : s ∈ t.subtrees) (f : Label → Label) :
    ∃ b, a.modify s.label.1 (fun n => { n with label := f n.label }) = .ok b ∧
      b.Represents (t.exchange s.label.1 ⟨(s.label.1, f s.label.2), s.below⟩) := by
  obtain ⟨q, hq⟩ := h.get? hs
  have hMem := h.tidy.mem_of_get? hq
  refine ⟨_, modify_eq_ok hq _, h.update hs ?_ ?_ (fun j _ hj => ?_) rfl ?_⟩
  · rw [get?_setSlot_self (h.tidy.lt_size hMem), hq]
    rfl
  · refine (h.holds_below hs).congr fun j hj => get?_setSlot_ne fun hEq => ?_
    exact h.not_mem_below hs (hEq ▸ hj)
  · exact get?_setSlot_ne fun hEq => hj (hEq ▸ List.mem_cons_self)
  · obtain ⟨others, hOld, hNew⟩ := Tree.ids_exchange
      (s := ⟨(s.label.1, f s.label.2), s.below⟩) h.nodup hs
    exact (h.tidy.setSlot hMem _).perm (hOld.trans hNew.symm)

/-- Changing the phrase of a node. -/
theorem setPhrase (h : a.Represents t) (hs : s ∈ t.subtrees) (phrase : Phrase) :
    ∃ b, a.setPhrase s.label.1 phrase = .ok b ∧ b.Represents (t.exchange s.label.1
      ⟨(s.label.1, { s.label.2 with phrase := phrase }), s.below⟩) :=
  h.relabel hs fun l => { l with phrase := phrase }

/-- Changing the position of a node. -/
theorem setPosition (h : a.Represents t) (hs : s ∈ t.subtrees) (position : Option Position) :
    ∃ b, a.setPosition s.label.1 position = .ok b ∧ b.Represents (t.exchange s.label.1
      ⟨(s.label.1, { s.label.2 with position := position }), s.below⟩) :=
  h.relabel hs fun l => { l with position := position }

/-- Removing a child of a node. -/
theorem removeChild (h : a.Represents t) (hs : s ∈ t.subtrees) (hId : id ∈ s.below.roots) :
    ∃ b, a.removeChild id = .ok b ∧
      b.Represents (t.exchange s.label.1 ⟨s.label, s.below.without [id]⟩) := by
  obtain ⟨q, hq⟩ := h.get? hs
  obtain ⟨n, hn, hParent⟩ := h.parent hs hId
  obtain ⟨u, hu, rfl⟩ := Forest.mem_trees_of_mem_roots hId
  obtain ⟨others, hOld, hNew⟩ :=
    Tree.ids_exchange (s := ⟨s.label, s.below.without [u.label.1]⟩) h.nodup hs
  have hIds := Forest.ids_without_singleton (h.nodup_below hs) hu
  -- The arena in which the parent has forgotten the child.
  have hMem := h.tidy.mem_of_get? hq
  have hChildren : s.below.roots.filter (fun c => decide (c ≠ u.label.1)) =
      (s.below.without [u.label.1]).roots := by
    rw [Forest.roots_without]
    simp only [List.mem_singleton]
  obtain ⟨c, hc, hcModify⟩ : ∃ c, c = a.setSlot s.label.1
      (some ⟨s.label.2, q, (s.below.without [u.label.1]).roots⟩) ∧
      a.modify s.label.1 (fun n => { n with children := n.children.filter (· ≠ u.label.1) }) =
        .ok c := by
    refine ⟨_, rfl, ?_⟩
    rw [modify_eq_ok hq, hChildren]
  have hcGet : ∀ j, j ≠ s.label.1 → c.get? j = a.get? j := fun j hj => hc ▸ get?_setSlot_ne hj
  have hcTidy : c.Tidy (u.ids ++ (s.label.1 :: (s.below.without [u.label.1]).ids ++ others)) := by
    refine (hc ▸ h.tidy.setSlot hMem _ : c.Tidy t.ids).perm (hOld.trans ?_)
    refine ((hIds.cons _).append_right _).trans ?_
    rw [← List.append_assoc]
    exact (List.perm_middle.symm.append_right _)
  have hcHolds : c.Holds (some s.label.1) u.toForest := by
    refine ((h.holds_below hs).trees hu).congr fun j hj => hcGet j fun hEq => ?_
    refine h.not_mem_below hs (hIds.mem_iff.2 (List.mem_append_left _ ?_))
    rwa [hEq, u.ids_toForest] at hj
  obtain ⟨hTidy, hGet, hRoot⟩ := vacate_tidy hcTidy hcHolds
  refine ⟨c.vacate u.label.1, ?_, h.update hs ?_ ?_ (fun j hj hOut => ?_) ?_ ?_⟩
  · simp only [Arena.removeChild, node_eq_ok hn, bind, Except.bind, hParent, hcModify]
    rfl
  · rw [hGet _ (by simp), hc, get?_setSlot_self (h.tidy.lt_size hMem), hq]
    rfl
  · refine ((h.holds_below hs).without _).congr fun j hj => ?_
    have hne : j ≠ s.label.1 := fun hEq =>
      h.not_mem_below hs (hIds.mem_iff.2 (List.mem_append_right _ (hEq ▸ hj)))
    rw [hGet j (List.mem_append_left _ (List.mem_cons_of_mem _ hj)), hcGet j hne]
  · have hMemOthers : j ∈ others := by
      rcases List.mem_append.1 (hOld.mem_iff.1 hj) with hIn | hIn
      · exact absurd hIn hOut
      · exact hIn
    rw [hGet j (List.mem_append_right _ hMemOthers), hcGet j fun hEq =>
      hOut (hEq ▸ List.mem_cons_self)]
  · rw [hRoot, hc]
    rfl
  · exact hTidy.perm hNew.symm

/-- Removing several children of a node. -/
theorem removeChildren (h : a.Represents t) (hs : s ∈ t.subtrees) {gone : List NodeId}
    (hNodup : gone.Nodup) (hGone : ∀ i ∈ gone, i ∈ s.below.roots) :
    ∃ b, gone.foldlM Arena.removeChild a = .ok b ∧
      b.Represents (t.exchange s.label.1 ⟨s.label, s.below.without gone⟩) := by
  induction gone generalizing a s t with
  | nil =>
    refine ⟨a, rfl, ?_⟩
    rw [Forest.without_nil, Tree.exchange_self h.nodup hs]
    exact h
  | cons i gone ih =>
    obtain ⟨hNew, hGoneNodup⟩ := List.nodup_cons.1 hNodup
    obtain ⟨b, hRemove, hb⟩ := h.removeChild hs (hGone i List.mem_cons_self)
    have hRoots : ∀ j ∈ gone, j ∈ (s.below.without [i]).roots := by
      intro j hj
      rw [Forest.roots_without, List.mem_filter]
      refine ⟨hGone j (List.mem_cons_of_mem _ hj), decide_eq_true fun hMem => ?_⟩
      exact hNew (List.mem_singleton.1 hMem ▸ hj)
    obtain ⟨c, hRest, hc⟩ := ih hb (s := ⟨s.label, s.below.without [i]⟩) (Tree.mem_exchange hs)
      hGoneNodup hRoots
    refine ⟨c, ?_, ?_⟩
    · simp only [List.foldlM_cons, hRemove, bind, Except.bind, hRest]
    · have hTwice : (t.exchange s.label.1 ⟨s.label, s.below.without [i]⟩).exchange s.label.1
          ⟨s.label, (s.below.without [i]).without gone⟩ =
          t.exchange s.label.1 ⟨s.label, s.below.without (i :: gone)⟩ := by
        rw [Tree.exchange_exchange (i := s.label.1) (s := ⟨s.label, s.below.without [i]⟩) t _ rfl,
          Forest.without_without, List.singleton_append]
      exact hTwice ▸ hc

end Represents

end Arena

end OntoFold
