import OntoFold.Proofs.Rewriting.Replacing

/-!
# Substitution

Substituting one term for another in an arena that holds a faithful tree never fails: the nodes
that hold the term are not nested. Every tree is replaced, refreshed or left alone, and when a
class expression is substituted, the root ends up with the rewritten phrase.

* `Arena.Represents.substitute`: what holds in these three cases holds of the outcome.
* `Arena.Encodes.substitute`: one substitution of a class expression.
-/

namespace OntoFold

open ClassExpression (replacing)

namespace Tree

/-- Below the root of a faithful tree of a canonical phrase stand such trees. -/
theorem Faithful.subtree {s t : Tree (NodeId × Label)} (h : (t.map Prod.snd).Faithful)
    (hRoot : t.label.2.phrase.Canonical) (hs : s ∈ t.subtrees) :
    s.label.2.phrase.Canonical ∧ (s.map Prod.snd).Faithful := by
  have hMem := map_mem_subtrees Prod.snd hs
  exact ⟨h.canonical hRoot (label_mem_toList hMem), h.of_mem_subtrees hMem⟩

end Tree

namespace Arena

section Terms

variable {a : Arena} {t : Tree (NodeId × Label)} {T R : Term}

/-! ## Reading the tree -/

/-- The nodes that hold a term. -/
def holders (t : Tree (NodeId × Label)) (T : Term) : List (NodeId × Label) :=
  t.toList.filter fun x => decide (x.2.phrase = .term T)

/-- What a substitution does, once the tree has been read. -/
theorem substitute_result (hCategory : T.sameCategory R = true) (h : a.addressed = .ok t) :
    (a.substitute T R).result =
      if (holders t T).isEmpty then .ok (0, a)
      else (replaceAll T R ((holders t T).map Prod.fst) [] a).result >>= fun replaced =>
          match replaced.parents with
          | none => .ok (1, replaced.arena)
          | some parents => do return (parents.length, ← replaced.arena.refreshAbove parents) := by
  rw [Arena.substitute, hCategory]
  simp only [Bool.not_true, Bool.false_eq_true, if_false]
  rw [Run.result_bind, Run.result_liftM, h, Run.ok_bind, List.isEmpty_map]
  change (if (holders t T).isEmpty = true then _ else _ : Run (Nat × Arena)).result = _
  split
  · rfl
  · rw [Run.result_bind]
    refine congrArg _ (funext fun replaced => ?_)
    rcases replaced with ⟨b, _ | parents⟩
    · rfl
    · simp only [Run.result_bind, Run.result_liftM]
      rfl

/-- Terms of different categories are not exchanged. -/
theorem substitute_refused (hCategory : T.sameCategory R = false) :
    (a.substitute T R).result = .ok (0, a) := by
  rw [Arena.substitute, hCategory]
  rfl

theorem mem_holders {x : NodeId × Label} :
    x ∈ holders t T ↔ x ∈ t.toList ∧ x.2.phrase = .term T := by
  rw [holders, List.mem_filter, decide_eq_true_iff]

/-- The replaced positions are among the nodes that hold the target. -/
theorem countP_holders : ((holders t T).countP fun x => x.2.GivesWay T R) =
    t.toList.countP fun x => x.2.GivesWay T R := by
  rw [holders, List.countP_filter]
  refine List.countP_congr fun x _ => ?_
  rw [Bool.and_eq_true, decide_eq_true_iff, decide_eq_true_iff]
  exact ⟨And.left, fun hGives => ⟨hGives, hGives.1⟩⟩

/-- In a faithful tree what stands below a node is smaller than what the node holds. -/
theorem separate_of_faithful (hFaithful : (t.map Prod.snd).Faithful) : Separate T t := by
  intro s hs hPhrase x hx hEq
  have hLt := (hFaithful.of_mem_subtrees (Tree.map_mem_subtrees Prod.snd hs)).size_lt (l := x.2) (by
    rw [Tree.below_map, Forest.toList_map]
    exact List.mem_map_of_mem hx)
  rw [Tree.label_map, hPhrase, hEq] at hLt
  exact Nat.lt_irrefl _ hLt

/-- When the root holds the target, no other node does. -/
theorem holders_root (hFaithful : (t.map Prod.snd).Faithful)
    (hPhrase : t.label.2.phrase = .term T) : holders t T = [t.label] := by
  have hBelow := separate_of_faithful hFaithful (T := T) t List.mem_cons_self hPhrase
  have hNone : t.below.toList.filter (fun x => decide (x.2.phrase = .term T)) = [] :=
    List.filter_eq_nil_iff.2 fun x hx => by simpa using hBelow x hx
  rw [holders, Tree.toList, List.filter_cons_of_pos (by simpa using hPhrase), hNone]

/-! ## Replacing and refreshing -/

/-- Before the first replacement. -/
theorem splicing_start (hRep : a.Represents t) :
    Splicing t T R (fun _ => none) ((holders t T).map Prod.fst) [] a where
  nodup := hRep.nodup.sublist ((List.filter_sublist ..).map Prod.fst)
  target j hj := by
    obtain ⟨x, hx, rfl⟩ := List.mem_map.1 hj
    obtain ⟨hMem, hPhrase⟩ := mem_holders.1 hx
    obtain ⟨s, hs, rfl⟩ := Tree.exists_subtree_of_mem hMem
    exact ⟨s, hs, rfl, hPhrase⟩
  represents := ⟨t, hRep, (Forest.splice_none _).symm⟩
  isSome_iff x hx := by
    refine iff_of_false Bool.false_ne_true fun ⟨hGives, hNew⟩ => hNew ?_
    exact List.mem_map_of_mem (mem_holders.2 ⟨hx, hGives.1⟩)
  encode _ _ _ hc := by cases hc
  fresh _ _ hc := by cases hc
  collected _ _ _ _ hSome := by cases hSome
  parents p hp := by cases hp

namespace Splicing

variable {copies : Copies} {collected : List NodeId} {u : Tree (NodeId × Label)}

/-- The collected parents are in use. -/
theorem collected_mem_ids (h : Splicing t T R copies [] collected a) (hT : Replaceable t T R)
    (hu : u.toForest = t.toForest.splice copies) : ∀ p ∈ collected, p ∈ u.ids := by
  intro p hp
  obtain ⟨r, hr, rfl, s, hs, hSome⟩ := h.parents p hp
  have hsMem := Tree.subtrees_trans hr (Forest.mem_subtrees_of_mem_trees hs)
  have hPhrase := h.phrase_of_isSome (Tree.label_mem_toList hsMem) hSome
  have hStay := Tree.mem_ids_of_mem_subtrees (h.mem_subtrees_parent hT hr hs hPhrase hu)
  exact hStay

theorem replaces (h : Splicing t T R copies [] collected a) :
    Forest.Replaces copies T R t.toForest where
  isSome_iff x hx := by
    rw [h.isSome_iff x (Tree.toList_toForest t ▸ hx)]
    exact and_iff_left List.not_mem_nil
  encode x hx := h.encode x (Tree.toList_toForest t ▸ hx)

/-- Whatever stands above a replaced node belongs to a set that covers the collected parents. -/
theorem mem_of_covers (h : Splicing t T R copies [] collected a) (hT : Replaceable t T R)
    (hu : u.toForest = t.toForest.splice copies) {stale : SortedSet NodeId}
    (hCovers : u.Covers collected stale) {s : Tree (NodeId × Label)} (hs : s ∈ t.subtrees)
    (hNot : ¬ s.label.2.GivesWay T R) {x : NodeId × Label} (hx : x ∈ s.below.toList)
    (hGives : x.2.GivesWay T R) : s.label.1 ∈ stale := by
  obtain ⟨below, hv⟩ := Forest.mem_toList_iff.1 hx
  have hvMem := Tree.subtrees_trans hs hv
  have hAbove : ∀ q ∈ t.subtrees, x.1 ∈ q.below.ids → copies q.label.1 = none :=
    fun q hq hId => h.above_eq_none hT hvMem hGives.1 hq hId
  have hCopied : (copies x.1).isSome :=
    (h.isSome_iff x (Tree.label_mem_toList hvMem)).2 ⟨hGives, List.not_mem_nil⟩
  have hNone : copies s.label.1 = none := by
    rw [← Option.not_isSome_iff_eq_none, h.isSome_iff _ (Tree.label_mem_toList hs)]
    exact fun hSome => hNot hSome.1
  rcases Forest.mem_trees_or_child hv with hChild | ⟨r, hr, hChild⟩
  · exact hCovers.mem _ (h.collected s hs _ hChild hCopied)
  · -- The parent of the replaced node stands below, and the set is closed upwards.
    have hrStale : r.label.1 ∈ stale :=
      hCovers.mem _ (h.collected r (Tree.subtrees_trans hs hr) _ hChild hCopied)
    have hxBelow : x.1 ∈ r.below.ids := Forest.mem_ids_of_mem_trees hChild List.mem_cons_self
    have hsStay : ⟨s.label, s.below.splice copies⟩ ∈ u.subtrees := by
      rw [← Tree.subtrees_toForest, hu]
      refine Forest.mem_subtrees_splice (t.subtrees_toForest.symm ▸ hs) hNone fun q hq hId => ?_
      rw [Tree.subtrees_toForest] at hq
      exact hAbove q hq (Forest.mem_ids_of_mem_subtrees (s := ⟨x, below⟩)
        (Forest.subtrees_trans (hT.mem_below hq hs hId) hv))
    have hrStay : ⟨r.label, r.below.splice copies⟩ ∈ (s.below.splice copies).subtrees := by
      refine Forest.mem_subtrees_splice hr (hAbove r (Tree.subtrees_trans hs hr) hxBelow) ?_
      intro q hq hId
      have hqMem := Tree.subtrees_trans hs hq
      have hrq := hT.mem_below hqMem (Tree.subtrees_trans hs hr) hId
      exact hAbove q hqMem (Forest.mem_ids_of_mem_below hrq hxBelow)
    have hrIds : r.label.1 ∈ (s.below.splice copies).ids := by
      have hIn := Forest.mem_ids_of_mem_subtrees hrStay
      exact hIn
    obtain ⟨i, hi, hiStale⟩ := Forest.exists_root_of_closed
      (fun q hq i hi => hCovers.upwards q (Tree.subtrees_trans hsStay hq) i hi) hrIds hrStale
    have hParent := hCovers.upwards _ hsStay i hi hiStale
    exact hParent

/-- Refreshing above the collected parents is one traversal, and it comes by whatever stands above
a replaced node. -/
theorem refreshAbove (h : Splicing t T R copies [] collected a) (hT : Replaceable t T R) :
    ∃ (u : Tree (NodeId × Label)) (stale : List NodeId) (b : Arena),
      u.toForest = t.toForest.splice copies ∧ a.refreshAbove collected = .ok b ∧
      b.Represents (u.refreshAll stale) ∧ ∀ s ∈ t.subtrees, ¬ s.label.2.GivesWay T R →
        (∃ x ∈ s.below.toList, x.2.GivesWay T R) → s.label.1 ∈ stale := by
  obtain ⟨u, hRep, hu⟩ := h.represents
  obtain ⟨stale, hClosure, hCovers⟩ := hRep.upwardClosure (h.collected_mem_ids hT hu)
  obtain ⟨order, hOrder, hNodup, hMem, hBottomUp⟩ := hRep.deepestFirst hCovers.subset
  obtain ⟨b, hRun, hb⟩ := hRep.foldlM_refresh hNodup
    (fun i hi => hCovers.subset i ((hMem i).1 hi)) hBottomUp
  refine ⟨u, order, b, hu, ?_, hb, fun s hs hNot ⟨x, hx, hGives⟩ => (hMem _).2 ?_⟩
  · rw [Arena.refreshAbove, hClosure, Run.ok_bind, hOrder, Run.ok_bind, hRun]
  · exact h.mem_of_covers hT hu hCovers hs hNot hx hGives

end Splicing

/-! ## The outcome -/

section Outcome

variable (hRep : a.Represents t) (hFaithful : (t.map Prod.snd).Faithful)

include hRep hFaithful

/-- A node that waits for its turn is in use and holds what it held. -/
theorem Represents.get?_at_turn {done rest : List (NodeId × Label)} {x : NodeId × Label}
    (hHolders : holders t T = done ++ x :: rest) :
    ∃ b parents, (replaceAll T R (done.map Prod.fst) [] a).result = .ok ⟨b, some parents⟩ ∧
      ∃ n, b.get? x.1 = some n ∧ n.label = x.2 := by
  have hAll : ∀ y ∈ done ++ x :: rest, y ∈ t.toList ∧ y.2.phrase = .term T := fun y hy =>
    mem_holders.1 (hHolders ▸ hy)
  obtain ⟨hx, hPhrase⟩ := hAll x (List.mem_append_right _ List.mem_cons_self)
  obtain ⟨s, hs, rfl⟩ := Tree.exists_subtree_of_mem hx
  by_cases hRoot : t.label.2.GivesWay T R
  · -- The root is the only node that holds the target, and its turn comes first.
    rw [holders_root hFaithful hRoot.1] at hHolders
    obtain rfl : done = [] := by
      cases done with
      | nil => rfl
      | cons y done => simp at hHolders
    obtain ⟨q, hq⟩ := hRep.get? hs
    exact ⟨a, [], rfl, _, hq, rfl⟩
  · have hT : Replaceable t T R := ⟨hRep.nodup, separate_of_faithful hFaithful, hRoot⟩
    have hStart := splicing_start (T := T) (R := R) hRep
    rw [hHolders, List.map_append, List.map_cons] at hStart
    obtain ⟨copies, parents, b, hRun, hEnd, -⟩ := hStart.replaceAll hT fun y hy =>
      (hAll y (List.mem_append_left _ hy)).1
    obtain ⟨u, hb, hu⟩ := hEnd.represents
    obtain ⟨q, hq⟩ := hb.get? (hEnd.mem_subtrees hT hs hPhrase List.mem_cons_self hu)
    exact ⟨b, parents, hRun, _, hq, rfl⟩

/-- A substitution never fails. What holds of a tree and the copy it gives way to, of a tree and
the refreshed tree above children for which it holds, and of an untouched tree and itself, holds of
the whole tree and what becomes of it. -/
theorem Represents.substitute {P : Tree (NodeId × Label) → Tree (NodeId × Label) → Prop}
    (hCanonical : t.label.2.phrase.Canonical) (hR : R.Canonical)
    (hCategory : T.sameCategory R = true)
    (hCopy : ∀ s ∈ t.subtrees, s.label.2.GivesWay T R → ∀ c : Tree (NodeId × Label),
      c.map Prod.snd = Label.encode ⟨.term R, s.label.2.position⟩ → P s c)
    (hRefreshed : ∀ s ∈ t.subtrees, ¬ s.label.2.GivesWay T R → ∀ c : Forest (NodeId × Label),
      List.Forall₂ P s.below.trees c.trees → P s (Tree.refreshed ⟨s.label, c⟩))
    (hKept : ∀ s ∈ t.subtrees, (∀ x ∈ s.toList, ¬ x.2.GivesWay T R) → P s s) :
    ∃ b u, (a.substitute T R).result = .ok (t.toList.countP fun x => x.2.GivesWay T R, b) ∧
      b.Represents u ∧ P t u := by
  rw [substitute_result hCategory hRep.addressed, ← countP_holders]
  by_cases hEmpty : (holders t T).isEmpty = true
  · have hNil := List.isEmpty_iff.1 hEmpty
    refine ⟨a, t, by rw [if_pos hEmpty, hNil, List.countP_nil], hRep, hKept t List.mem_cons_self ?_⟩
    intro x hx hGives
    have hIn := mem_holders.2 ⟨hx, hGives.1⟩
    rw [hNil] at hIn
    cases hIn
  rw [if_neg hEmpty]
  by_cases hRoot : t.label.2.GivesWay T R
  · obtain ⟨u, fresh, hFresh, hu, hFreshRep⟩ := ofPhrase_represents (.term R) t.label.2.position
    have hRun := replaceAll_root [] hRep.get?_root hRoot hFresh (hRep.replaceSubtree_root fresh) rfl
    refine ⟨fresh, u, ?_, hFreshRep, hCopy t List.mem_cons_self hRoot u hu⟩
    rw [holders_root hFaithful hRoot.1, List.map_singleton, hRun, List.countP_singleton,
      if_pos (by simpa using hRoot)]
    rfl
  · have hT : Replaceable t T R := ⟨hRep.nodup, separate_of_faithful hFaithful, hRoot⟩
    have hStart := splicing_start (T := T) (R := R) hRep
    rw [← List.append_nil ((holders t T).map Prod.fst)] at hStart
    obtain ⟨copies, collected, b, hRun, hEnd, hCount⟩ := hStart.replaceAll hT
      fun x hx => (mem_holders.1 hx).1
    obtain ⟨u, stale, c, hu, hRefresh, hc, hStale⟩ := hEnd.refreshAbove hT
    have hForest : (t.toForest.map Prod.snd).Canonical := fun l hl =>
      hFaithful.canonical hCanonical (Tree.toList_toForest (t.map Prod.snd) ▸ hl)
    rw [← Tree.subtrees_toForest] at hCopy hRefreshed hKept hStale
    have hTrees := Forest.refreshAll_splice hR hEnd.replaces (Tree.faithful_toForest.2 hFaithful)
      hForest hStale hCopy hRefreshed hKept
    rw [← hu, ← Tree.toForest_refreshAll] at hTrees
    refine ⟨c, u.refreshAll stale, ?_, hc, (List.forall₂_cons.1 hTrees).1⟩
    rw [hRun, Run.ok_bind]
    dsimp only
    rw [hRefresh, Run.ok_bind, hCount, List.length_nil, Nat.zero_add]
    rfl

end Outcome

end Terms

end Arena

/-! ## Class expressions -/

section Classes

variable {T R : ClassExpression} {l : Label}

/-- The number of positions of a label that hold the target. Where a class is defined the target
counts only if the replacement is a name. -/
def Label.occurrences (T R : ClassExpression) (l : Label) : Nat :=
  l.encode.toList.countP fun m =>
    m.phrase = .ofClass T ∧ (m.position = some .definedClass → R.isNamed)

theorem Label.replacement?_of_givesWay (h : l.GivesWay (.classExpression T) (.classExpression R)) :
    l.replacement? (replacing T R) = some R := by
  have hClass : l.phrase.class? = some T := by
    rw [h.1]
    rfl
  have hReplacing : replacing T R T = some R := if_pos rfl
  rw [replacement?, hClass, Option.bind_some, hReplacing]
  split
  · next hPosition => exact Option.filter_eq_some_iff.2 ⟨rfl, h.2 hPosition⟩
  · rfl

theorem Label.replacement?_of_not_givesWay
    (h : ¬ l.GivesWay (.classExpression T) (.classExpression R)) :
    l.replacement? (replacing T R) = none := by
  apply Option.eq_none_iff_forall_ne_some.2
  intro r hr
  obtain ⟨e, hPhrase, hReplacing⟩ := Label.replacement?_eq_some hr
  obtain ⟨rfl, rfl⟩ := ClassExpression.replacing_eq_some.1 hReplacing
  refine h ⟨hPhrase, fun hPosition => ?_⟩
  obtain ⟨e', -, hFilter⟩ := Option.bind_eq_some_iff.1 hr
  rw [if_pos hPosition] at hFilter
  exact (Option.filter_eq_some_iff.1 hFilter).2

/-- Labels of a faithful forest in which nothing has a replacement are left alone. -/
theorem Forest.rewrite_heads_eq_self {σ : ClassExpression → Option ClassExpression}
    (hσ : ∀ e r, σ e = some r → r.Canonical) {f : Forest Label} (h : f.Faithful)
    (hCanonical : f.Canonical) (hNone : ∀ l ∈ f.toList, l.replacement? σ = none) :
    ∀ l ∈ f.heads, l.rewrite σ = l := by
  induction f with
  | nil => exact fun l hl => absurd hl List.not_mem_nil
  | cons l b r ihBelow ihRest =>
    obtain ⟨hMade, hBelow, hRest⟩ := faithful_cons.1 h
    obtain ⟨hl, hb, hr⟩ := canonical_cons.1 hCanonical
    simp only [toList_cons, List.mem_cons, List.mem_append] at hNone
    have hPhrase : l.phrase.rewriteBelow σ = l.phrase :=
      Phrase.rewriteBelow_eq_self hσ hl hMade
        (ihBelow hBelow hb fun l hl => hNone l (Or.inr (Or.inl hl)))
    intro m hm
    rcases List.mem_cons.1 hm with rfl | hm
    · rw [Label.rewrite_of_eq_none (hNone m (Or.inl rfl)), hPhrase]
    · exact ihRest hRest hr (fun l hl => hNone l (Or.inr (Or.inr hl))) m hm

/-- Where nothing gives way, nothing is rewritten. -/
theorem Tree.rewrite_label_eq_self {t : Tree Label} (hFaithful : t.Faithful)
    (hCanonical : t.label.phrase.Canonical) (hR : R.Canonical)
    (h : ∀ m ∈ t.toList, ¬ m.GivesWay (.classExpression T) (.classExpression R)) :
    t.label.rewrite (replacing T R) = t.label := by
  have hForest : t.toForest.Canonical := fun m hm =>
    hFaithful.canonical hCanonical (toList_toForest t ▸ hm)
  refine Forest.rewrite_heads_eq_self (ClassExpression.canonical_of_replacing hR)
    (faithful_toForest.2 hFaithful) hForest (fun m hm => ?_) _ List.mem_cons_self
  exact Label.replacement?_of_not_givesWay (h m (toList_toForest t ▸ hm))

/-- Without an occurrence nothing is rewritten. -/
theorem Label.rewrite_eq_self_of_occurrences (hl : l.phrase.Canonical) (hR : R.Canonical)
    (h : l.occurrences T R = 0) : l.rewrite (replacing T R) = l :=
  Tree.rewrite_label_eq_self (t := l.encode) (Tree.faithful_encode l) hl hR fun m hm hGives =>
    List.countP_eq_zero.1 h m hm (decide_eq_true hGives)

namespace Arena

variable {a : Arena} {t : Tree (NodeId × Label)}

/-- A faithful tree has as many replaced positions as its root label. -/
theorem occurrences_eq (hFaithful : (t.map Prod.snd).Faithful) :
    t.label.2.occurrences T R =
      t.toList.countP fun x => x.2.GivesWay (.classExpression T) (.classExpression R) := by
  have hPerm := hFaithful.sameUpToOrder.toList_perm
  rw [Tree.toList_map, Tree.label_map] at hPerm
  rw [Label.occurrences, ← hPerm.countP_eq, List.countP_map]
  rfl

/-- A refreshed node above rewritten children is rewritten. -/
theorem rewritten_refreshed {s : Tree (NodeId × Label)} (hR : R.Canonical)
    (hs : s.label.2.phrase.Canonical) (hFaithful : (s.map Prod.snd).Faithful)
    (hNot : ¬ s.label.2.GivesWay (.classExpression T) (.classExpression R))
    {c : Forest (NodeId × Label)}
    (hc : List.Forall₂ (fun s c => (c.map Prod.snd).Faithful ∧
      c.label.2 = s.label.2.rewrite (replacing T R)) s.below.trees c.trees) :
    ((Tree.refreshed ⟨s.label, c⟩).map Prod.snd).Faithful ∧
      (Tree.refreshed ⟨s.label, c⟩).label.2 = s.label.2.rewrite (replacing T R) := by
  have hσ : ∀ e r, replacing T R e = some r → r.Canonical :=
    ClassExpression.canonical_of_replacing hR
  obtain ⟨hEach, hEqual⟩ : (∀ u ∈ c.trees, (u.map Prod.snd).Faithful) ∧
      List.Forall₂ (fun u s : Tree (NodeId × Label) =>
        u.label.2 = s.label.2.rewrite (replacing T R)) c.trees s.below.trees :=
    (List.forall₂_and_left _ _).1 hc.flip
  have hLabels : c.labels = s.below.labels.map (Label.rewrite (replacing T R)) := by
    rw [Forest.labels_eq_map_trees, Forest.labels_eq_map_trees, List.map_map,
      ← List.forall₂_eq_eq_eq, List.forall₂_map_left_iff, List.forall₂_map_right_iff]
    exact hEqual
  have hMade := (Tree.faithful_iff.1 hFaithful).1
  rw [Tree.below_map, ← Forest.labels_eq_heads_map] at hMade
  have hMerges := Forest.merges_mergedFor s.label.2.phrase c
  rw [hLabels] at hMerges
  have hPhrase := Phrase.assemble_rewritten hσ hs hMade hMerges
  refine ⟨Forest.faithful_refreshed ?_ hEach, ?_⟩
  · rw [hPhrase]
    exact hMade.rewriteBelow hσ hs hMerges
  · rw [Label.rewrite_of_eq_none (Label.replacement?_of_not_givesWay hNot), Tree.refreshed]
    dsimp only
    rw [hPhrase]

/-- A substitution replaces every occurrence and never fails. -/
theorem Encodes.substitute (h : a.Encodes l) (hl : l.phrase.Canonical) (hR : R.Canonical) :
    ∃ b, (a.substitute (.classExpression T) (.classExpression R)).result =
        .ok (l.occurrences T R, b) ∧ b.Encodes (l.rewrite (replacing T R)) := by
  obtain ⟨t, hRep, rfl, hFaithful⟩ := h
  obtain ⟨b, u, hRun, hb, hEnd, hLabel⟩ : ∃ b u,
      (a.substitute (.classExpression T) (.classExpression R)).result = .ok
        (t.toList.countP fun x => x.2.GivesWay (.classExpression T) (.classExpression R), b) ∧
      b.Represents u ∧ (u.map Prod.snd).Faithful ∧
      u.label.2 = t.label.2.rewrite (replacing T R) := by
    refine hRep.substitute (P := fun s c => (c.map Prod.snd).Faithful ∧
      c.label.2 = s.label.2.rewrite (replacing T R)) hFaithful hl hR rfl ?copy ?refreshed ?kept
    case copy =>
      intro s _ hGives c hc
      rw [Label.rewrite_of_eq_some (Label.replacement?_of_givesWay hGives)]
      exact ⟨hc ▸ Tree.faithful_encode _, congrArg Tree.label hc⟩
    case refreshed =>
      intro s hs hNot c hc
      obtain ⟨hCanonical, hBelow⟩ := Tree.Faithful.subtree hFaithful hl hs
      exact rewritten_refreshed hR hCanonical hBelow hNot hc
    case kept =>
      intro s hs hNone
      obtain ⟨hCanonical, hBelow⟩ := Tree.Faithful.subtree hFaithful hl hs
      refine ⟨hBelow, (Tree.rewrite_label_eq_self hBelow hCanonical hR ?_).symm⟩
      intro m hm
      rw [Tree.toList_map, List.mem_map] at hm
      obtain ⟨x, hx, rfl⟩ := hm
      exact hNone x hx
  exact ⟨b, by rw [hRun, occurrences_eq hFaithful], u, hb, hLabel, hEnd⟩

end Arena

end Classes

end OntoFold
