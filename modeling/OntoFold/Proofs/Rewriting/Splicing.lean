import OntoFold.Proofs.Arena.Encoding
import OntoFold.Proofs.Rewriting.Labels
import OntoFold.Proofs.Rewriting.Refreshing

/-!
# Splicing copies into a tree

The trees whose labels hold a target give way to copies of its replacement. Refreshing the nodes
above the copies then treats every tree of the forest in one of three ways: it was replaced, its
root was refreshed, or nothing inside it was touched.

* `Forest.exchange_splice`: one more copy is one exchange.
* `Forest.refreshAll_splice`: what holds of replaced, refreshed and untouched trees holds of all.
-/

namespace OntoFold

/-- The label holds the target and may hold the replacement: a class is defined by its name. -/
def Label.GivesWay (T R : Term) (l : Label) : Prop :=
  l.phrase = .term T ∧
    (l.position = some .definedClass → R.classExpression?.any ClassExpression.isNamed = true)

instance {T R : Term} : DecidablePred (Label.GivesWay T R) := fun _ =>
  inferInstanceAs (Decidable (_ ∧ _))

/-- The copies that take the place of trees, by address. -/
abbrev Copies : Type := NodeId → Option (Tree (NodeId × Label))

/-- One more copy. -/
def Copies.add (copies : Copies) (id : NodeId) (copy : Tree (NodeId × Label)) : Copies :=
  fun i => if i = id then some copy else copies i

theorem Copies.add_self (copies : Copies) (id : NodeId) (copy : Tree (NodeId × Label)) :
    copies.add id copy id = some copy := if_pos rfl

theorem Copies.add_ne {copies : Copies} {id i : NodeId} {copy : Tree (NodeId × Label)}
    (h : i ≠ id) : copies.add id copy i = copies i := if_neg h

theorem Copies.add_eq_some {copies : Copies} {id i : NodeId} {copy c : Tree (NodeId × Label)}
    (h : copies.add id copy i = some c) : i = id ∧ copy = c ∨ copies i = some c := by
  by_cases hEq : i = id
  · rw [hEq, Copies.add_self] at h
    exact Or.inl ⟨hEq, Option.some.inj h⟩
  · exact Or.inr ((Copies.add_ne hEq).symm.trans h)

theorem Copies.isSome_add {copies : Copies} {id i : NodeId} {copy : Tree (NodeId × Label)} :
    (copies.add id copy i).isSome ↔ i = id ∨ (copies i).isSome := by
  by_cases hEq : i = id
  · rw [hEq, Copies.add_self]
    simp
  · rw [Copies.add_ne hEq, or_iff_right hEq]

namespace Forest

variable {f b r : Forest (NodeId × Label)} {copies other : Copies} {id : NodeId}
  {s t : Tree (NodeId × Label)}

/-- Puts copies in the place of trees. -/
def splice (copies : Copies) : Forest (NodeId × Label) → Forest (NodeId × Label)
  | nil => nil
  | cons x below rest =>
    let t : Tree (NodeId × Label) := (copies x.1).getD ⟨x, below.splice copies⟩
    cons t.label t.below (rest.splice copies)

theorem splice_cons_of_some {x : NodeId × Label} (h : copies x.1 = some s) :
    (cons x b r).splice copies = cons s.label s.below (r.splice copies) := by
  simp only [splice, h, Option.getD_some]

theorem splice_cons_of_none {x : NodeId × Label} (h : copies x.1 = none) :
    (cons x b r).splice copies = cons x (b.splice copies) (r.splice copies) := by
  simp only [splice, h, Option.getD_none]

theorem splice_congr (h : ∀ i ∈ f.ids, copies i = other i) :
    f.splice copies = f.splice other := by
  induction f with
  | nil => rfl
  | cons x b r ihBelow ihRest =>
    simp only [ids_cons, List.mem_cons, List.mem_append] at h
    simp only [splice, h x.1 (Or.inl rfl), ihBelow fun i hi => h i (Or.inr (Or.inl hi)),
      ihRest fun i hi => h i (Or.inr (Or.inr hi))]

theorem splice_none (f : Forest (NodeId × Label)) : f.splice (fun _ => none) = f := by
  induction f with
  | nil => rfl
  | cons x b r ihBelow ihRest => rw [splice_cons_of_none rfl, ihBelow, ihRest]

/-- One more copy is one exchange, at an address that the other copies do not use. -/
theorem exchange_splice (hNodup : f.ids.Nodup) (hNew : copies id = none)
    (hFresh : ∀ i c, copies i = some c → id ∉ c.ids) :
    (f.splice copies).exchange id s = f.splice (copies.add id s) := by
  induction f with
  | nil => rfl
  | cons x b r ihBelow ihRest =>
    rw [ids_cons, List.nodup_cons, List.nodup_append] at hNodup
    obtain ⟨hx, hb, hr, hDisjoint⟩ := hNodup
    rw [List.mem_append, not_or] at hx
    cases hCopy : copies x.1 with
    | some c =>
      have hne : x.1 ≠ id := fun hEq => by
        rw [hEq, hNew] at hCopy
        cases hCopy
      have hOut := hFresh x.1 c hCopy
      rw [Tree.ids_eq, List.mem_cons, not_or] at hOut
      rw [splice_cons_of_some hCopy, splice_cons_of_some ((Copies.add_ne hne).trans hCopy),
        exchange, if_neg (Ne.symm hOut.1), exchange_of_not_mem hOut.2, ihRest hr]
    | none =>
      rw [splice_cons_of_none hCopy]
      by_cases hEq : x.1 = id
      · have hKeep : ∀ i ∈ r.ids, copies i = copies.add id s i := fun i hi =>
          (Copies.add_ne fun hi' => hx.2 (hEq.trans hi'.symm ▸ hi)).symm
        have hSelf : copies.add id s x.1 = some s := if_pos hEq
        rw [exchange, if_pos hEq, splice_cons_of_some hSelf, splice_congr hKeep]
      · rw [exchange, if_neg hEq, ihBelow hb, ihRest hr,
          splice_cons_of_none ((Copies.add_ne hEq).trans hCopy)]

/-- A tree that no copy replaces, and that is not inside a replaced one, keeps its root. -/
theorem mem_subtrees_splice (hs : s ∈ f.subtrees) (hSelf : copies s.label.1 = none)
    (hAbove : ∀ r ∈ f.subtrees, s.label.1 ∈ r.below.ids → copies r.label.1 = none) :
    ⟨s.label, s.below.splice copies⟩ ∈ (f.splice copies).subtrees := by
  induction f with
  | nil => cases hs
  | cons x b r ihBelow ihRest =>
    rw [subtrees_cons, List.mem_cons, List.mem_append] at hs
    rcases hs with rfl | hs | hs
    · rw [splice_cons_of_none hSelf]
      exact List.mem_cons_self
    · rw [splice_cons_of_none (hAbove ⟨x, b⟩ List.mem_cons_self (mem_ids_of_mem_subtrees hs))]
      refine List.mem_cons_of_mem _ (List.mem_append_left _ (ihBelow hs fun r hr hIn => ?_))
      exact hAbove r (List.mem_cons_of_mem _ (List.mem_append_left _ hr)) hIn
    · refine List.mem_cons_of_mem _ (List.mem_append_right _ (ihRest hs fun r hr hIn => ?_))
      exact hAbove r (List.mem_cons_of_mem _ (List.mem_append_right _ hr)) hIn

theorem mem_roots_splice (h : id ∈ f.roots) (hSelf : copies id = none) :
    id ∈ (f.splice copies).roots := by
  induction f with
  | nil => cases h
  | cons x b r _ ihRest =>
    rw [splice, roots_cons]
    rcases List.mem_cons.1 h with rfl | h
    · rw [hSelf]
      exact List.mem_cons_self
    · exact List.mem_cons_of_mem _ (ihRest h)

/-! ## Faithful forests stay as they are -/

theorem labels_eq_heads_map (f : Forest (NodeId × Label)) : f.labels = (f.map Prod.snd).heads :=
  (heads_map Prod.snd f).symm

theorem merged_eq_self {seen : List Label} (hNodup : f.labels.Nodup)
    (hSeen : ∀ l ∈ f.labels, l ∉ seen) : f.merged seen = f := by
  induction f generalizing seen with
  | nil => rfl
  | cons x b r _ ihRest =>
    obtain ⟨hNew, hr⟩ := List.nodup_cons.1 hNodup
    rw [merged, if_neg (hSeen x.2 List.mem_cons_self), ihRest hr fun l hl hMem => ?_]
    rcases List.mem_cons.1 hMem with rfl | hMem
    · exact hNew hl
    · exact hSeen l (List.mem_cons_of_mem _ hl) hMem

theorem mergedFor_eq_self {p : Phrase} (hp : p.Canonical) (h : p.MadeOf f.labels) :
    f.mergedFor p = f := by
  unfold mergedFor
  split
  · next hSet =>
    refine merged_eq_self (h.perm.nodup_iff.2 (Phrase.parts_nodup hp hSet)) fun _ _ => ?_
    exact List.not_mem_nil
  · rfl

theorem refreshed_eq_self (hCanonical : t.label.2.phrase.Canonical)
    (h : t.label.2.phrase.MadeOf t.below.labels) : t.refreshed = t := by
  rw [Tree.refreshed, mergedFor_eq_self hCanonical h, Phrase.assemble_eq_self hCanonical h]

/-- Refreshing a faithful forest changes nothing. -/
theorem refreshAll_eq_self {stale : List NodeId} (h : (f.map Prod.snd).Faithful)
    (hCanonical : (f.map Prod.snd).Canonical) : f.refreshAll stale = f := by
  induction f with
  | nil => rfl
  | cons x b r ihBelow ihRest =>
    obtain ⟨hMade, hBelow, hRest⟩ := faithful_cons.1 h
    obtain ⟨hx, hb, hr⟩ := canonical_cons.1 hCanonical
    rw [← labels_eq_heads_map] at hMade
    rw [refreshAll, ihBelow hBelow hb, ihRest hRest hr, Tree.refreshedIf]
    split
    · rw [refreshed_eq_self hx hMade]
    · rfl

theorem refreshAll_tree_eq_self {stale : List NodeId} (h : (t.map Prod.snd).Faithful)
    (hCanonical : t.label.2.phrase.Canonical) : t.refreshAll stale = t := by
  obtain ⟨hMade, hBelow⟩ := Tree.faithful_iff.1 h
  have hBelowCanonical : (t.below.map Prod.snd).Canonical := hBelow.canonical fun l hl =>
    Phrase.canonical_of_mem_parts hCanonical (hMade.perm.mem_iff.1 hl)
  rw [Tree.below_map, ← labels_eq_heads_map] at hMade
  rw [Tree.refreshAll, refreshAll_eq_self hBelow hBelowCanonical, Tree.refreshedIf]
  split
  · exact refreshed_eq_self hCanonical hMade
  · rfl

/-! ## Refreshing above the copies -/

theorem labels_eq_map_trees (f : Forest (NodeId × Label)) :
    f.labels = f.trees.map fun t => t.label.2 := by
  rw [labels, heads_eq, List.map_map]
  rfl

/-- Merging the children of a node leaves every label once. -/
theorem merges_mergedFor (p : Phrase) (f : Forest (NodeId × Label)) :
    p.Merges f.labels (f.mergedFor p).labels := by
  unfold Phrase.Merges mergedFor
  split
  · exact ⟨labels_merged_nodup [] f, fun l => by simp [mem_labels_merged]⟩
  · rfl

/-- Merging brings no new subtrees. -/
theorem exists_tree_of_mem_mergedFor {p : Phrase} {f : Forest (NodeId × Label)} {s : Tree Label}
    (h : s ∈ ((f.mergedFor p).map Prod.snd).subtrees) :
    ∃ t ∈ f.trees, s ∈ (t.map Prod.snd).subtrees := by
  rw [subtrees_map, List.mem_map] at h
  obtain ⟨s, hs, rfl⟩ := h
  obtain ⟨t, ht, hst⟩ := mem_subtrees_iff.1 (mem_subtrees_of_mem_mergedFor hs)
  exact ⟨t, ht, Tree.map_mem_subtrees Prod.snd (List.mem_cons.2 hst)⟩

/-- A refreshed tree is faithful when its phrase is made of what its children carry. -/
theorem faithful_refreshed {x : NodeId × Label}
    (hMade : (x.2.phrase.assemble (f.mergedFor x.2.phrase).labels).MadeOf
      (f.mergedFor x.2.phrase).labels)
    (h : ∀ t ∈ f.trees, (t.map Prod.snd).Faithful) :
    ((Tree.refreshed ⟨x, f⟩).map Prod.snd).Faithful := by
  rw [Tree.faithful_iff, Tree.below_map, ← labels_eq_heads_map]
  refine ⟨hMade, fun s hs => ?_⟩
  obtain ⟨t, ht, hst⟩ := exists_tree_of_mem_mergedFor hs
  exact h t ht s hst

variable {T R : Term}

/-- Copies of the replacement, exactly for the labels that give way to it. -/
structure Replaces (copies : Copies) (T R : Term) (f : Forest (NodeId × Label)) : Prop where
  isSome_iff : ∀ x ∈ f.toList, (copies x.1).isSome ↔ x.2.GivesWay T R
  encode : ∀ x ∈ f.toList, ∀ c, copies x.1 = some c →
    c.map Prod.snd = Label.encode ⟨.term R, x.2.position⟩

namespace Replaces

theorem below {x : NodeId × Label} (h : Replaces copies T R (cons x b r)) :
    Replaces copies T R b where
  isSome_iff y hy := h.isSome_iff y (List.mem_cons_of_mem _ (List.mem_append_left _ hy))
  encode y hy := h.encode y (List.mem_cons_of_mem _ (List.mem_append_left _ hy))

theorem rest {x : NodeId × Label} (h : Replaces copies T R (cons x b r)) :
    Replaces copies T R r where
  isSome_iff y hy := h.isSome_iff y (List.mem_cons_of_mem _ (List.mem_append_right _ hy))
  encode y hy := h.encode y (List.mem_cons_of_mem _ (List.mem_append_right _ hy))

/-- Where nothing gives way there are no copies. -/
theorem splice_eq_self (h : Replaces copies T R f) (hNone : ∀ x ∈ f.toList, ¬ x.2.GivesWay T R) :
    f.splice copies = f := by
  refine (splice_congr fun i hi => ?_).trans (splice_none f)
  obtain ⟨x, hx, rfl⟩ := List.mem_map.1 hi
  rw [← Option.not_isSome_iff_eq_none, h.isSome_iff x hx]
  exact hNone x hx

end Replaces

/-- What holds of a tree and the copy it gives way to, of a tree and the refreshed tree above
children for which it holds, and of an untouched tree and itself, holds of all trees of a faithful
forest and what becomes of them, when whatever stands above a copy is refreshed. -/
theorem refreshAll_splice {P : Tree (NodeId × Label) → Tree (NodeId × Label) → Prop}
    {stale : List NodeId} (hR : R.Canonical) (hReplaces : Replaces copies T R f)
    (h : (f.map Prod.snd).Faithful) (hCanonical : (f.map Prod.snd).Canonical)
    (hStale : ∀ s ∈ f.subtrees, ¬ s.label.2.GivesWay T R →
      (∃ x ∈ s.below.toList, x.2.GivesWay T R) → s.label.1 ∈ stale)
    (hCopy : ∀ s ∈ f.subtrees, s.label.2.GivesWay T R → ∀ c : Tree (NodeId × Label),
      c.map Prod.snd = Label.encode ⟨.term R, s.label.2.position⟩ → P s c)
    (hRefreshed : ∀ s ∈ f.subtrees, ¬ s.label.2.GivesWay T R → ∀ c : Forest (NodeId × Label),
      List.Forall₂ P s.below.trees c.trees → P s (Tree.refreshed ⟨s.label, c⟩))
    (hKept : ∀ s ∈ f.subtrees, (∀ x ∈ s.toList, ¬ x.2.GivesWay T R) → P s s) :
    List.Forall₂ P f.trees ((f.splice copies).refreshAll stale).trees := by
  induction f with
  | nil => exact .nil
  | cons x b r ihBelow ihRest =>
    obtain ⟨-, hBelow, hRest⟩ := faithful_cons.1 h
    obtain ⟨-, hb, hr⟩ := canonical_cons.1 hCanonical
    simp only [subtrees_cons, List.mem_cons, List.mem_append, or_imp, forall_and] at hStale hCopy
    simp only [subtrees_cons, List.mem_cons, List.mem_append, or_imp, forall_and] at hRefreshed hKept
    have hTail := ihRest hReplaces.rest hRest hr hStale.2.2 hCopy.2.2 hRefreshed.2.2 hKept.2.2
    -- What stands in the first place after the splice, and what refreshing makes of it.
    suffices hFirst : ∃ t : Tree (NodeId × Label),
        (cons x b r).splice copies = cons t.label t.below (r.splice copies) ∧
        P ⟨x, b⟩ (t.refreshAll stale) by
      obtain ⟨t, hSplice, hHead⟩ := hFirst
      rw [hSplice]
      exact .cons hHead hTail
    have hIff := hReplaces.isSome_iff x List.mem_cons_self
    cases hx : copies x.1 with
    | some c =>
      rw [hx] at hIff
      have hEncode := hReplaces.encode x List.mem_cons_self c hx
      have hFaithful : (c.map Prod.snd).Faithful := hEncode ▸ Tree.faithful_encode _
      have hLabel : c.label.2 = ⟨.term R, x.2.position⟩ := congrArg Tree.label hEncode
      refine ⟨c, splice_cons_of_some hx, ?_⟩
      rw [refreshAll_tree_eq_self hFaithful (hLabel ▸ hR)]
      exact hCopy.1 _ rfl (hIff.1 rfl) c hEncode
    | none =>
      rw [hx] at hIff
      have hNot : ¬ x.2.GivesWay T R := fun hGives => Bool.false_ne_true (hIff.2 hGives)
      refine ⟨⟨x, b.splice copies⟩, splice_cons_of_none hx, ?_⟩
      rw [Tree.refreshAll, Tree.refreshedIf]
      split
      · exact hRefreshed.1 _ rfl hNot _
          (ihBelow hReplaces.below hBelow hb hStale.2.1 hCopy.2.1 hRefreshed.2.1 hKept.2.1)
      · next hFresh =>
        have hNone : ∀ y ∈ b.toList, ¬ y.2.GivesWay T R := fun y hy hGives =>
          hFresh (hStale.1 ⟨x, b⟩ rfl hNot ⟨y, hy, hGives⟩)
        rw [hReplaces.below.splice_eq_self hNone, refreshAll_eq_self hBelow hb]
        refine hKept.1 _ rfl fun y hy => ?_
        rcases List.mem_cons.1 hy with rfl | hy
        · exact hNot
        · exact hNone y hy

end Forest

end OntoFold
