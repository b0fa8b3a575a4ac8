import OntoFold.Arena.Substitution
import OntoFold.Proofs.Arena.Removal

/-!
# Merging children

Of the children that carry the same label the first one is kept. A refreshed node has merged
children, and its phrase is put together from what they carry.

* `Forest.mem_labels_merged`, `Forest.labels_merged_nodup`: which labels are kept.
* `Arena.Represents.refresh`: what refreshing a node does.
-/

namespace OntoFold

/-- Labels are compared by equality. -/
instance : LawfulBEq Label := inferInstance

namespace Forest

variable {f b r : Forest (NodeId × Label)} {seen : List Label} {l : Label} {id : NodeId}

/-- The labels of the first trees. -/
def labels (f : Forest (NodeId × Label)) : List Label := f.heads.map Prod.snd

@[simp] theorem labels_nil : (nil : Forest (NodeId × Label)).labels = [] := rfl

@[simp] theorem labels_cons {x : NodeId × Label} : (cons x b r).labels = x.2 :: r.labels := rfl

/-- The forest without the first trees whose labels were seen before. -/
def merged (seen : List Label) : Forest (NodeId × Label) → Forest (NodeId × Label)
  | nil => nil
  | cons x below rest =>
    if x.2 ∈ seen then rest.merged seen else cons x below (rest.merged (x.2 :: seen))

/-- The addresses of the first trees whose labels were seen before. -/
def repeated (seen : List Label) : Forest (NodeId × Label) → List NodeId
  | nil => []
  | cons x _ rest =>
    if x.2 ∈ seen then x.1 :: rest.repeated seen else rest.repeated (x.2 :: seen)

theorem repeated_sublist (seen : List Label) (f : Forest (NodeId × Label)) :
    (f.repeated seen).Sublist f.roots := by
  induction f generalizing seen with
  | nil => exact List.Sublist.refl _
  | cons x b r _ ihRest =>
    rw [repeated]
    split
    · exact (ihRest seen).cons_cons x.1
    · exact (ihRest (x.2 :: seen)).cons x.1

/-- Dropping the repeated trees merges the forest. -/
theorem without_repeated (h : f.roots.Nodup) (seen : List Label) :
    f.without (f.repeated seen) = f.merged seen := by
  induction f generalizing seen with
  | nil => rfl
  | cons x b r _ ihRest =>
    obtain ⟨hNew, hr⟩ := List.nodup_cons.1 h
    rw [repeated, merged]
    split
    · next hSeen =>
      have hSkip : ∀ i ∈ [x.1], i ∉ r.roots := fun i hi =>
        List.mem_singleton.1 hi ▸ hNew
      rw [without, if_pos List.mem_cons_self, ← List.singleton_append, ← without_without,
        without_of_not_mem hSkip, ihRest hr]
    · next hSeen =>
      have hKeep : x.1 ∉ r.repeated (x.2 :: seen) := fun hMem =>
        hNew ((r.repeated_sublist _).subset hMem)
      rw [without, if_neg hKeep, ihRest hr]

theorem mem_labels_merged : l ∈ (f.merged seen).labels ↔ l ∈ f.labels ∧ l ∉ seen := by
  induction f generalizing seen with
  | nil => simp [merged]
  | cons x b r _ ihRest =>
    rw [merged]
    split
    · next hSeen =>
      rw [ihRest, labels_cons, List.mem_cons]
      constructor
      · exact fun ⟨hMem, hNew⟩ => ⟨Or.inr hMem, hNew⟩
      · rintro ⟨rfl | hMem, hNew⟩
        · exact absurd hSeen hNew
        · exact ⟨hMem, hNew⟩
    · next hSeen =>
      rw [labels_cons, List.mem_cons, ihRest, labels_cons, List.mem_cons, List.mem_cons, not_or]
      by_cases hl : l = x.2
      · subst hl
        simp [hSeen]
      · simp [hl]

theorem labels_merged_nodup (seen : List Label) (f : Forest (NodeId × Label)) :
    (f.merged seen).labels.Nodup := by
  induction f generalizing seen with
  | nil => exact List.nodup_nil
  | cons x b r _ ihRest =>
    rw [merged]
    split
    · exact ihRest seen
    · rw [labels_cons, List.nodup_cons]
      exact ⟨fun hMem => (mem_labels_merged.1 hMem).2 List.mem_cons_self, ihRest _⟩

theorem mem_subtrees_of_mem_merged {s : Tree (NodeId × Label)}
    (h : s ∈ (f.merged seen).subtrees) : s ∈ f.subtrees := by
  induction f generalizing seen with
  | nil => exact h
  | cons x b r _ ihRest =>
    rw [merged] at h
    split at h
    · exact List.mem_cons_of_mem _ (List.mem_append_right _ (ihRest h))
    · rw [subtrees_cons, List.mem_cons, List.mem_append] at h ⊢
      exact h.imp_right (Or.imp_right ihRest)

/-- Where the children of a node with the given phrase form a set, they are merged. -/
def mergedFor (p : Phrase) (f : Forest (NodeId × Label)) : Forest (NodeId × Label) :=
  if p.isSetValued then f.merged [] else f

theorem mem_subtrees_of_mem_mergedFor {p : Phrase} {s : Tree (NodeId × Label)}
    (h : s ∈ (f.mergedFor p).subtrees) : s ∈ f.subtrees := by
  unfold mergedFor at h
  split at h
  · exact mem_subtrees_of_mem_merged h
  · exact h

end Forest

/-- The tree with the children of its root merged and the phrase of its root put together
again. -/
def Tree.refreshed (t : Tree (NodeId × Label)) : Tree (NodeId × Label) :=
  ⟨(t.label.1, { t.label.2 with
    phrase := t.label.2.phrase.assemble (t.below.mergedFor t.label.2.phrase).labels }),
    t.below.mergedFor t.label.2.phrase⟩

/-! ## Refreshing a node -/

namespace Arena

variable {a b : Arena} {p : Option NodeId} {f : Forest (NodeId × Label)}
  {s t : Tree (NodeId × Label)}

/-- The labels of the children of a node are read off their slots. -/
theorem Holds.mapM_label (h : a.Holds p f) :
    (f.roots.mapM fun child => return (← a.node child).label) = Except.ok f.labels := by
  induction f with
  | nil => rfl
  | cons x below rest _ ihRest =>
    obtain ⟨hx, -, hRest⟩ := h
    rw [Forest.roots_cons, List.mapM_cons, node_eq_ok hx, ihRest hRest]
    rfl

/-- Collecting the repeated children in one pass. -/
theorem foldl_repeated (f : Forest (NodeId × Label)) (seen : List Label) (ids : List NodeId) :
    ((f.roots.zip f.labels).foldl
      (fun (seen, repeated) (child, label) =>
        if label ∈ seen then (seen, repeated ++ [child]) else (label :: seen, repeated))
      (seen, ids)).2 = ids ++ f.repeated seen := by
  induction f generalizing seen ids with
  | nil => exact (List.append_nil ids).symm
  | cons x below rest _ ihRest =>
    rw [Forest.roots_cons, Forest.labels_cons, List.zip_cons_cons, List.foldl_cons,
      Forest.repeated]
    dsimp only
    split
    · rw [ihRest, List.append_assoc, List.singleton_append]
    · exact ihRest _ _

namespace Represents

theorem repeatedChildren (h : a.Represents t) (hs : s ∈ t.subtrees) :
    a.repeatedChildren s.label.1 = .ok (s.below.repeated []) := by
  obtain ⟨q, hq⟩ := h.get? hs
  have hFold := foldl_repeated s.below [] []
  rw [List.nil_append] at hFold
  rw [Arena.repeatedChildren, node_eq_ok hq]
  simp only [bind, Except.bind]
  have hLabels := (h.holds_below hs).mapM_label
  simp only [bind, Except.bind] at hLabels
  rw [hLabels]
  exact congrArg Except.ok hFold

theorem mergeChildren (h : a.Represents t) (hs : s ∈ t.subtrees) :
    ∃ b, a.mergeChildren s.label.1 = .ok b ∧ b.Represents
      (t.exchange s.label.1 ⟨s.label, s.below.mergedFor s.label.2.phrase⟩) := by
  obtain ⟨q, hq⟩ := h.get? hs
  have hRoots := h.roots_nodup hs
  rw [Arena.mergeChildren, node_eq_ok hq, Forest.mergedFor]
  simp only [bind, Except.bind]
  by_cases hSet : s.label.2.phrase.isSetValued = true
  · obtain ⟨b, hRemove, hb⟩ := h.removeChildren hs
      ((s.below.repeated_sublist []).nodup hRoots)
      fun i hi => (s.below.repeated_sublist []).subset hi
    rw [Forest.without_repeated hRoots] at hb
    refine ⟨b, ?_, ?_⟩
    · rw [if_pos hSet, h.repeatedChildren hs]
      exact hRemove
    · rw [if_pos hSet]
      exact hb
  · refine ⟨a, if_neg hSet, ?_⟩
    rw [if_neg hSet]
    exact (Tree.exchange_self h.nodup hs).symm ▸ h

/-- Refreshing a node merges its children and puts its phrase together again. -/
theorem refresh (h : a.Represents t) (hs : s ∈ t.subtrees) :
    ∃ b, a.refresh s.label.1 = .ok b ∧ b.Represents (t.exchange s.label.1 s.refreshed) := by
  obtain ⟨b, hMerge, hb⟩ := h.mergeChildren hs
  have hs' : (⟨s.label, s.below.mergedFor s.label.2.phrase⟩ : Tree (NodeId × Label)) ∈
      (t.exchange s.label.1 ⟨s.label, s.below.mergedFor s.label.2.phrase⟩).subtrees :=
    Tree.mem_exchange hs
  obtain ⟨q, hq⟩ := hb.get? hs'
  have hLabels := (hb.holds_below hs').mapM_label
  obtain ⟨c, hSet, hc⟩ := hb.setPhrase hs'
    (s.label.2.phrase.assemble (s.below.mergedFor s.label.2.phrase).labels)
  refine ⟨c, ?_, ?_⟩
  · rw [Arena.refresh, hMerge]
    simp only [bind, Except.bind] at hLabels ⊢
    rw [node_eq_ok hq]
    dsimp only
    rw [hLabels]
    exact hSet
  · have hTwice := Tree.exchange_exchange (i := s.label.1)
      (s := ⟨s.label, s.below.mergedFor s.label.2.phrase⟩) t s.refreshed rfl
    exact hTwice ▸ hc

end Represents

end Arena

end OntoFold
