import OntoFold.Proofs.Codec.Assembly

/-!
# Faithful trees

A tree is faithful when the children of every node carry the parts of its phrase. Encodings
are faithful, and a faithful tree differs from the encoding of its phrase only in the order
of children that form a set.

* `Forest.Faithful.decode`: a faithful tree of a canonical phrase stands for that phrase.
* `Forest.Faithful.reordered`: reordering sets of children gives the encoding.
-/

namespace OntoFold

namespace Forest

/-! ## Faithful forests -/

/-- The children of every node carry the parts of its phrase. -/
def Faithful (f : Forest Label) : Prop := ∀ s ∈ f.subtrees, s.label.phrase.MadeOf s.below.heads

/-- All phrases are canonical. -/
def Canonical (f : Forest Label) : Prop := ∀ l ∈ f.toList, l.phrase.Canonical

variable {l : Label} {f b r : Forest Label}

theorem faithful_cons :
    (cons l b r).Faithful ↔ l.phrase.MadeOf b.heads ∧ b.Faithful ∧ r.Faithful := by
  simp [Faithful, or_imp, forall_and]

theorem canonical_nil : (nil : Forest Label).Canonical := fun l hl => by cases hl

theorem canonical_cons :
    (cons l b r).Canonical ↔ l.phrase.Canonical ∧ b.Canonical ∧ r.Canonical := by
  simp [Canonical, or_imp, forall_and]

theorem Faithful.below {s : Tree Label} (h : f.Faithful) (hs : s ∈ f.subtrees) :
    s.below.Faithful := fun _ hr => h _ (subtrees_trans hs hr)

theorem faithful_branches (p : Phrase) : p.branches.Faithful := fun s hs => by
  rw [Phrase.below_eq_branches hs, Phrase.heads_branches]
  exact Phrase.madeOf_parts _

/-- In a faithful forest, canonical phrases have canonical phrases below. -/
theorem Faithful.canonical (h : f.Faithful) (hHeads : ∀ l ∈ f.heads, l.phrase.Canonical) :
    f.Canonical := by
  induction f with
  | nil => exact canonical_nil
  | cons l b r ihBelow ihRest =>
    obtain ⟨hMade, hBelow, hRest⟩ := faithful_cons.1 h
    have hLabel : l.phrase.Canonical := hHeads l List.mem_cons_self
    refine canonical_cons.2 ⟨hLabel, ihBelow hBelow fun m hm => ?_, ihRest hRest fun m hm => ?_⟩
    · exact Phrase.canonical_of_mem_parts hLabel (hMade.perm.mem_iff.1 hm)
    · exact hHeads m (List.mem_cons_of_mem _ hm)

theorem resolve_eq_self {children : List Label} (hl : l.phrase.Canonical)
    (h : l.phrase.MadeOf children) : l.resolve children = l := by
  unfold Label.resolve
  split
  · rfl
  · rw [Phrase.assemble_eq_self hl h]

/-- The trees of a faithful forest stand for the phrases they hold. -/
theorem Faithful.decode (h : f.Faithful) (hCanonical : f.Canonical) : f.decode = f.heads := by
  induction f with
  | nil => rfl
  | cons l b r ihBelow ihRest =>
    obtain ⟨hMade, hBelow, hRest⟩ := faithful_cons.1 h
    obtain ⟨hl, hb, hr⟩ := canonical_cons.1 hCanonical
    rw [Forest.decode, ihBelow hBelow hb, ihRest hRest hr, resolve_eq_self hl hMade, heads_cons]

/-! ## Reordering -/

/-- The forest of some trees. -/
def ofTrees {α : Type u} (ts : List (Tree α)) : Forest α :=
  ts.foldr (fun t => cons t.label t.below) nil

theorem ofTrees_trees {α : Type u} (f : Forest α) : ofTrees f.trees = f := by
  induction f with
  | nil => rfl
  | cons head below rest _ ihRest => exact congrArg (cons head below) ihRest

/-- Forests that differ in the order of the children of set-valued nodes only. The flag tells
whether the first trees may change places too. -/
inductive Reordered : Bool → Forest Label → Forest Label → Prop where
  | nil {free : Bool} : Reordered free nil nil
  | cons {free : Bool} {l : Label} {b b' r r' : Forest Label}
      (below : Reordered l.phrase.isSetValued b b') (rest : Reordered free r r') :
      Reordered free (cons l b r) (cons l b' r')
  | swap (l m : Label) (b c r : Forest Label) :
      Reordered true (Forest.cons l b (Forest.cons m c r)) (Forest.cons m c (Forest.cons l b r))
  | trans {free : Bool} {f g h : Forest Label} (first : Reordered free f g)
      (second : Reordered free g h) : Reordered free f h

theorem Reordered.refl (free : Bool) (f : Forest Label) : Reordered free f f := by
  induction f generalizing free with
  | nil => exact .nil
  | cons l b r ihBelow ihRest => exact .cons (ihBelow _) (ihRest free)

theorem Reordered.toList_perm {free : Bool} {f g : Forest Label} (h : Reordered free f g) :
    f.toList.Perm g.toList := by
  induction h with
  | nil => exact List.Perm.refl _
  | cons _ _ ihBelow ihRest => exact (ihBelow.append ihRest).cons _
  | swap l m b c r =>
    simp only [toList, ← List.cons_append, ← List.append_assoc]
    exact List.perm_append_comm.append_right _
  | trans _ _ ihFirst ihSecond => exact ihFirst.trans ihSecond

theorem reordered_of_perm {ts us : List (Tree Label)} (h : ts.Perm us) :
    Reordered true (ofTrees ts) (ofTrees us) := by
  induction h with
  | nil => exact .nil
  | cons t _ ih => exact .cons (.refl _ _) ih
  | swap t u ts => exact .swap ..
  | trans _ _ ihFirst ihSecond => exact ihFirst.trans ihSecond

/-- A faithful forest is, up to the order of sets of children, the forest of the encodings of
its first labels. -/
theorem Faithful.reordered (h : f.Faithful) (free : Bool) :
    Reordered free f (ofTrees (f.heads.map Label.encode)) := by
  induction f generalizing free with
  | nil => exact .nil
  | cons l b r ihBelow ihRest =>
    obtain ⟨hMade, hBelow, hRest⟩ := faithful_cons.1 h
    refine .cons ?_ (ihRest hRest free)
    change Reordered _ b l.phrase.branches
    rw [← ofTrees_trees l.phrase.branches, Phrase.trees_branches]
    unfold Phrase.MadeOf at hMade
    split at hMade
    · next hSet =>
      rw [hSet]
      exact (ihBelow hBelow true).trans (reordered_of_perm (hMade.map _))
    · rw [← hMade]
      exact ihBelow hBelow _

end Forest

/-! ## Faithful trees -/

namespace Tree

/-- The children of every node carry the parts of its phrase. -/
def Faithful (t : Tree Label) : Prop := ∀ s ∈ t.subtrees, s.label.phrase.MadeOf s.below.heads

/-- Trees that differ in the order of the children of set-valued nodes only. -/
def SameUpToOrder (t u : Tree Label) : Prop := Forest.Reordered false t.toForest u.toForest

variable {t : Tree Label}

theorem faithful_iff : t.Faithful ↔ t.label.phrase.MadeOf t.below.heads ∧ t.below.Faithful := by
  simp [Faithful, subtrees, Forest.Faithful]

theorem faithful_encode (l : Label) : l.encode.Faithful := by
  refine faithful_iff.2 ⟨?_, Forest.faithful_branches _⟩
  exact (Phrase.heads_branches l.phrase).symm ▸ Phrase.madeOf_parts _

theorem Faithful.of_mem_subtrees {s : Tree Label} (h : t.Faithful) (hs : s ∈ t.subtrees) :
    s.Faithful := by
  rcases List.mem_cons.1 hs with rfl | hs
  · exact h
  · refine faithful_iff.2 ⟨h s (List.mem_cons_of_mem _ hs), ?_⟩
    exact (faithful_iff.1 h).2.below hs

theorem Faithful.canonical {l : Label} (h : t.Faithful) (hRoot : t.label.phrase.Canonical)
    (hl : l ∈ t.toList) : l.phrase.Canonical := by
  obtain ⟨hMade, hBelow⟩ := faithful_iff.1 h
  rcases List.mem_cons.1 hl with rfl | hl
  · exact hRoot
  · exact hBelow.canonical
      (fun m hm => Phrase.canonical_of_mem_parts hRoot (hMade.perm.mem_iff.1 hm)) l hl

/-- A faithful tree of a canonical phrase stands for that phrase. -/
theorem Faithful.decode (h : t.Faithful) (hRoot : t.label.phrase.Canonical) :
    t.decode = t.label.phrase := by
  obtain ⟨hMade, hBelow⟩ := faithful_iff.1 h
  have hCanonical : t.below.Canonical := fun l hl => h.canonical hRoot (List.mem_cons_of_mem _ hl)
  rw [Tree.decode, hBelow.decode hCanonical, Forest.resolve_eq_self hRoot hMade]

theorem faithful_toForest : t.toForest.Faithful ↔ t.Faithful := by
  rw [Forest.Faithful, subtrees_toForest, Faithful]

theorem Faithful.sameUpToOrder (h : t.Faithful) : t.SameUpToOrder t.label.encode :=
  (faithful_toForest.2 h).reordered false

theorem SameUpToOrder.toList_perm {u : Tree Label} (h : t.SameUpToOrder u) :
    t.toList.Perm u.toList := by
  rw [← toList_toForest, ← toList_toForest]
  exact Forest.Reordered.toList_perm h

theorem Faithful.size_eq (h : t.Faithful) : t.size = t.label.phrase.size := by
  have hLength := h.sameUpToOrder.toList_perm.length_eq
  rwa [length_toList, length_toList] at hLength

/-- Below a node of a faithful tree stand smaller phrases only. -/
theorem Faithful.size_lt {l : Label} (h : t.Faithful) (hl : l ∈ t.below.toList) :
    l.phrase.size < t.label.phrase.size := by
  obtain ⟨b, hMem⟩ := Forest.mem_toList_iff.1 hl
  have hLe := Forest.size_le_of_mem_subtrees hMem
  have hInner := (h.of_mem_subtrees (List.mem_cons_of_mem _ hMem)).size_eq
  have hOuter := h.size_eq
  simp only [size] at hLe hInner hOuter
  omega

end Tree

end OntoFold
