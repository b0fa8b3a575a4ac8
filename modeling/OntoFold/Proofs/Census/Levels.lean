import OntoFold.Proofs.Census.Occurrences
import OntoFold.Tree.Buckets

/-!
# Levels looked up step by step

The levels of all expressions of a corpus can be found by visiting them in the order of their sizes:
the level of an expression is one more than the highest level inside it, and what is inside has been
visited by then. `Census.levels?` does so with look-ups that may fail. On a corpus none of them
does, because everything inside an expression of the corpus belongs to the corpus and is smaller.

* `ClassExpression.level_eq_levelOver`: the level by what is inside.
* `Census.foldlM_levelFrom?`: visiting expressions in the order of their sizes.
* `Census.levels?_eq_some`: the look-ups succeed and give the levels of the census.
-/

namespace OntoFold

/-! ## Levels by what is inside -/

/-- One more than the highest of some levels. -/
def levelOver (levels : List Nat) : Nat := levels.foldr (fun level top => max (level + 1) top) 0

theorem levelOver_le_iff {levels : List Nat} {n : Nat} :
    levelOver levels ≤ n ↔ ∀ level ∈ levels, level < n := by
  induction levels with
  | nil => simp [levelOver]
  | cons level levels ih =>
    rw [List.forall_mem_cons, ← ih]
    exact Nat.max_le

namespace ClassExpression

variable {e t : ClassExpression}

theorem level_eq (e : ClassExpression) : e.level = levelOver (e.operands.map level) := by
  have hOver : ∀ es : List ClassExpression, levelAbove es = levelOver (es.map level) := by
    intro es
    induction es with
    | nil => rfl
    | cons e es ih => rw [levelAbove, ih, List.map_cons, levelOver, levelOver, List.foldr_cons]
  cases e with
  | combined connective operands => exact hOver operands
  | cardinality bound count property filler =>
    cases filler <;> simp [level, fillerLevel, operands, levelOver]
  | _ => simp [level, operands, levelOver]

theorem level_lt_of_mem_operands {o : ClassExpression} (h : o ∈ e.operands) :
    o.level < e.level := by
  have hAll := levelOver_le_iff.1 (Nat.le_of_eq e.level_eq.symm)
  exact hAll o.level (List.mem_map_of_mem h)

theorem level_le_of_mem_positions (h : t ∈ e.positions) : t.level ≤ e.level := by
  induction e using operands_induction with
  | step e ih =>
    rcases mem_positions_iff.1 h with rfl | ⟨o, ho, ht⟩
    · exact Nat.le_refl _
    · exact Nat.le_trans (ih o ho ht) (Nat.le_of_lt (level_lt_of_mem_operands ho))

theorem level_lt_of_mem_strictlyNested (h : t ∈ e.strictlyNested) : t.level < e.level := by
  obtain ⟨o, ho, hInside⟩ := mem_strictlyNested.1 h
  exact Nat.lt_of_le_of_lt (level_le_of_mem_positions hInside) (level_lt_of_mem_operands ho)

/-- A level is one more than the highest level inside. -/
theorem level_eq_levelOver (e : ClassExpression) :
    e.level = levelOver (e.strictlyNested.toList.map level) := by
  apply Nat.le_antisymm
  · rw [level_eq, levelOver_le_iff, List.forall_mem_map]
    intro o ho
    have hInside : o ∈ e.strictlyNested :=
      mem_strictlyNested.2 ⟨o, ho, mem_positions_iff.2 (Or.inl rfl)⟩
    exact levelOver_le_iff.1 (Nat.le_refl _) _ (List.mem_map_of_mem hInside)
  · rw [levelOver_le_iff, List.forall_mem_map]
    exact fun t ht => level_lt_of_mem_strictlyNested ht

end ClassExpression

/-! ## Looking levels up -/

namespace Census

/-- The expressions of a corpus with the expressions inside them. -/
def contents (axioms : List Axiom) : SortedMap ClassExpression (SortedSet ClassExpression) :=
  ((SortedSet.ofList (axioms.flatMap fun ax => ax.nested.toList)).toList.map
    fun e => (e, e.strictlyNested)).foldl (fun m x => m.insert x.1 x.2) ∅

/-- The level of an expression from the levels found before. There is none unless the contents of
the expression and the levels of all that is inside can be looked up. -/
def levelFrom? (contents : SortedMap ClassExpression (SortedSet ClassExpression))
    (found : SortedMap ClassExpression Nat) (e : ClassExpression) : Option Nat :=
  (contents.get? e).bind fun inside => (inside.toList.mapM found.get?).map levelOver

/-- The expressions of a corpus in the order of their sizes. -/
def smallestFirst (axioms : List Axiom) : List ClassExpression :=
  (sizeBuckets (contents axioms).keys.toList).values.flatMap SortedSet.toList

/-- The levels of the expressions of a corpus, found in the order of their sizes. -/
def levels? (axioms : List Axiom) : Option (SortedMap ClassExpression Nat) :=
  (smallestFirst axioms).foldlM
    (fun found e => (levelFrom? (contents axioms) found e).map (found.insert e)) ∅

variable {contents : SortedMap ClassExpression (SortedSet ClassExpression)}
  {found : SortedMap ClassExpression Nat} {e : ClassExpression} {axioms : List Axiom}

theorem levelFrom?_eq_some (hContents : contents.get? e = some e.strictlyNested)
    (hFound : ∀ t ∈ e.strictlyNested, found.get? t = some t.level) :
    levelFrom? contents found e = some e.level := by
  have hLevels : ∀ es : List ClassExpression, (∀ t ∈ es, found.get? t = some t.level) →
      es.mapM found.get? = some (es.map ClassExpression.level) := by
    intro es hes
    induction es with
    | nil => rfl
    | cons e es ih =>
      rw [List.forall_mem_cons] at hes
      rw [List.mapM_cons, hes.1, ih hes.2]
      rfl
  rw [levelFrom?, hContents, Option.bind_some, hLevels _ hFound, Option.map_some,
    ← ClassExpression.level_eq_levelOver]

/-- When everything inside some expressions has a level already or is one of them, visiting them in
the order of their sizes finds their levels. -/
theorem foldlM_levelFrom? {es : List ClassExpression}
    (hOrder : es.Pairwise fun e e' => e.size ≤ e'.size)
    (hContents : ∀ e ∈ es, contents.get? e = some e.strictlyNested)
    (hInside : ∀ e ∈ es, ∀ t ∈ e.strictlyNested, found.get? t = some t.level ∨ t ∈ es) :
    ∃ all, es.foldlM (fun found e => (levelFrom? contents found e).map (found.insert e)) found =
        some all ∧
      ∀ e level, all.get? e = some level ↔
        e ∈ es ∧ level = e.level ∨ e ∉ es ∧ found.get? e = some level := by
  induction es generalizing found with
  | nil => exact ⟨found, rfl, by simp⟩
  | cons e es ih =>
    obtain ⟨hFirst, hRest⟩ := List.pairwise_cons.1 hOrder
    -- What is inside the first expression is smaller than all that are still to be visited.
    have hFound : ∀ t ∈ e.strictlyNested, found.get? t = some t.level := by
      intro t ht
      have hLt := ClassExpression.size_lt_of_mem_strictlyNested ht
      refine (hInside e List.mem_cons_self t ht).resolve_right fun hMem => ?_
      rcases List.mem_cons.1 hMem with rfl | hMem
      · exact Nat.lt_irrefl _ hLt
      · exact Nat.not_lt.2 (hFirst t hMem) hLt
    have hLevel := levelFrom?_eq_some (hContents e List.mem_cons_self) hFound
    have hInside' : ∀ e' ∈ es, ∀ t ∈ e'.strictlyNested,
        (found.insert e e.level).get? t = some t.level ∨ t ∈ es := by
      intro e' he' t ht
      by_cases hSame : t = e
      · rw [hSame, SortedMap.get?_insert_self]
        exact Or.inl rfl
      · rw [SortedMap.get?_insert_ne hSame]
        have hBefore := hInside e' (List.mem_cons_of_mem _ he') t ht
        exact hBefore.imp_right fun hMem => (List.mem_cons.1 hMem).resolve_left hSame
    obtain ⟨all, hAll, hGet⟩ := ih hRest (fun e' he' => hContents e' (List.mem_cons_of_mem _ he'))
      hInside'
    refine ⟨all, ?_, fun e' level => (hGet e' level).trans ?_⟩
    · rw [List.foldlM_cons, hLevel, Option.map_some]
      exact hAll
    · rw [List.mem_cons, not_or]
      by_cases hSame : e' = e
      · subst hSame
        rw [SortedMap.get?_insert_self]
        by_cases hMem : e' ∈ es <;> simp [hMem, eq_comm]
      · rw [SortedMap.get?_insert_ne hSame]
        simp [hSame]

/-! ## The levels of a corpus -/

theorem get?_contents {s : SortedSet ClassExpression} :
    (Census.contents axioms).get? e = some s ↔
      (∃ ax ∈ axioms, e ∈ ax.positions) ∧ s = e.strictlyNested := by
  have hKeys : (((SortedSet.ofList (axioms.flatMap fun ax => ax.nested.toList)).toList.map
      fun e => (e, e.strictlyNested)).map Prod.fst).Nodup := by
    rw [List.map_map]
    exact (List.map_id _).symm ▸ (SortedSet.ascending _).nodup
  rw [Census.contents, SortedMap.get?_foldl_insert hKeys, ← mem_expressions]
  constructor
  · rintro (hMem | ⟨-, hNone⟩)
    · obtain ⟨x, hx, hEq⟩ := List.mem_map.1 hMem
      obtain ⟨rfl, rfl⟩ := Prod.mk.inj hEq
      exact ⟨hx, rfl⟩
    · cases hNone
  · rintro ⟨he, rfl⟩
    exact Or.inl (List.mem_map_of_mem he)

theorem mem_smallestFirst : e ∈ smallestFirst axioms ↔ ∃ ax ∈ axioms, e ∈ ax.positions := by
  rw [smallestFirst, SortedMap.flatMap_values, List.mem_reverse]
  refine SortedMap.mem_descending_groupBy.trans ?_
  rw [SortedSet.mem_toList, SortedMap.mem_keys, SortedMap.contains_iff]
  simp only [get?_contents, exists_and_left, exists_eq, and_true]

/-- No expression comes before a smaller one. -/
theorem pairwise_smallestFirst (axioms : List Axiom) :
    (smallestFirst axioms).Pairwise fun e e' => e.size ≤ e'.size := by
  rw [smallestFirst, SortedMap.flatMap_values, List.pairwise_reverse]
  refine List.Pairwise.imp ?_ (SortedMap.groupBy_descending ClassExpression.size _)
  rintro e e' ⟨-, hSize⟩
  rw [Ne, Nat.compare_eq_gt] at hSize
  exact Nat.le_of_not_lt hSize

/-- No look-up of the levels of a corpus fails, and they are the levels of the census. -/
theorem levels?_eq_some (axioms : List Axiom) :
    ∃ all, levels? axioms = some all ∧
      ∀ e level, (ofList axioms).levels.HasMember level e ↔ all.get? e = some level := by
  have hInside : ∀ e ∈ smallestFirst axioms, ∀ t ∈ e.strictlyNested,
      (∅ : SortedMap ClassExpression Nat).get? t = some t.level ∨ t ∈ smallestFirst axioms := by
    intro e he t ht
    obtain ⟨ax, hAx, hPositions⟩ := mem_smallestFirst.1 he
    have hNested := ClassExpression.mem_positions_of_mem_strictlyNested ht
    exact Or.inr (mem_smallestFirst.2 ⟨ax, hAx, Axiom.mem_positions_trans hPositions hNested⟩)
  obtain ⟨all, hAll, hGet⟩ := foldlM_levelFrom? (pairwise_smallestFirst axioms)
    (fun e he => get?_contents.2 ⟨mem_smallestFirst.1 he, rfl⟩) hInside
  refine ⟨all, hAll, fun e level => ?_⟩
  have hGroup : (ofList axioms).levels.HasMember level e ↔
      (∃ ax ∈ axioms, e ∈ ax.positions) ∧ e.level = level := by
    rw [← mem_expressions]
    exact SortedMap.mem_groupBy
  rw [hGroup, hGet, mem_smallestFirst, SortedMap.get?_empty]
  simp [eq_comm]

end Census

end OntoFold
