import Mathlib.Algebra.Ring.Nat
import OntoFold.Proofs.Census.Levels
import OntoFold.Proofs.Rewriting.Leftovers

/-!
# Censuses taken step by step

A census can be taken in one pass over the axioms. The pass counts the nodes of the tree of an axiom
and then visits what is nested inside the axiom; an expression that has been visited before, inside
the same axiom or an earlier one, is not visited again. A second pass looks the levels of the
visited expressions up in the order of their sizes. What is found is the census, and the census says
exactly how often expressions occur, which ones there are and which ones are inside which.

* `Survey.Consistent.visit`, `Survey.consistent_ofList`: one visit, and a pass over axioms.
* `Census.collect?_eq_some`: both passes succeed and take the census.
* `Census.pairwise_bottomUp`: the order of the expressions of a census.
* `Census.describes_ofList`: what a census says about the axioms.
-/

namespace OntoFold

variable {axioms : List Axiom} {ax : Axiom} {e inner outer : ClassExpression}
  {es : List ClassExpression}

/-! ## The first pass -/

/-- What a pass over a corpus has found so far. -/
structure Survey where
  /-- How many nodes hold each expression. -/
  counts : SortedMap ClassExpression Nat := ∅
  /-- The expressions inside each visited expression. -/
  contents : SortedMap ClassExpression (SortedSet ClassExpression) := ∅
  /-- The visited expressions around each expression. -/
  containers : SortedMap ClassExpression (SortedSet ClassExpression) := ∅

namespace Survey

/-- Counts a node that holds an expression. -/
def count (s : Survey) (e : ClassExpression) : Survey :=
  { s with counts := s.counts.alter e fun n => n.getD 0 + 1 }

/-- Files an expression under everything inside it, unless it has been visited before. -/
def visit (s : Survey) (e : ClassExpression) : Survey :=
  if s.contents.contains e then s
  else { s with
    contents := s.contents.insert e e.strictlyNested
    containers := e.strictlyNested.toList.foldl (fun m inner => m.extend inner [e]) s.containers }

/-- Counts the nodes of the tree of an axiom and visits what is nested inside the axiom. -/
def add (s : Survey) (ax : Axiom) : Survey :=
  ax.nested.toList.foldl visit ((Census.classNodes ax).foldl count s)

/-- The pass over some axioms. -/
def ofList (axioms : List Axiom) : Survey := axioms.foldl add {}

variable {s : Survey}

/-! ## Counting -/

theorem counts_visit : (s.visit e).counts = s.counts := by
  unfold visit
  split <;> rfl

theorem counts_foldl_visit : (es.foldl visit s).counts = s.counts := by
  induction es generalizing s with
  | nil => rfl
  | cons e es ih => rw [List.foldl_cons, ih, counts_visit]

theorem foldl_count : es.foldl count s =
    { s with counts := es.foldl (fun m e => m.alter e fun n => n.getD 0 + 1) s.counts } := by
  induction es generalizing s with
  | nil => rfl
  | cons e es ih =>
    rw [List.foldl_cons, ih]
    rfl

theorem counts_foldl_add : (axioms.foldl add s).counts =
    (axioms.flatMap Census.classNodes).foldl (fun m e => m.alter e fun n => n.getD 0 + 1)
      s.counts := by
  induction axioms generalizing s with
  | nil => rfl
  | cons ax axioms ih =>
    rw [List.foldl_cons, ih, add, counts_foldl_visit, foldl_count, List.flatMap_cons,
      List.foldl_append]

/-! ## Visiting -/

/-- The contents of the visited expressions are right, and the visited expressions are filed under
them. -/
structure Consistent (s : Survey) : Prop where
  contents : ∀ e inside, s.contents.get? e = some inside → inside = e.strictlyNested
  containers : ∀ inner outer, s.containers.HasMember inner outer ↔
    s.contents.contains outer = true ∧ inner ∈ outer.strictlyNested
  peopled : s.containers.Peopled

theorem consistent_empty : Consistent {} where
  contents _ _ h := nomatch h
  containers _ _ := by
    rw [iff_false_left SortedMap.not_hasMember_empty]
    rintro ⟨h, -⟩
    cases h
  peopled := SortedMap.peopled_empty

/-- A visit adds the visited expression. -/
theorem contains_visit :
    (s.visit e).contents.contains inner = true ↔
      inner = e ∨ s.contents.contains inner = true := by
  unfold visit
  split
  · next hOld =>
    refine ⟨Or.inr, ?_⟩
    rintro (rfl | h)
    · exact hOld
    · exact h
  · exact SortedMap.contains_alter

/-- A visit keeps a survey consistent, whether the expression is new or not. -/
theorem Consistent.visit (h : s.Consistent) (e : ClassExpression) : (s.visit e).Consistent := by
  by_cases hOld : s.contents.contains e = true
  · rwa [Survey.visit, if_pos hOld]
  · constructor
    case contents =>
      intro x inside hGet
      rw [Survey.visit, if_neg hOld] at hGet
      by_cases hSame : x = e
      · rw [hSame, SortedMap.get?_insert_self] at hGet
        rw [hSame, Option.some.inj hGet]
      · rw [SortedMap.get?_insert_ne hSame] at hGet
        exact h.contents x inside hGet
    case containers =>
      intro x y
      rw [contains_visit, Survey.visit, if_neg hOld]
      refine Census.hasMember_foldl_inside.trans ?_
      rw [h.containers, or_comm, or_and_right]
      refine or_congr ⟨?_, ?_⟩ Iff.rfl
      · rintro ⟨hInside, rfl⟩
        exact ⟨rfl, hInside⟩
      · rintro ⟨rfl, hInside⟩
        exact ⟨hInside, rfl⟩
    case peopled =>
      rw [Survey.visit, if_neg hOld]
      exact h.peopled.foldl_extend _

theorem contains_foldl_visit :
    (es.foldl visit s).contents.contains e = true ↔ e ∈ es ∨ s.contents.contains e = true := by
  induction es generalizing s with
  | nil => simp
  | cons x es ih =>
    rw [List.foldl_cons, ih, contains_visit, List.mem_cons, or_left_comm, or_assoc]

theorem contains_add :
    (s.add ax).contents.contains e = true ↔ e ∈ ax.nested ∨ s.contents.contains e = true := by
  rw [add, contains_foldl_visit, foldl_count]
  exact Iff.rfl

theorem Consistent.add (h : s.Consistent) (ax : Axiom) : (s.add ax).Consistent := by
  have hCounted : ((Census.classNodes ax).foldl count s).Consistent := by
    rw [foldl_count]
    exact ⟨h.contents, h.containers, h.peopled⟩
  exact List.foldlRecOn _ _ hCounted fun s hs e _ => hs.visit e

theorem consistent_ofList (axioms : List Axiom) : (ofList axioms).Consistent :=
  List.foldlRecOn axioms add consistent_empty fun _ hs ax _ => hs.add ax

/-- A pass visits what is nested inside the axioms. -/
theorem contains_ofList :
    (ofList axioms).contents.contains e = true ↔ ∃ ax ∈ axioms, e ∈ ax.nested := by
  have hRun : ∀ s : Survey, (axioms.foldl Survey.add s).contents.contains e = true ↔
      (∃ ax ∈ axioms, e ∈ ax.nested) ∨ s.contents.contains e = true := by
    induction axioms with
    | nil => simp
    | cons ax axioms ih =>
      intro s
      rw [List.foldl_cons, ih, contains_add, or_left_comm, ← or_assoc]
      simp only [List.mem_cons, or_and_right, exists_or, exists_eq_left]
  rw [ofList, hRun]
  exact or_iff_left (by simp [SortedMap.contains])

end Survey

/-! ## The second pass -/

namespace Census

/-- The levels of some expressions, looked up in the order of their sizes. -/
def findLevels? (contents : SortedMap ClassExpression (SortedSet ClassExpression)) :
    Option (SortedMap ClassExpression Nat) :=
  ((sizeBuckets contents.keys.toList).values.flatMap SortedSet.toList).foldlM
    (fun found e => (levelFrom? contents found e).map (found.insert e)) ∅

/-- The census taken step by step: a pass over the axioms, and one over the expressions. -/
def collect? (axioms : List Axiom) : Option Census :=
  let survey := Survey.ofList axioms
  (findLevels? survey.contents).map fun found =>
    { counts := survey.counts
      containers := survey.containers
      levels := found.toList.foldl (fun m x => m.extend x.2 [x.1]) ∅ }

theorem counts_survey (axioms : List Axiom) :
    (Survey.ofList axioms).counts = (ofList axioms).counts := Survey.counts_foldl_add

theorem contents_survey (axioms : List Axiom) :
    (Survey.ofList axioms).contents = contents axioms := by
  have hSurvey := Survey.consistent_ofList axioms
  apply SortedMap.ext
  intro e
  apply Option.ext
  intro inside
  have hVisited : (Survey.ofList axioms).contents.contains e = true ↔
      ∃ ax ∈ axioms, e ∈ ax.positions := by
    simpa only [Axiom.nested, SortedSet.mem_ofList] using Survey.contains_ofList
  rw [get?_contents, ← hVisited, SortedMap.contains_iff]
  constructor
  · exact fun hGet => ⟨⟨inside, hGet⟩, hSurvey.contents e inside hGet⟩
  · rintro ⟨⟨inside', hGet⟩, rfl⟩
    rwa [← hSurvey.contents e inside' hGet]

theorem peopled_containers (axioms : List Axiom) : (ofList axioms).containers.Peopled :=
  List.foldlRecOn _ _ SortedMap.peopled_empty fun _ hm _ _ => hm.foldl_extend _

theorem containers_survey (axioms : List Axiom) :
    (Survey.ofList axioms).containers = (ofList axioms).containers := by
  have hSurvey := Survey.consistent_ofList axioms
  apply SortedMap.ext_hasMember hSurvey.peopled (peopled_containers axioms)
  intro inner outer
  rw [hSurvey.containers, hasMember_containers, Survey.contains_ofList]
  simp only [Axiom.nested, SortedSet.mem_ofList]

/-- Taking a census step by step never fails and gives the census. -/
theorem collect?_eq_some (axioms : List Axiom) : collect? axioms = some (ofList axioms) := by
  obtain ⟨found, hFound, hLevels⟩ := levels?_eq_some axioms
  have hGroups : found.toList.foldl (fun m x => m.extend x.2 [x.1]) ∅ =
      (ofList axioms).levels := by
    apply SortedMap.ext_hasMember (SortedMap.peopled_empty.foldl_extend _)
      (SortedMap.peopled_empty.foldl_extend _)
    intro level e
    rw [SortedMap.hasMember_foldl_extend, or_iff_right SortedMap.not_hasMember_empty]
    refine Iff.trans ?_ (hLevels e level).symm
    rw [SortedMap.get?_eq_some_iff]
    simp
  have hFind : findLevels? (contents axioms) = some found := hFound
  rw [collect?, contents_survey, hFind, Option.map_some, hGroups, counts_survey,
    containers_survey]

/-! ## What a census says -/

variable {census : Census}

/-- The expressions of a census come without repetitions and by ascending levels. -/
theorem pairwise_bottomUp (axioms : List Axiom) :
    (ofList axioms).bottomUp.Pairwise fun e e' => e ≠ e' ∧ e.level ≤ e'.level := by
  rw [bottomUp, SortedMap.flatMap_values, List.pairwise_reverse]
  refine List.Pairwise.imp ?_ (SortedMap.groupBy_descending ClassExpression.level _)
  rintro e e' ⟨hNe, hLevel⟩
  rw [Ne, Nat.compare_eq_gt] at hLevel
  exact ⟨hNe.symm, Nat.le_of_not_lt hLevel⟩

theorem nodup_bottomUp (axioms : List Axiom) : (ofList axioms).bottomUp.Nodup :=
  (pairwise_bottomUp axioms).imp And.left

theorem contains_tally {counts : SortedMap ClassExpression Nat} :
    (es.foldl (fun m e => m.alter e fun n => n.getD 0 + 1) counts).contains e = true ↔
      e ∈ es ∨ counts.contains e = true := by
  induction es generalizing counts with
  | nil => simp
  | cons x es ih =>
    rw [List.foldl_cons, ih, SortedMap.contains_alter, List.mem_cons, or_left_comm, or_assoc]

/-- A census counts every expression of the axioms. -/
theorem contains_counts :
    (ofList axioms).counts.contains e = true ↔ ∃ ax ∈ axioms, e ∈ ax.positions := by
  refine contains_tally.trans ?_
  rw [flatMap_classNodes, List.mem_flatMap]
  exact or_iff_left (by simp [SortedMap.contains])

theorem size_eq_length (axioms : List Axiom) :
    (ofList axioms).size = (ofList axioms).bottomUp.length := by
  have hKeys : (ofList axioms).counts.keys = .ofList (ofList axioms).bottomUp := by
    apply SortedSet.ext
    intro e
    rw [SortedMap.mem_keys, contains_counts, SortedSet.mem_ofList, mem_bottomUp]
  rw [size, ← SortedMap.size_keys, hKeys, SortedSet.size_ofList (nodup_bottomUp axioms)]

/-- What lies inside an expression of a census comes before it. -/
theorem idxOf_lt (hOuter : outer ∈ (ofList axioms).bottomUp)
    (hInner : inner ∈ outer.strictlyNested) :
    (ofList axioms).bottomUp.idxOf inner < (ofList axioms).bottomUp.idxOf outer := by
  obtain ⟨ax, hAx, hPositions⟩ := mem_bottomUp.1 hOuter
  have hNested := ClassExpression.mem_positions_of_mem_strictlyNested hInner
  have hMem : inner ∈ (ofList axioms).bottomUp :=
    mem_bottomUp.2 ⟨ax, hAx, Axiom.mem_positions_trans hPositions hNested⟩
  have hLevel := ClassExpression.level_lt_of_mem_strictlyNested hInner
  have hInnerLt := List.idxOf_lt_length_of_mem hMem
  have hOuterLt := List.idxOf_lt_length_of_mem hOuter
  by_contra hNot
  rcases Nat.lt_or_eq_of_le (Nat.le_of_not_lt hNot) with hLt | hSame
  · have hOrder := List.pairwise_iff_getElem.1 (pairwise_bottomUp axioms) _ _ hOuterLt hInnerLt hLt
    rw [List.getElem_idxOf, List.getElem_idxOf] at hOrder
    exact Nat.not_le.2 hLevel hOrder.2
  · obtain rfl := (List.idxOf_inj hOuter).1 hSame
    exact Nat.lt_irrefl _ hLevel

/-- What lies strictly inside an expression occurs at least as often. -/
theorem occurrences_le (axioms : List Axiom) (h : inner ∈ outer.strictlyNested) :
    (ofList axioms).occurrences outer ≤ (ofList axioms).occurrences inner := by
  have hNested := ClassExpression.mem_positions_of_mem_strictlyNested h
  rw [occurrences_ofList, occurrences_ofList]
  exact count_flatMap_le fun ax _ => Axiom.count_le_of_mem_positions hNested ax

/-- A census is exact for some axioms. -/
structure Describes (census : Census) (axioms : List Axiom) : Prop where
  /-- Occurrences are positions in the axioms, where the class that a disjoint union defines has a
  position of its own. -/
  occurrences : ∀ e, census.occurrences e = (axioms.map fun ax => ax.positions.count e).sum
  /-- No expression is listed twice. -/
  nodup : census.bottomUp.Nodup
  /-- The expressions are those nested inside the axioms. -/
  mem_bottomUp : ∀ e, e ∈ census.bottomUp ↔ ∃ ax ∈ axioms, e ∈ ax.nested
  size : census.size = census.bottomUp.length
  occurs_iff : ∀ e, 0 < census.occurrences e ↔ e ∈ census.bottomUp
  /-- The expressions around an expression are those of the census that have it inside. -/
  containers : ∀ inner, (census.containers? inner).getD ∅ =
    .ofList (census.bottomUp.filter fun outer => inner ∈ outer.strictlyNested)
  containers_ne : ∀ inner, census.containers? inner ≠ some ∅
  /-- What lies inside an expression is listed before it. -/
  inside_first : ∀ outer ∈ census.bottomUp, ∀ inner ∈ outer.strictlyNested,
    census.bottomUp.idxOf inner < census.bottomUp.idxOf outer
  occurrences_le : ∀ outer, ∀ inner ∈ outer.strictlyNested,
    census.occurrences outer ≤ census.occurrences inner

theorem mem_getD_containers :
    outer ∈ ((ofList axioms).containers? inner).getD ∅ ↔
      outer ∈ (ofList axioms).bottomUp ∧ inner ∈ outer.strictlyNested := by
  rw [mem_bottomUp, ← hasMember_containers, containers?, SortedMap.HasMember]
  cases (ofList axioms).containers.get? inner <;> simp

/-- Taking a census step by step never fails, and what is taken is the exact census. -/
theorem describes_ofList (axioms : List Axiom) :
    collect? axioms = some (ofList axioms) ∧ (ofList axioms).Describes axioms := by
  refine ⟨collect?_eq_some axioms, ?_⟩
  constructor
  case occurrences =>
    intro e
    rw [occurrences_ofList, List.count_flatMap]
    rfl
  case nodup => exact nodup_bottomUp axioms
  case mem_bottomUp =>
    intro e
    simp only [mem_bottomUp, Axiom.nested, SortedSet.mem_ofList]
  case size => exact size_eq_length axioms
  case occurs_iff =>
    intro e
    rw [occurrences_ofList, List.count_pos_iff, List.mem_flatMap, mem_bottomUp]
  case containers =>
    intro inner
    apply SortedSet.ext
    intro outer
    rw [mem_getD_containers, SortedSet.mem_ofList, List.mem_filter, decide_eq_true_iff]
  case containers_ne =>
    intro inner hEmpty
    obtain ⟨outer, hOuter⟩ := peopled_containers axioms inner ∅ hEmpty
    exact SortedSet.not_mem_empty hOuter
  case inside_first => exact fun outer hOuter inner hInner => idxOf_lt hOuter hInner
  case occurrences_le => exact fun outer inner hInner => occurrences_le axioms hInner

end Census

end OntoFold
