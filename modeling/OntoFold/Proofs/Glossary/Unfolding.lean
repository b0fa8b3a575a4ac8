import OntoFold.Glossary.Declared
import OntoFold.Proofs.Dependency.Reachability
import OntoFold.Proofs.Rewriting.Sequences

/-!
# Unfolding level by level

One level replaces the names of a frontier by their expansions, one name after another. A name
that is left over, or comes in again, belongs to the next frontier. What is reached from a
frontier shrinks from level to level, so the levels come to an end, and then no name with an
expansion is left.

* `Declared.mem_names_level`: the names after a level.
* `Declared.unfoldLevels_result`: what the levels make of an expression.
* `Declared.evaluate_result`: the evaluation of a symbol is its expansion with the evaluations of
  all other symbols in place.
-/

namespace OntoFold

open ClassExpression (byName)
open DependencyGraph (ofCandidates reached)

namespace Declared

variable {expansions : SortedMap Iri ClassExpression} {candidates : Candidates}
  {e X : ClassExpression} {n symbol : Iri} {names : List Iri}

/-! ## One level -/

/-- The replacements of one level. -/
def expansionSteps (expansions : SortedMap Iri ClassExpression) (names : List Iri) :
    List (ClassExpression × ClassExpression) :=
  names.filterMap fun name => (expansions.get? name).map fun X => (.named name, X)

theorem mem_expansionSteps {step : ClassExpression × ClassExpression} :
    step ∈ expansionSteps expansions names ↔
      ∃ n ∈ names, ∃ X, expansions.get? n = some X ∧ step = (.named n, X) := by
  rw [expansionSteps, List.mem_filterMap]
  refine exists_congr fun n => and_congr_right fun _ => ?_
  rw [Option.map_eq_some_iff]
  exact exists_congr fun X => and_congr_right fun _ => eq_comm

/-- The names with an expansion that are left after a level come from the expansions of this
level. -/
theorem mem_names_level {next : SortedSet Iri}
    (hNames : ∀ n ∈ e.names, expansions.contains n = true → n ∈ names ∨ n ∈ next)
    (hNext : ∀ m ∈ names, ∀ X, expansions.get? m = some X →
      ∀ n ∈ X.names, expansions.contains n = true → n ∈ next) :
    ∀ n ∈ (e.rewriteEach (expansionSteps expansions names)).names,
      expansions.contains n = true → n ∈ next := by
  induction names generalizing e with
  | nil =>
    intro n hn hContains
    exact (hNames n hn hContains).resolve_left List.not_mem_nil
  | cons m names ih =>
    have hRest : ∀ k ∈ names, ∀ X, expansions.get? k = some X →
        ∀ n ∈ X.names, expansions.contains n = true → n ∈ next :=
      fun k hk => hNext k (List.mem_cons_of_mem _ hk)
    unfold expansionSteps
    cases hGet : expansions.get? m with
    | none =>
      rw [List.filterMap_cons_none (by rw [hGet]; rfl)]
      apply ih _ hRest
      intro n hn hContains
      rcases hNames n hn hContains with hMem | hMem
      · rcases List.mem_cons.1 hMem with rfl | hMem
        · obtain ⟨X, hX⟩ := SortedMap.contains_iff.1 hContains
          rw [hGet] at hX
          cases hX
        · exact Or.inl hMem
      · exact Or.inr hMem
    | some X =>
      rw [List.filterMap_cons_some (by rw [hGet]; rfl)]
      apply ih _ hRest
      intro n hn hContains
      rcases ClassExpression.mem_names_replacing hn with ⟨hOld, hNe⟩ | hNew
      · rcases hNames n hOld hContains with hMem | hMem
        · exact Or.inl ((List.mem_cons.1 hMem).resolve_left hNe)
        · exact Or.inr hMem
      · exact Or.inr (hNext m List.mem_cons_self X hGet n hNew hContains)

/-! ## All levels -/

/-- Expansions of acyclic candidates. -/
structure Unfoldable (candidates : Candidates) (expansions : SortedMap Iri ClassExpression) :
    Prop where
  canonical : ∀ n X, expansions.get? n = some X → X.Canonical
  isExpansion : ∀ n X, expansions.get? n = some X → ∃ s, candidates.get? n = some s ∧ X ∈ s
  acyclic : ∀ n X, expansions.get? n = some X → n ∉ (ofCandidates candidates).cyclic

variable (h : Unfoldable candidates expansions)

include h

/-- The names with an expansion that an expansion mentions are dependencies. -/
theorem Unfoldable.mentions (hX : expansions.get? symbol = some X) (hn : n ∈ X.names)
    (hContains : expansions.contains n = true) : candidates.Mentions symbol n := by
  obtain ⟨s, hGet, hMem⟩ := h.isExpansion symbol X hX
  obtain ⟨Y, hY⟩ := SortedMap.contains_iff.1 hContains
  obtain ⟨t, hCandidate, -⟩ := h.isExpansion n Y hY
  exact ⟨s, hGet, ⟨X, hMem, hn⟩, SortedMap.contains_iff.2 ⟨t, hCandidate⟩⟩

omit h in
theorem unfoldLevels_of_isEmpty {graph : DependencyGraph} {fuel : Nat} {frontier : SortedSet Iri}
    {a : Arena} (hEmpty : frontier.isEmpty = true) :
    unfoldLevels expansions graph fuel frontier a = pure a := by
  unfold unfoldLevels
  rw [if_pos hEmpty]

omit h in
theorem unfoldLevels_succ {fuel : Nat} {frontier : SortedSet Iri} {a b : Arena} {total : Nat}
    (hFresh : ¬ frontier.isEmpty = true)
    (hRun : (a.substituteClasses (expansionSteps expansions frontier.toList) 0).result =
      .ok (total, b)) :
    (unfoldLevels expansions (ofCandidates candidates) (fuel + 1) frontier a).result =
      (unfoldLevels expansions (ofCandidates candidates) fuel
        (.unions (frontier.toList.map candidates.dependencies)) b).result := by
  rw [unfoldLevels, if_neg hFresh, Run.result_bind]
  show (a.substituteClasses (expansionSteps expansions frontier.toList) 0).result >>= _ = _
  rw [hRun]
  rfl

/-- The state between two levels: the arena holds the expression, and the names with an expansion
that are left in it are in the frontier. -/
structure Between (candidates : Candidates) (expansions : SortedMap Iri ClassExpression)
    (symbol : Iri) (frontier : SortedSet Iri) (e : ClassExpression) (a : Arena) : Prop where
  encodes : a.Encodes (.bare (.ofClass e))
  canonical : e.Canonical
  reaches : ∀ n ∈ frontier, candidates.Reaches symbol n
  names : ∀ n ∈ e.names, expansions.contains n = true → n ∈ frontier

omit h in
theorem mem_next {frontier : SortedSet Iri} :
    n ∈ SortedSet.unions (frontier.toList.map candidates.dependencies) ↔
      ∃ m ∈ frontier, candidates.Mentions m n := by
  rw [SortedSet.mem_unions]
  constructor
  · rintro ⟨s, hs, hn⟩
    obtain ⟨m, hm, rfl⟩ := List.mem_map.1 hs
    exact ⟨m, hm, Candidates.mem_dependencies.1 hn⟩
  · rintro ⟨m, hm, hMentions⟩
    exact ⟨_, List.mem_map_of_mem hm, Candidates.mem_dependencies.2 hMentions⟩

/-- A level never fails and leads to the next frontier. -/
theorem Between.level {frontier : SortedSet Iri} {a : Arena}
    (hBetween : Between candidates expansions symbol frontier e a) :
    ∃ total b,
      (a.substituteClasses (expansionSteps expansions frontier.toList) 0).result =
        .ok (total, b) ∧
      Between candidates expansions symbol
        (.unions (frontier.toList.map candidates.dependencies))
        (e.rewriteEach (expansionSteps expansions frontier.toList)) b := by
  have hSteps : ∀ step ∈ expansionSteps expansions frontier.toList, step.2.Canonical := by
    intro step hStep
    obtain ⟨n, -, X, hX, rfl⟩ := mem_expansionSteps.1 hStep
    exact h.canonical n X hX
  obtain ⟨total, b, hRun, hb⟩ :=
    hBetween.encodes.substituteClasses_ofClass hBetween.canonical hSteps
  refine ⟨total, b, hRun, hb,
    ClassExpression.canonical_rewriteEach hSteps hBetween.canonical, ?_, ?_⟩
  · intro n hn
    obtain ⟨m, hm, hMentions⟩ := mem_next.1 hn
    exact (hBetween.reaches m hm).tail hMentions
  · apply mem_names_level
    · intro n hn hContains
      exact Or.inl (hBetween.names n hn hContains)
    · intro m hm X hX n hn hContains
      exact mem_next.2 ⟨m, hm, h.mentions hX hn hContains⟩

/-- Values for the names below a symbol that satisfy the definitions of these names. -/
structure Solves (candidates : Candidates) (expansions : SortedMap Iri ClassExpression)
    (symbol : Iri) (f : Iri → Option ClassExpression) : Prop where
  none : ∀ n, expansions.get? n = none → f n = none
  some : ∀ n X, candidates.Reaches symbol n → expansions.get? n = some X →
    f n = some (X.rewrite (byName f))

omit h in
/-- Between the last two levels nothing is left to unfold. -/
theorem Between.rewrite_eq_self {f : Iri → Option ClassExpression} {frontier : SortedSet Iri}
    {a : Arena} (hBetween : Between candidates expansions symbol frontier e a)
    (hEmpty : frontier.isEmpty = true) (hf : Solves candidates expansions symbol f) :
    e.rewrite (byName f) = e := by
  apply ClassExpression.rewrite_byName_eq_self hBetween.canonical
  intro n hn
  apply hf.none
  rw [← SortedMap.contains_eq_false, Bool.eq_false_iff]
  exact fun hContains => SortedSet.isEmpty_iff.1 hEmpty n (hBetween.names n hn hContains)

omit h in
/-- A level puts in place what the names of the frontier stand for. -/
theorem Between.rewrite_level {f : Iri → Option ClassExpression} {frontier : SortedSet Iri}
    {a : Arena} (hBetween : Between candidates expansions symbol frontier e a)
    (hf : Solves candidates expansions symbol f) :
    (e.rewriteEach (expansionSteps expansions frontier.toList)).rewrite (byName f) =
      e.rewrite (byName f) := by
  apply ClassExpression.rewrite_rewriteEach
  intro step hStep
  obtain ⟨n, hn, X, hX, rfl⟩ := mem_expansionSteps.1 hStep
  rw [ClassExpression.rewrite_byName_named, hf.some n X (hBetween.reaches n hn) hX,
    Option.getD_some]

/-- Below an acyclic symbol the levels come to an end. They put in place what the names with an
expansion stand for, and leave none of these names. -/
theorem unfoldLevels_result {f : Iri → Option ClassExpression}
    (hAcyclic : symbol ∉ (ofCandidates candidates).cyclic)
    (hf : Solves candidates expansions symbol f) {fuel : Nat} {frontier : SortedSet Iri}
    {a : Arena} (hBetween : Between candidates expansions symbol frontier e a)
    (hFuel : ∀ n ∈ frontier, (reached candidates n).size < fuel) :
    ∃ b last, (unfoldLevels expansions (ofCandidates candidates) fuel frontier a).result = .ok b ∧
      last.isEmpty = true ∧
      Between candidates expansions symbol last (e.rewrite (byName f)) b := by
  induction fuel generalizing frontier a e with
  | zero =>
    have hEmpty : frontier.isEmpty = true :=
      SortedSet.isEmpty_iff.2 fun n hn => Nat.not_lt_zero _ (hFuel n hn)
    rw [hBetween.rewrite_eq_self hEmpty hf, unfoldLevels_of_isEmpty hEmpty]
    exact ⟨a, frontier, rfl, hEmpty, hBetween⟩
  | succ fuel ih =>
    by_cases hEmpty : frontier.isEmpty = true
    · rw [hBetween.rewrite_eq_self hEmpty hf, unfoldLevels_of_isEmpty hEmpty]
      exact ⟨a, frontier, rfl, hEmpty, hBetween⟩
    obtain ⟨total, b, hRun, hNext⟩ := hBetween.level h
    rw [unfoldLevels_succ hEmpty hRun, ← hBetween.rewrite_level hf]
    apply ih hNext
    intro n hn
    obtain ⟨m, hm, hMentions⟩ := mem_next.1 hn
    have hBelow := DependencyGraph.not_mem_cyclic_of_reaches hAcyclic (hBetween.reaches m hm)
    have hLt := DependencyGraph.size_reached_lt hBelow (.single hMentions)
    have hm := hFuel m hm
    omega

/-! ## Evaluations -/

/-- What an expansion with no name left to unfold stands for, for each name. -/
def evaluationOf (expansions : SortedMap Iri ClassExpression) (candidates : Candidates)
    (n : Iri) : Option ClassExpression :=
  (expansions.get? n).bind fun X =>
    (evaluate expansions (ofCandidates candidates) n X).result.toOption

omit h in
theorem evaluationOf_eq_none (hX : expansions.get? n = none) :
    evaluationOf expansions candidates n = none := by
  rw [evaluationOf, hX, Option.bind_none]

omit h in
theorem evaluationOf_eq_some {v : ClassExpression} (hX : expansions.get? n = some X)
    (hv : (evaluate expansions (ofCandidates candidates) n X).result = .ok v) :
    evaluationOf expansions candidates n = some v := by
  rw [evaluationOf, hX, Option.bind_some, hv]
  rfl

theorem evaluate_of_solves {f : Iri → Option ClassExpression}
    (hX : expansions.get? symbol = some X)
    (hf : Solves candidates expansions symbol f) :
    (evaluate expansions (ofCandidates candidates) symbol X).result =
        .ok (X.rewrite (byName f)) ∧
      (X.rewrite (byName f)).Canonical ∧
      ∀ n ∈ (X.rewrite (byName f)).names, expansions.contains n = false := by
  have hAcyclic := h.acyclic symbol X hX
  obtain ⟨a, hStart, ha⟩ := Arena.ofPhrase_encodes (.ofClass X) none
  have hBetween : Between candidates expansions symbol (candidates.dependencies symbol) X a := by
    refine ⟨ha, h.canonical symbol X hX, ?_, ?_⟩
    · intro n hn
      exact .single (Candidates.mem_dependencies.1 hn)
    · intro n hn hContains
      exact Candidates.mem_dependencies.2 (h.mentions hX hn hContains)
  have hFuel : ∀ n ∈ candidates.dependencies symbol,
      (reached candidates n).size < (ofCandidates candidates).size := by
    intro n hn
    have hReaches : candidates.Reaches symbol n := .single (Candidates.mem_dependencies.1 hn)
    exact DependencyGraph.size_reached_lt_size
      (DependencyGraph.not_mem_cyclic_of_reaches hAcyclic hReaches) hReaches.contains_right
  obtain ⟨b, last, hRun, hEmpty, hLast⟩ := unfoldLevels_result h hAcyclic hf hBetween hFuel
  refine ⟨?_, hLast.canonical, ?_⟩
  · unfold evaluate
    simp only [Run.result_bind, Run.result_liftM, hStart, Run.ok_bind]
    show (unfoldLevels expansions (ofCandidates candidates) (ofCandidates candidates).size
      (candidates.dependencies symbol) a).result >>= _ = _
    rw [hRun, Run.ok_bind]
    exact hLast.encodes.decodeClass hLast.canonical
  · intro n hn
    rw [Bool.eq_false_iff]
    exact fun hContains => SortedSet.isEmpty_iff.1 hEmpty n (hLast.names n hn hContains)

/-- The evaluations satisfy the definitions. -/
theorem evaluationOf_eq (hX : expansions.get? n = some X) :
    evaluationOf expansions candidates n =
      some (X.rewrite (byName (evaluationOf expansions candidates))) := by
  -- What a symbol reaches shrinks on the way down.
  induction hSize : (reached candidates n).size using Nat.strongRecOn generalizing n X with
  | ind size ih =>
    apply evaluationOf_eq_some hX
    refine (evaluate_of_solves h hX ⟨fun m => evaluationOf_eq_none, ?_⟩).1
    intro m Y hReaches hY
    have hLt := DependencyGraph.size_reached_lt (h.acyclic n X hX) hReaches
    rw [hSize] at hLt
    exact ih _ hLt hY rfl

/-- A symbol evaluates to its expansion with the evaluations of the other symbols in place, and
this mentions none of them. -/
theorem evaluate_result (hX : expansions.get? symbol = some X) :
    (evaluate expansions (ofCandidates candidates) symbol X).result =
        .ok (X.rewrite (byName (evaluationOf expansions candidates))) ∧
      (X.rewrite (byName (evaluationOf expansions candidates))).Canonical ∧
      ∀ n ∈ (X.rewrite (byName (evaluationOf expansions candidates))).names,
        expansions.contains n = false :=
  evaluate_of_solves h hX ⟨fun _ => evaluationOf_eq_none, fun _ _ _ hY => evaluationOf_eq h hY⟩

end Declared

end OntoFold
