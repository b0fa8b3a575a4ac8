import OntoFold.Proofs.Dependency.Chains

/-!
# Rounds without a bound

What a candidate reaches is collected round by round until a round leaves nothing to go on with.
The closure of a graph bounds the rounds by the number of candidates, and the bound is never what
stops it: the rounds come to an end without it, with the same names collected.

* `DependencyGraph.Collects`: the rounds without a bound.
* `DependencyGraph.collects_close`: the closure makes all of them.
* `DependencyGraph.ofCandidates_reachability`: what a graph records is reachability, and its cyclic
  candidates are those with an endless chain of dependencies.
-/

namespace OntoFold

theorem SortedSet.union_sdiff_self {α : Type u} [Ord α] [Std.LawfulEqOrd α] [Std.TransOrd α]
    [DecidableEq α] (s t : SortedSet α) : s ∪ t \ s = s ∪ t := by
  apply SortedSet.ext
  intro a
  rw [SortedSet.mem_union, SortedSet.mem_union, SortedSet.mem_sdiff]
  by_cases ha : a ∈ s <;> simp [ha]

namespace DependencyGraph

/-- Rounds that start with some names collected and a frontier end with a result. A round collects
the frontier and goes on with what its fresh names lead to; an empty frontier ends the rounds. -/
inductive Collects (direct : Iri → SortedSet Iri) :
    SortedSet Iri → SortedSet Iri → SortedSet Iri → Prop
  | done {collected frontier : SortedSet Iri} (h : frontier.isEmpty = true) :
    Collects direct collected frontier collected
  | round {collected frontier result : SortedSet Iri} (h : ¬ frontier.isEmpty = true)
    (rest : Collects direct (collected ∪ frontier)
      (.unions ((frontier \ collected).toList.map direct)) result) :
    Collects direct collected frontier result

variable {direct : Iri → SortedSet Iri} {collected frontier start : SortedSet Iri}
  {candidates : Candidates} {x y : Iri}

/-- A frontier without a fresh name leads nowhere. -/
theorem Collects.of_known (h : (frontier \ collected).isEmpty = true) :
    Collects direct collected frontier collected := by
  by_cases hEmpty : frontier.isEmpty = true
  · exact .done hEmpty
  · have hNext : SortedSet.unions ((frontier \ collected).toList.map direct) = ∅ := by
      rw [List.isEmpty_iff.1 h]
      rfl
    have hSame : collected ∪ frontier = collected := by
      rw [← SortedSet.union_sdiff_self]
      apply SortedSet.ext
      intro a
      rw [SortedSet.mem_union]
      exact or_iff_left (SortedSet.isEmpty_iff.1 h a)
    refine .round hEmpty ?_
    rw [hNext, hSame]
    exact .done rfl

/-- With more rounds than names left to collect, the closure makes all rounds. -/
theorem collects_close (carrier : SortedSet Iri) {fuel : Nat}
    (h : Collecting direct start collected frontier)
    (hCarrier : ∀ x, ReachedFrom direct start x → x ∈ carrier)
    (hFuel : (carrier \ collected).size < fuel) :
    Collects direct collected frontier (close direct fuel collected frontier) := by
  induction fuel generalizing collected frontier with
  | zero => omega
  | succ fuel ih =>
    rw [close_succ]
    split
    · next hKnown => exact .of_known hKnown
    · next hFresh =>
      have hFewer := h.size_round_lt hCarrier hFresh
      have hRest := ih h.round (by omega)
      rw [SortedSet.union_sdiff_self] at hRest ⊢
      refine .round (fun hEmpty => hFresh ?_) hRest
      rw [SortedSet.isEmpty_iff] at hEmpty ⊢
      exact fun a ha => hEmpty a (SortedSet.mem_sdiff.1 ha).1

theorem mem_direct : y ∈ (ofCandidates candidates).direct x ↔ candidates.Mentions x y :=
  Candidates.mem_dependencies

/-- The rounds for a candidate end with what the graph records for it. -/
theorem collects_transitive? (h : candidates.contains x = true) :
    ∃ reached, (ofCandidates candidates).transitive? x = some reached ∧
      Collects (ofCandidates candidates).direct ∅ ((ofCandidates candidates).direct x) reached := by
  refine ⟨_, transitive?_eq_some.2 ⟨h, rfl⟩, ?_⟩
  exact collects_close candidates.keys (Collecting.initial _ _) (fun _ => mem_keys_of_reachedFrom)
    (size_keys_sdiff_lt ∅)

/-- The graph of some candidates lists the candidates that an expansion of a name mentions. For each
candidate the rounds come to an end, and what is recorded then are the candidates to which a chain
of mentions leads from it. The self-dependent candidates are those that such a chain leads back to,
and the cyclic ones are those with an endless chain of dependencies. -/
theorem ofCandidates_reachability (candidates : Candidates) :
    (∀ x y, y ∈ (ofCandidates candidates).direct x ↔ candidates.Mentions x y) ∧
    (∀ x, candidates.contains x = true →
      ∃ reached, (ofCandidates candidates).transitive? x = some reached ∧
        Collects (ofCandidates candidates).direct ∅ ((ofCandidates candidates).direct x) reached ∧
        ∀ y, (y ∈ reached ↔ candidates.Reaches x y) ∧
          ((ofCandidates candidates).dependsOn x y = true ↔ candidates.Reaches x y)) ∧
    (∀ x, x ∈ (ofCandidates candidates).selfDependent ↔ candidates.Reaches x x) ∧
    ∀ x, x ∈ (ofCandidates candidates).cyclic ↔ ∃ chain : Nat → Iri, chain 0 = x ∧
      ∀ k, chain (k + 1) ∈ (ofCandidates candidates).direct (chain k) := by
  refine ⟨fun _ _ => mem_direct, ?_, fun _ => mem_selfDependent, fun x => ?_⟩
  · intro x hx
    obtain ⟨reached, hGet, hCollects⟩ := collects_transitive? hx
    have hMem : ∀ y, y ∈ reached ↔ candidates.Reaches x y := by
      intro y
      rw [← (transitive?_eq_some.1 hGet).2, mem_closure]
    refine ⟨reached, hGet, hCollects, fun y => ⟨hMem y, ?_⟩⟩
    rw [dependsOn, hGet, Option.any_some, decide_eq_true_eq, hMem]
  · simp only [mem_direct]
    exact mem_cyclic_iff_chain

/-- A circle of two candidates, a candidate that mentions itself, and one that leads into the circle
on two ways without being on it. -/
theorem ofCandidates_reachability_circle :
    let link (p : String) (e : ClassExpression) : ClassExpression :=
      .quantified .existential (.named ⟨p⟩) e
    let candidates : Candidates := ((((∅ : Candidates).insert ⟨"A"⟩
      (.ofList [link "r" (.named ⟨"B"⟩)])).insert ⟨"B"⟩
      (.ofList [link "s" (.named ⟨"A"⟩), link "s" (.named ⟨"C"⟩)])).insert ⟨"D"⟩
      (.ofList [link "r" (.named ⟨"A"⟩), link "r" (.named ⟨"B"⟩)])).insert ⟨"N"⟩
      (.ofList [link "t" (.named ⟨"N"⟩)])
    candidates.contains ⟨"D"⟩ = true ∧
    (candidates.Reaches ⟨"D"⟩ ⟨"B"⟩ ∧ ¬ candidates.Reaches ⟨"D"⟩ ⟨"D"⟩ ∧
      ¬ candidates.Reaches ⟨"D"⟩ ⟨"C"⟩) ∧
    candidates.Reaches ⟨"N"⟩ ⟨"N"⟩ ∧
    ∃ chain : Nat → Iri, chain 0 = ⟨"D"⟩ ∧
      ∀ k, chain (k + 1) ∈ (ofCandidates candidates).direct (chain k) := by
  intro link candidates
  obtain ⟨-, hTransitive, hSelf, hCyclic⟩ := ofCandidates_reachability candidates
  have hContains : candidates.contains ⟨"D"⟩ = true := by decide +kernel
  obtain ⟨reached, hGet, -, hReached⟩ := hTransitive ⟨"D"⟩ hContains
  have hList : (ofCandidates candidates).transitive? ⟨"D"⟩ = some (.ofList [⟨"A"⟩, ⟨"B"⟩]) := by
    decide +kernel
  obtain rfl := Option.some.inj (hGet.symm.trans hList)
  refine ⟨hContains, ⟨(hReached _).1.1 ?_, fun h => absurd ((hReached _).1.2 h) ?_,
    fun h => absurd ((hReached _).1.2 h) ?_⟩, (hSelf _).1 ?_, (hCyclic _).1 ?_⟩
  all_goals decide +kernel

end DependencyGraph

end OntoFold
