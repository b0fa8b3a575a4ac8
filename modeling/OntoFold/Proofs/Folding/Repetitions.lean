import OntoFold.Proofs.Folding.Lossless
import OntoFold.Proofs.Folding.Minimality
import OntoFold.Proofs.Rewriting.Leftovers

/-!
# Folding leaves no repetitions

An expression that is large enough and occurs often enough either has a symbol or lies inside an
expression that has one and occurs as often. In the first case folding replaces it wherever it is
met. In the second case no occurrence stands outside the larger expression: it would be one more
than the larger expression has occurrences. Folding never refuses to fold an axiom here, since what
it makes of the axiom can be unfolded again.

* `Discovered.exists_candidate`: repeated expressions lie inside expressions with symbols.
* `Discovered.minimized_eq_rewrite`: the minimized axioms.
* `Discovered.not_mem_minimized`: what is repeated is absent from minimized axioms.
* `Ontology.no_repetition_foldDiscovered`: the records of an ontology.
-/

namespace OntoFold

open ClassExpression (byName)

/-- Unfolding undoes folding inside expressions. -/
theorem Glossary.Closed.unfold_folding {g : Glossary} (hg : g.Closed) (threshold : Nat)
    (x : ClassExpression) :
    (x.rewrite (g.folding threshold)).rewrite (byName g.evaluation?) =
      x.rewrite (byName g.evaluation?) := by
  apply ClassExpression.rewrite_rewrite_byName
  intro t r hr
  obtain ⟨-, symbol, hSymbol, rfl⟩ := folding_eq_some.1 hr
  exact (hg.unfold_symbol (hg.toOrderly.evaluation?_symbolFor hSymbol)).symm

namespace Discovered

variable {axioms : List Axiom} {options : Options} {ax : Axiom} {e p : ClassExpression}

/-! ## Candidates -/

/-- Repeated expressions lie inside candidates that occur as often. -/
theorem exists_candidate (hSize : options.symbolSize < e.size)
    (hOccurrences : options.symbolOccurrences < (censusOf axioms).occurrences e) :
    ∃ p ∈ candidatesOf axioms options, e ∈ p.positions ∧
      (censusOf axioms).occurrences p = (censusOf axioms).occurrences e := by
  obtain ⟨p, hCorpus, hInside, hSame, hUndominated⟩ := Census.exists_undominated
    (Census.exists_mem_positions (Nat.zero_lt_of_lt hOccurrences))
  have hLarge : options.symbolSize < p.size :=
    Nat.lt_of_lt_of_le hSize (ClassExpression.size_le_of_mem_positions hInside)
  have hOften : options.symbolOccurrences < (censusOf axioms).occurrences p := hSame ▸ hOccurrences
  exact ⟨p, isCandidateOf_iff.2 ⟨Census.mem_bottomUp.2 hCorpus, hLarge, hOften, hUndominated⟩,
    hInside, hSame⟩

/-- Candidates have symbols, so they are folded when they are above the threshold. -/
theorem folding_ne_none {threshold : Nat} (hp : p ∈ candidatesOf axioms options)
    (hThreshold : threshold < p.size) :
    (discoveredOf axioms options).source.glossary.folding threshold p ≠ none := by
  obtain ⟨k, hk⟩ := List.mem_iff_getElem?.1 hp
  have hGet := get?_symbolsOf.2 ⟨k, p, hk, rfl, rfl⟩
  obtain ⟨symbol, hSymbol⟩ :=
    Glossary.exists_symbolFor (Glossary.evaluation?_eq_some.2 ⟨_, hGet, rfl⟩)
  rw [glossary_source, Glossary.folding_published]
  exact Option.ne_none_iff_exists'.2
    ⟨_, Glossary.folding_eq_some.2 ⟨hThreshold, symbol, hSymbol, rfl⟩⟩

/-! ## Minimized axioms -/

section

variable (hAxioms : ∀ ax ∈ axioms, ax.Canonical)
  (hFresh : ∀ ax ∈ axioms, ∀ n ∈ ax.names,
    (discoveredOf axioms options).source.glossary.contains n = false)

include hAxioms hFresh

/-- There is nothing to unfold in what an axiom holds. -/
theorem unfold_eq_self (hAx : ax ∈ axioms) (he : e ∈ ax.positions) :
    e.rewrite (byName (discoveredOf axioms options).source.glossary.evaluation?) = e := by
  apply ClassExpression.rewrite_byName_eq_self
  · exact Axiom.canonical_of_mem_positions (hAxioms ax hAx) he
  · intro n hn
    exact Glossary.contains_eq_false.1 (hFresh ax hAx n (Axiom.mem_names_of_mem_positions he hn))

/-- An axiom is folded once, and this is never refused. -/
theorem minimized_eq_rewrite (hAx : ax ∈ axioms) (hWellFormed : ax.WellFormed) :
    (discoveredOf axioms options).source.minimized options ax =
      ax.rewrite ((discoveredOf axioms options).source.glossary.folding options.contraction) := by
  have hUnfold : ax.rewrite
      (byName (discoveredOf axioms options).source.glossary.evaluation?) = ax :=
    Axiom.rewrite_byName_eq_self (hAxioms ax hAx) fun n hn =>
      Glossary.contains_eq_false.1 (hFresh ax hAx n hn)
  have hUnfolded : (ax.rewrite
      (byName (discoveredOf axioms options).source.glossary.evaluation?)).WellFormed := by
    rwa [hUnfold]
  rw [Source.minimized_eq (closed_source hAxioms hFresh) (hAxioms ax hAx) hUnfolded rfl, hUnfold]

/-- A position of an expression of the axioms in a minimized axiom is one where the expression was
kept. -/
theorem kept_of_mem_minimized {ax' : Axiom} (hAx : ax ∈ axioms) (hWellFormed : ax.WellFormed)
    (hAx' : ax' ∈ axioms) (he : e ∈ ax'.positions)
    (hMem : e ∈ ((discoveredOf axioms options).source.minimized options ax).positions) :
    ∃ x ∈ ax.roots, ClassExpression.Kept
      ((discoveredOf axioms options).source.glossary.folding options.contraction) e x := by
  have hg := closed_source hAxioms hFresh
  rw [minimized_eq_rewrite hAxioms hFresh hAx hWellFormed] at hMem
  obtain ⟨x, hx, hMem⟩ :=
    Axiom.exists_root_of_mem_positions_rewrite (fun _ _ => Glossary.exists_name_of_folding) hMem
  refine ⟨x, hx, ?_⟩
  rcases ClassExpression.mem_positions_rewrite_cases hMem with ⟨t, r, hr, hSymbol⟩ | ⟨t, hKept, rfl⟩
  · -- Replacements are symbols, which the axioms do not mention.
    obtain ⟨-, symbol, hFor, rfl⟩ := Glossary.folding_eq_some.1 hr
    obtain rfl := List.mem_singleton.1 hSymbol
    have hMentioned : symbol ∈ ax'.names :=
      Axiom.mem_names_of_mem_positions he (ClassExpression.mem_names_named.2 rfl)
    have hAbsent := Glossary.contains_eq_false.1 (hFresh ax' hAx' symbol hMentioned)
    rw [hg.toOrderly.evaluation?_symbolFor hFor] at hAbsent
    cases hAbsent
  · -- Unfolded again, what a kept expression has become is the kept expression.
    have ht : t ∈ ax.positions := by
      rw [Axiom.positions_eq_roots]
      exact List.mem_flatMap.2 ⟨x, hx, hKept.mem_positions⟩
    have hSame := hg.unfold_folding options.contraction t
    rw [unfold_eq_self hAxioms hFresh hAx' he, unfold_eq_self hAxioms hFresh hAx ht] at hSame
    rwa [hSame]

/-- What is large and often repeated is absent from the minimized axioms of the corpus. -/
theorem not_mem_minimized (hWellFormed : ax.WellFormed)
    (hThreshold : options.contraction ≤ options.symbolSize) (hAx : ax ∈ corpusOf axioms)
    (hSize : options.symbolSize < e.size)
    (hOccurrences : options.symbolOccurrences < (censusOf axioms).occurrences e) :
    e ∉ ((discoveredOf axioms options).source.minimized options ax).positions := by
  intro hMem
  have hCorpus : ∀ ax ∈ corpusOf axioms, ax ∈ axioms := fun ax hAx =>
    (List.mem_filter.1 (SortedSet.mem_ofList.1 hAx)).1
  obtain ⟨ax', hAx', he⟩ := Census.exists_mem_positions (Nat.zero_lt_of_lt hOccurrences)
  obtain ⟨x, hx, hKept⟩ := kept_of_mem_minimized hAxioms hFresh (hCorpus ax hAx) hWellFormed
    (hCorpus ax' hAx') he hMem
  obtain ⟨p, hp, hInside, hSame⟩ := exists_candidate hSize hOccurrences
  have hFolded := folding_ne_none hp
    (Nat.lt_of_le_of_lt hThreshold (isCandidateOf_iff.1 hp).2.1)
  -- All other axioms have at least as many of the inner expression, and this one has more.
  have hMore := count_flatMap_lt (fun ax _ => Axiom.count_le_of_mem_positions hInside ax) hAx
    (Axiom.count_lt_of_kept hInside hFolded hx hKept)
  rw [censusOf, Census.occurrences_ofList, Census.occurrences_ofList] at hSame
  exact Nat.ne_of_lt hMore hSame

end

end Discovered

/-! ## Records -/

namespace Ontology

/-- The axioms that are searched for repetitions are those without complements. -/
theorem corpusOf_axioms (o : Ontology) :
    Discovered.corpusOf o.axioms.toList = o.withoutComplements := by
  apply SortedSet.ext
  intro ax
  rw [Discovered.corpusOf, SortedSet.mem_ofList, List.mem_filter, withoutComplements,
    SortedSet.mem_filter]
  rfl

/-- Folding an ontology with the symbols discovered in it never fails. When no class of the ontology
bears the name of a symbol, and axioms are folded at least down to the size above which expressions
get symbols, no minimized axiom holds an expression above this size that stands at more nodes of
the axioms without complements than an expression without a symbol may. -/
theorem no_repetition_foldDiscovered {o : Ontology} (hAxioms : ∀ ax ∈ o.axioms, ax.Canonical)
    {options : Options} (hThreshold : options.contraction ≤ options.symbolSize) :
    ∃ d folding, (o.foldDiscovered options).result = .ok (d, folding) ∧
      ((∀ n ∈ o.names, d.glossary.contains n = false) →
        ∀ e : ClassExpression, options.symbolSize < e.size →
          options.symbolOccurrences <
            (o.withoutComplements.toList.flatMap Census.classNodes).count e →
          List.Forall₂ (fun ax r => r.initial.decodeAxiom = .ok ax ∧
              ∃ ax', r.minimized.decodeAxiom = .ok ax' ∧ e ∉ ax'.nested)
            o.withoutComplements.toList folding.records) := by
  obtain ⟨records, hRun, hRecords⟩ := foldDiscovered_records hAxioms options
  refine ⟨_, _, hRun, fun hFresh e hSize hOccurrences => ?_⟩
  have hNames : ∀ ax ∈ o.axioms, ∀ n ∈ ax.names,
      (Discovered.discoveredOf o.axioms.toList options).source.glossary.contains n = false :=
    fun ax hAx n hn => hFresh n (SortedSet.mem_unions.2 ⟨_, List.mem_map_of_mem hAx, hn⟩)
  have hCensus : options.symbolOccurrences <
      (Discovered.censusOf o.axioms.toList).occurrences e := by
    rwa [Discovered.censusOf, Census.occurrences_ofList, corpusOf_axioms,
      ← Census.flatMap_classNodes]
  refine ((List.forall₂_and_left _ _).2 ⟨fun _ hAx => hAx, hRecords⟩).imp ?_
  rintro ax r ⟨hAx, hRecord⟩
  refine ⟨hRecord.initial.decodeAxiom, _, hRecord.minimized.decodeAxiom, ?_⟩
  rw [Axiom.nested, SortedSet.mem_ofList]
  have hCovered : ax ∈ o.axioms := (SortedSet.mem_filter.1 hAx).1
  exact Discovered.not_mem_minimized hAxioms hNames (o.wellFormed ax hCovered) hThreshold
    (o.corpusOf_axioms.symm ▸ hAx) hSize hCensus

/-- An expression that a larger one dominates, and a class that a disjoint union defines, which is
given a symbol since the thresholds are zero. -/
theorem no_repetition_foldDiscovered_dominated :
    let link (p : String) (e : ClassExpression) : ClassExpression :=
      .quantified .existential (.named ⟨p⟩) e
    let inner : ClassExpression := link "s" (.named ⟨"C"⟩)
    let o : Ontology := ⟨.ofList [
      .subClassOf (.named ⟨"A"⟩) (link "r" inner),
      .subClassOf (.named ⟨"B"⟩) (.combine .union [link "r" inner, .named ⟨"D"⟩]),
      .partition ⟨"A"⟩ [.named ⟨"D"⟩, link "r" (.named ⟨"B"⟩)],
      .subClassOf (.complement inner) inner], by decide +kernel⟩
    let options : Options := { contraction := 0, symbolSize := 0 }
    (∀ ax ∈ o.axioms, ax.Canonical) ∧ options.contraction ≤ options.symbolSize ∧
    ∃ d folding, (o.foldDiscovered options).result = .ok (d, folding) ∧
      (∀ n ∈ o.names, d.glossary.contains n = false) ∧
      ∀ e ∈ [inner, .named ⟨"A"⟩], options.symbolSize < e.size ∧
        options.symbolOccurrences <
          (o.withoutComplements.toList.flatMap Census.classNodes).count e ∧
        List.Forall₂ (fun ax r => r.initial.decodeAxiom = .ok ax ∧
            ∃ ax', r.minimized.decodeAxiom = .ok ax' ∧ e ∉ ax'.nested)
          o.withoutComplements.toList folding.records := by
  intro link inner o options
  have hAxioms : ∀ ax ∈ o.axioms, ax.Canonical := by decide +kernel
  have hThreshold : options.contraction ≤ options.symbolSize := by decide
  obtain ⟨d, folding, hRun, hAbsent⟩ := no_repetition_foldDiscovered hAxioms hThreshold
  have hSymbols : ∀ x, (o.foldDiscovered options).result = .ok x →
      ∀ n ∈ o.names, x.1.glossary.contains n = false := by
    decide +kernel
  have hFresh := hSymbols _ hRun
  have hRepeated : ∀ e ∈ [inner, .named ⟨"A"⟩], options.symbolSize < e.size ∧
      options.symbolOccurrences <
        (o.withoutComplements.toList.flatMap Census.classNodes).count e := by
    decide +kernel
  refine ⟨hAxioms, hThreshold, d, folding, hRun, hFresh, fun e he => ?_⟩
  obtain ⟨hSize, hOccurrences⟩ := hRepeated e he
  exact ⟨hSize, hOccurrences, hAbsent hFresh e hSize hOccurrences⟩

end Ontology

end OntoFold
