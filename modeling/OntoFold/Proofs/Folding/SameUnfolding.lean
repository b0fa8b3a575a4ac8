import OntoFold.Proofs.Folding.Declared
import OntoFold.Proofs.Folding.Minimality

/-!
# Folding keeps unfoldings

Whatever a stage does to an axiom, also when it keeps the axiom because the outcome would be
ill-formed, the outcome is reached by exchanging symbols and evaluations, and unfolding does not
notice such exchanges. An axiom that defines a symbol is the exception: it becomes the published
definition of the symbol, and what this definition unfolds to is the evaluation.

* `Source.unfold_expanded`, `Source.unfold_minimized`: the stages keep unfoldings.
* `Declared.unfold_definitionOf`, `Declared.unfold_expansion`: definitions unfold to evaluations.
* `Declared.ofList_sameUnfolding`: the records made with declared symbols.
-/

namespace OntoFold

open ClassExpression (byName)

/-! ## Stages -/

namespace Source

variable {source : Source} {ax : Axiom}

section

variable (hg : source.glossary.Closed)

include hg

theorem unfold_expanded (ax : Axiom) :
    (source.expanded ax).rewrite (byName source.glossary.evaluation?) =
      ax.rewrite (byName source.glossary.evaluation?) :=
  (exchanged_expanded hg.toOrderly ax).unfold_eq hg

/-- Minimized axioms unfold to what the axioms unfold to, unless they are published definitions. -/
theorem unfold_minimized (hNone : source.definitionFor? ax = none) (options : Options) :
    (source.minimized options ax).rewrite (byName source.glossary.evaluation?) =
      ax.rewrite (byName source.glossary.evaluation?) := by
  rcases minimizes_minimized hg.toOrderly options ax with hSome | ⟨-, hExchanged⟩
  · rw [hNone] at hSome
    cases hSome
  · exact hExchanged.unfold_eq hg

end

end Source

/-! ## Declared symbols -/

namespace Declared

variable {axioms : List Axiom} {options : Options} {ax : Axiom} {n : Iri} {X : ClassExpression}

theorem unfold_definitionOf (hAxioms : ∀ ax ∈ axioms, ax.Canonical)
    (hX : (expansionsOf axioms).get? n = some X) :
    (definitionOf axioms options n X).rewrite
      (byName (declaredOf axioms options).glossary.evaluation?) =
        (entryOf axioms n X).evaluation :=
  (closed_entriesOf hAxioms).unfold_foldedEvaluation (entryOf_mem_entriesOf hX)
    options.declaredDefinition

theorem unfold_expansion (hAxioms : ∀ ax ∈ axioms, ax.Canonical) (n : Iri) (X : ClassExpression) :
    X.rewrite (byName (declaredOf axioms options).glossary.evaluation?) =
      (entryOf axioms n X).evaluation := by
  rw [evaluation?_declaredOf hAxioms]
  rfl

/-- Axioms that abbreviate no symbol are not replaced by published definitions. -/
theorem definitionFor?_declaredOf_eq_none (hAxioms : ∀ ax ∈ axioms, ax.Canonical)
    (h : ∀ n X, (expansionsOf axioms).get? n = some X → ax ∈ axioms → ¬ ax.Abbreviates n X) :
    (declaredOf axioms options).source.definitionFor? ax = none := by
  apply Option.eq_none_iff_forall_ne_some.2
  intro ax' hSome
  obtain ⟨n, X, hX, hAbbreviation, hn, hMem, -⟩ := definitionFor?_declaredOf hAxioms hSome
  obtain ⟨e, he⟩ := hAbbreviation.exists_abbreviates hn
  obtain rfl := (abbreviates_iff_of_expansion hX).1 ⟨ax, hMem, he⟩
  exact h n e hX hMem he

/-- Reading symbols off some axioms never fails, and neither does recording any axiom with them,
whether it is one of the given axioms or not. An axiom that defines a symbol becomes the equivalence
of the symbol with an expression that unfolds to the evaluation of the symbol, as its expansion
does. Any other axiom unfolds to the same axiom before, between and after the stages of folding;
unfolding leaves the class that a disjoint union defines alone. -/
theorem ofList_sameUnfolding (hAxioms : ∀ ax ∈ axioms, ax.Canonical) (options : Options) :
    ∃ d, (ofList axioms options).result = .ok d ∧
      ∀ (ax : Axiom) (options' : Options), ax.Canonical →
        ∃ r e m, (d.source.record options' ax).result = .ok r ∧
          r.expanded.decodeAxiom = .ok e ∧ r.minimized.decodeAxiom = .ok m ∧
          (∀ n entry, d.glossary.get? n = some entry →
            ax ∈ axioms → ax.Abbreviates n entry.expansion →
            ∃ D, m = .define n D ∧
              D.rewrite (byName d.glossary.evaluation?) = entry.evaluation ∧
              entry.expansion.rewrite (byName d.glossary.evaluation?) = entry.evaluation) ∧
          ((∀ n entry, d.glossary.get? n = some entry →
            ax ∈ axioms → ¬ ax.Abbreviates n entry.expansion) →
            e.mapClasses id (ClassExpression.rewrite (byName d.glossary.evaluation?)) =
              ax.mapClasses id (ClassExpression.rewrite (byName d.glossary.evaluation?)) ∧
            m.mapClasses id (ClassExpression.rewrite (byName d.glossary.evaluation?)) =
              ax.mapClasses id (ClassExpression.rewrite (byName d.glossary.evaluation?))) := by
  have hClosed := closed_source hAxioms options
  refine ⟨_, ofList_result hAxioms options, fun ax options' hAx => ?_⟩
  obtain ⟨r, hRun, hRecord⟩ := Source.record_result hClosed.toOrderly
    (hasCanonicalDefinitions hAxioms options) hAx options'
  refine ⟨r, _, _, hRun, hRecord.expanded.decodeAxiom, hRecord.minimized.decodeAxiom, ?_, ?_⟩
  · intro n entry hGet hMem hAbbreviates
    obtain ⟨X, hX, rfl⟩ := get?_entriesOf.1 hGet
    refine ⟨definitionOf axioms options n X, ?_, unfold_definitionOf hAxioms hX,
      unfold_expansion hAxioms n X⟩
    rw [Source.minimized, definitionFor?_of_abbreviates hAxioms hX hMem hAbbreviates,
      Option.getD_some]
  · intro hOther
    have hNone : (declaredOf axioms options).source.definitionFor? ax = none := by
      apply definitionFor?_declaredOf_eq_none hAxioms
      exact fun n X hX => hOther n (entryOf axioms n X) (get?_entriesOf.2 ⟨X, hX, rfl⟩)
    simp only [← unfolding_eq]
    exact ⟨Source.unfold_expanded hClosed ax, Source.unfold_minimized hClosed hNone options'⟩

/-- The definition of a symbol that mentions another one, an axiom of an ambiguous name, and an
axiom from elsewhere that would become ill-formed at both stages. -/
theorem ofList_sameUnfolding_refused :
    let link (p : String) (e : ClassExpression) : ClassExpression :=
      .quantified .existential (.named ⟨p⟩) e
    let definition : Axiom := .equivalent [.named ⟨"N"⟩, link "s" (.named ⟨"M"⟩)]
    let ambiguous : Axiom :=
      .equivalent [.named ⟨"A"⟩, link "r" (.named ⟨"C"⟩), link "t" (.named ⟨"M"⟩)]
    let axioms : List Axiom :=
      [.equivalent [.named ⟨"M"⟩, link "r" (.named ⟨"C"⟩)], definition, ambiguous]
    let refused : Axiom := .disjoint [.named ⟨"M"⟩, link "r" (.named ⟨"C"⟩)]
    (∀ ax ∈ axioms, ax.Canonical) ∧
    ∃ d, (ofList axioms {}).result = .ok d ∧
      (∃ r D, (d.source.record {} definition).result = .ok r ∧
        r.minimized.decodeAxiom = .ok (.define ⟨"N"⟩ D) ∧
        D.rewrite (byName d.glossary.evaluation?) = link "s" (link "r" (.named ⟨"C"⟩))) ∧
      (∃ r m, (d.source.record {} ambiguous).result = .ok r ∧ r.minimized.decodeAxiom = .ok m ∧
        m.mapClasses id (ClassExpression.rewrite (byName d.glossary.evaluation?)) =
          .equivalent [.named ⟨"A"⟩, link "r" (.named ⟨"C"⟩),
            link "t" (link "r" (.named ⟨"C"⟩))]) ∧
      ∃ r e m, (d.source.record {} refused).result = .ok r ∧
        r.expanded.decodeAxiom = .ok e ∧ r.minimized.decodeAxiom = .ok m ∧
        e.mapClasses id (ClassExpression.rewrite (byName d.glossary.evaluation?)) =
          .disjoint [link "r" (.named ⟨"C"⟩)] ∧
        m.mapClasses id (ClassExpression.rewrite (byName d.glossary.evaluation?)) =
          .disjoint [link "r" (.named ⟨"C"⟩)] := by
  intro link definition ambiguous axioms refused
  have hAxioms : ∀ ax ∈ axioms, ax.Canonical := by decide +kernel
  obtain ⟨d, hRun, hRecords⟩ := ofList_sameUnfolding hAxioms {}
  have hFacts : ∀ d, (ofList axioms {}).result = .ok d →
      (d.glossary.get? ⟨"N"⟩).map (fun entry => (entry.expansion, entry.evaluation)) =
        some (link "s" (.named ⟨"M"⟩), link "s" (link "r" (.named ⟨"C"⟩))) ∧
      d.glossary.contains ⟨"A"⟩ = false ∧
      ambiguous.mapClasses id (ClassExpression.rewrite (byName d.glossary.evaluation?)) =
        .equivalent [.named ⟨"A"⟩, link "r" (.named ⟨"C"⟩),
          link "t" (link "r" (.named ⟨"C"⟩))] ∧
      refused.mapClasses id (ClassExpression.rewrite (byName d.glossary.evaluation?)) =
        .disjoint [link "r" (.named ⟨"C"⟩)] := by
    decide +kernel
  obtain ⟨hN, hA, hAmbiguous, hRefused⟩ := hFacts d hRun
  obtain ⟨entry, hGet, hEntry⟩ := Option.map_eq_some_iff.1 hN
  obtain ⟨hExpansion, hEvaluation⟩ := Prod.mk.inj hEntry
  refine ⟨hAxioms, d, hRun, ?_, ?_, ?_⟩
  · obtain ⟨r, e, m, hRecord, -, hMinimized, hDefinition, -⟩ :=
      hRecords definition {} (by decide +kernel)
    have hAbbreviates : definition.Abbreviates ⟨"N"⟩ entry.expansion := by
      rw [hExpansion]
      exact ⟨⟨_, rfl, rfl⟩, by decide +kernel, by decide +kernel⟩
    obtain ⟨D, rfl, hD, -⟩ := hDefinition _ _ hGet (by decide +kernel) hAbbreviates
    exact ⟨r, D, hRecord, hMinimized, hD.trans hEvaluation⟩
  · obtain ⟨r, e, m, hRecord, -, hMinimized, -, hOther⟩ :=
      hRecords ambiguous {} (by decide +kernel)
    refine ⟨r, m, hRecord, hMinimized, (hOther ?_).2.trans hAmbiguous⟩
    intro n entry hGet _ hAbbreviates
    obtain rfl : n = ⟨"A"⟩ :=
      hAbbreviates.isAbbreviation.eq_of_named hAbbreviates.named (by decide +kernel)
    exact absurd (SortedMap.contains_iff.2 ⟨entry, hGet⟩) (Bool.eq_false_iff.1 hA)
  · obtain ⟨r, e, m, hRecord, hExpanded, hMinimized, -, hOther⟩ :=
      hRecords refused {} (by decide +kernel)
    obtain ⟨he, hm⟩ := hOther fun _ _ _ hMem => absurd hMem (by decide +kernel)
    exact ⟨r, e, m, hRecord, hExpanded, hMinimized, he.trans hRefused, hm.trans hRefused⟩

end Declared

end OntoFold
