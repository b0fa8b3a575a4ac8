import OntoFold.Proofs.Folding.Declared
import OntoFold.Proofs.Rewriting.Flaws
import OntoFold.Proofs.Rewriting.Sizes

/-!
# Folded axioms are smallest

With a threshold of at most one, every evaluation that is larger than a symbol is folded. What an
expression unfolds to then folds to something no larger than the expression: where the expression
has a symbol, its evaluation becomes a symbol again, and elsewhere folding replaces more or merges
operands. So axioms with the same unfolding have the same minimized axiom, and no axiom with this
unfolding is smaller.

* `Glossary.size_folding_unfolding_le`: folding what an expression unfolds to.
* `Source.minimized_eq`: a minimized axiom is determined by the unfolding.
* `Declared.ofList_minimal`: minimized axioms and published definitions are smallest.
-/

namespace OntoFold

open ClassExpression (byName)

/-! ## Folding what was unfolded -/

namespace Glossary

variable {g : Glossary} {entry : Entry} {threshold : Nat}

/-- Symbols are not larger than what is folded. -/
theorem size_le_of_folding {t r : ClassExpression} (h : g.folding threshold t = some r) :
    r.size ≤ t.size := by
  obtain ⟨-, symbol, -, rfl⟩ := folding_eq_some.1 h
  exact t.one_le_size

section

variable (hThreshold : threshold ≤ 1)

include hThreshold

/-- What a symbol stands for is folded to the size of a symbol. -/
theorem size_folding_evaluation_le {n : Iri} {e : ClassExpression} (hn : g.evaluation? n = some e) :
    (e.rewrite (g.folding threshold)).size ≤ 1 := by
  by_cases hLarge : threshold < e.size
  · obtain ⟨symbol, hSymbol⟩ := exists_symbolFor hn
    rw [ClassExpression.rewrite_of_eq_some (folding_eq_some.2 ⟨hLarge, symbol, hSymbol, rfl⟩)]
    exact Nat.le_refl _
  · have hFolded : (e.rewrite (g.folding threshold)).size ≤ e.size :=
      ClassExpression.size_rewrite_le fun _ _ => size_le_of_folding
    omega

/-- Folding what an expression unfolds to gives nothing larger than the expression. -/
theorem size_folding_unfolding_le (x : ClassExpression) :
    ((x.rewrite (byName g.evaluation?)).rewrite (g.folding threshold)).size ≤ x.size := by
  induction x using ClassExpression.operands_induction with
  | step x ih =>
    cases hName : x.name? with
    | some n =>
      obtain rfl := ClassExpression.eq_named_of_name? hName
      rw [ClassExpression.rewrite_byName_named]
      cases hn : g.evaluation? n with
      | some e => exact size_folding_evaluation_le hThreshold hn
      | none => exact ClassExpression.size_rewrite_le fun _ _ => size_le_of_folding
    | none =>
      rw [ClassExpression.rewrite_byName_of_name? hName]
      cases hs : g.folding threshold
          (x.mapOperands (ClassExpression.rewrite (byName g.evaluation?))) with
      | some r =>
        obtain ⟨-, symbol, -, rfl⟩ := folding_eq_some.1 hs
        rw [ClassExpression.rewrite_of_eq_some hs]
        exact x.one_le_size
      | none =>
        rw [ClassExpression.rewrite_of_eq_none hs, ClassExpression.mapOperands_mapOperands]
        exact ClassExpression.size_mapOperands_le ih

/-- No other expression that is not a name and unfolds to the evaluation is smaller than the
published definition. -/
theorem Closed.size_foldedEvaluation_le (hg : g.Closed) (hEntry : entry ∈ g.toList)
    {x : ClassExpression} (hName : x.name? = none)
    (hx : x.rewrite (byName g.evaluation?) = entry.evaluation) :
    (g.foldedEvaluation threshold entry).size ≤ x.size := by
  rw [hg.foldedEvaluation_eq hEntry, ← hx, ClassExpression.rewrite_byName_of_name? hName,
    ClassExpression.mapOperands_mapOperands]
  exact ClassExpression.size_mapOperands_le fun o _ =>
    size_folding_unfolding_le hThreshold o

end

end Glossary

/-! ## Minimized axioms -/

namespace Source

variable {source : Source} {options : Options} {ax : Axiom}

section

variable (hg : source.glossary.Closed) (hAx : ax.Canonical)
  (hWellFormed : (ax.rewrite (byName source.glossary.evaluation?)).WellFormed)

include hg hAx hWellFormed

/-- An axiom that is not kept becomes its unfolding. -/
theorem expanded_eq (hDefinition : source.isDefinition ax = false) :
    source.expanded ax = ax.rewrite (byName source.glossary.evaluation?) := by
  rw [expanded_eq_keeping hg hAx hDefinition, Axiom.keeping_of_wellFormed hWellFormed]

/-- What a well-formed unfolding folds to is well formed, since it unfolds to the same axiom. -/
theorem contracted_unfolding_eq (threshold : Nat) :
    source.contracted threshold (ax.rewrite (byName source.glossary.evaluation?)) =
      (ax.rewrite (byName source.glossary.evaluation?)).rewrite
        (source.glossary.folding threshold) := by
  have hUnfolding : source.Exchanged ax (ax.rewrite (byName source.glossary.evaluation?)) :=
    ⟨_, fun _ hStep => Glossary.exchanges_unfoldSteps hg.toOrderly hStep,
      (hg.rewriteEach_unfoldSteps hAx).symm⟩
  have hFolds := hg.rewriteEach_foldSteps (hUnfolding.canonical hg.toOrderly hAx) threshold
  have hFolding : source.Exchanged ax _ :=
    hUnfolding.trans ⟨_, fun _ hStep => Glossary.exchanges_foldSteps hStep, hFolds.symm⟩
  rw [contracted, hFolds]
  apply Axiom.keeping_of_wellFormed
  apply Axiom.wellFormed_of_rewrite (σ := byName source.glossary.evaluation?)
  · exact fun o _ t _ r hr => ClassExpression.flaw?_of_byName hr
  · rwa [hFolding.unfold_eq hg]

/-- A minimized axiom is determined by what the axiom unfolds to. -/
theorem minimized_eq (hDefinition : source.isDefinition ax = false) (options : Options) :
    source.minimized options ax = (ax.rewrite (byName source.glossary.evaluation?)).rewrite
      (source.glossary.folding options.contraction) := by
  rw [minimized, definitionFor?_eq_none hDefinition, Option.getD_none,
    expanded_eq hg hAx hWellFormed hDefinition, contracted_unfolding_eq hg hAx hWellFormed]

end

/-- Folding what an axiom unfolds to gives nothing larger than the axiom. -/
theorem size_folding_unfolding_le {g : Glossary} {threshold : Nat} (hThreshold : threshold ≤ 1)
    (ax : Axiom) :
    ((ax.rewrite (byName g.evaluation?)).rewrite (g.folding threshold)).size ≤ ax.size := by
  rw [Axiom.rewrite_eq, Axiom.rewrite_eq, Axiom.mapClasses_mapClasses]
  exact Axiom.size_mapClasses_le fun o _ => Glossary.size_folding_unfolding_le hThreshold o

end Source

/-! ## Declared symbols -/

namespace Declared

variable {axioms : List Axiom} {options : Options}

/-- Unfolding declared symbols leaves the class that a disjoint union defines alone. -/
theorem unfolding_eq (options : Options) (ax : Axiom) :
    ax.rewrite (byName (declaredOf axioms options).source.glossary.evaluation?) =
      ax.mapClasses id
        (ClassExpression.rewrite (byName (declaredOf axioms options).glossary.evaluation?)) := by
  apply Axiom.rewrite_eq_of_complex
  intro t r hr
  obtain ⟨n, -, hn⟩ := Option.bind_eq_some_iff.1 hr
  exact name?_of_evaluation hn

/-- Reading symbols off some axioms never fails. With thresholds of at most one, axioms that are no
definitions and unfold to the same well-formed axiom have the same minimized axiom, which is not
larger than any of them; unfolding leaves the class that a disjoint union defines alone. The
published definition of a symbol unfolds to its evaluation and is not larger than any other
expression that is not a name and does so. -/
theorem ofList_minimal (hAxioms : ∀ ax ∈ axioms, ax.Canonical)
    (hContraction : options.contraction ≤ 1) (hDefinition : options.declaredDefinition ≤ 1) :
    ∃ d, (ofList axioms options).result = .ok d ∧
      (∀ a b : Axiom, a.Canonical → b.Canonical →
        d.source.isDefinition a = false → d.source.isDefinition b = false →
        a.mapClasses id (ClassExpression.rewrite (byName d.glossary.evaluation?)) =
          b.mapClasses id (ClassExpression.rewrite (byName d.glossary.evaluation?)) →
        (a.mapClasses id (ClassExpression.rewrite (byName d.glossary.evaluation?))).WellFormed →
        ∃ r s m, (d.source.record options a).result = .ok r ∧
          (d.source.record options b).result = .ok s ∧
          r.minimized.decodeAxiom = .ok m ∧ s.minimized.decodeAxiom = .ok m ∧ m.size ≤ b.size) ∧
      ∀ n e, d.glossary.evaluation? n = some e →
        ∃ x, d.glossary.definition? n = some x ∧ x.name? = none ∧
          x.rewrite (byName d.glossary.evaluation?) = e ∧
          ∀ y : ClassExpression, y.name? = none →
            y.rewrite (byName d.glossary.evaluation?) = e → x.size ≤ y.size := by
  have hClosed := closed_source hAxioms options
  refine ⟨_, ofList_result hAxioms options, ?_, ?_⟩
  · intro a b ha hb hA hB hSame hWellFormed
    simp only [← unfolding_eq] at hSame hWellFormed
    have hRecords := hasCanonicalDefinitions hAxioms options
    obtain ⟨r, hr, hRecord⟩ := Source.record_result hClosed.toOrderly hRecords ha options
    obtain ⟨s, hs, hRecord'⟩ := Source.record_result hClosed.toOrderly hRecords hb options
    have hMinimized := Source.minimized_eq hClosed hb (hSame ▸ hWellFormed) hB options
    have hEq : (declaredOf axioms options).source.minimized options a =
        (declaredOf axioms options).source.minimized options b := by
      rw [Source.minimized_eq hClosed ha hWellFormed hA, hSame, hMinimized]
    refine ⟨r, s, _, hr, hs, hRecord.minimized.decodeAxiom, ?_, ?_⟩
    · rw [hEq]
      exact hRecord'.minimized.decodeAxiom
    · rw [hEq, hMinimized]
      exact Source.size_folding_unfolding_le hContraction b
  · intro n e he
    obtain ⟨entry, hGet, rfl⟩ := Glossary.evaluation?_eq_some.1 he
    obtain ⟨X, hX, rfl⟩ := get?_entriesOf.1 hGet
    have hEntry := entryOf_mem_entriesOf hX
    have hEntries := closed_entriesOf hAxioms
    refine ⟨_, definition?_declaredOf hAxioms hX, name?_definitionOf hAxioms hX, ?_, ?_⟩
    · exact hEntries.unfold_foldedEvaluation hEntry options.declaredDefinition
    · exact fun y hName hy => hEntries.size_foldedEvaluation_le hDefinition hEntry hName hy

/-- An axiom and the same axiom with a symbol, where one evaluation is part of another one. -/
theorem ofList_minimal_nested :
    let link (p : String) (e : ClassExpression) : ClassExpression :=
      .quantified .existential (.named ⟨p⟩) e
    let chain : ClassExpression := link "s" (link "r" (.named ⟨"C"⟩))
    let axioms : List Axiom := [
      .equivalent [.named ⟨"M"⟩, link "r" (.named ⟨"C"⟩)],
      .equivalent [.named ⟨"N"⟩, link "s" (.named ⟨"M"⟩)]]
    let a : Axiom := .subClassOf (.named ⟨"A"⟩) (link "t" chain)
    let b : Axiom := .subClassOf (.named ⟨"A"⟩) (link "t" (link "s" (.named ⟨"M"⟩)))
    (∀ ax ∈ axioms, ax.Canonical) ∧
    ∃ d, (ofList axioms {}).result = .ok d ∧
      (∃ r s m, (d.source.record {} a).result = .ok r ∧ (d.source.record {} b).result = .ok s ∧
        r.minimized.decodeAxiom = .ok m ∧ s.minimized.decodeAxiom = .ok m ∧ m.size ≤ b.size) ∧
      ∃ x, d.glossary.definition? ⟨"N"⟩ = some x ∧ x.name? = none ∧
        x.rewrite (byName d.glossary.evaluation?) = chain ∧
        ∀ y : ClassExpression, y.name? = none →
          y.rewrite (byName d.glossary.evaluation?) = chain → x.size ≤ y.size := by
  intro link chain axioms a b
  have hAxioms : ∀ ax ∈ axioms, ax.Canonical := by decide +kernel
  let options : Options := {}
  have hThreshold : options.contraction ≤ 1 ∧ options.declaredDefinition ≤ 1 := by decide
  obtain ⟨d, hRun, hMinimal, hDefinitions⟩ := ofList_minimal hAxioms hThreshold.1 hThreshold.2
  have hFacts : ∀ d, (ofList axioms {}).result = .ok d →
      d.source.isDefinition a = false ∧ d.source.isDefinition b = false ∧
        a.mapClasses id (ClassExpression.rewrite (byName d.glossary.evaluation?)) = a ∧
        b.mapClasses id (ClassExpression.rewrite (byName d.glossary.evaluation?)) = a ∧
        d.glossary.evaluation? ⟨"N"⟩ = some chain := by
    decide +kernel
  obtain ⟨hA, hB, hUnfoldA, hUnfoldB, hN⟩ := hFacts d hRun
  refine ⟨hAxioms, d, hRun, ?_, hDefinitions _ _ hN⟩
  apply hMinimal a b (by decide +kernel) (by decide +kernel) hA hB (hUnfoldA.trans hUnfoldB.symm)
  rw [hUnfoldA]
  decide +kernel

end Declared

end OntoFold
