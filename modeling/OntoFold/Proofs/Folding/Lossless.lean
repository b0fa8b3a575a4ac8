import OntoFold.Proofs.Folding.Records
import OntoFold.Proofs.Glossary.Discovery

/-!
# Folding with discovered symbols is lossless

Discovered symbols stand for expressions of the corpus. When no class of the corpus bears the name
of a symbol, the glossary is closed, so unfolding a minimized axiom gives back the axiom it was made
from.

* `Source.expanded_contracted`: unfolding undoes folding.
* `Discovered.closed_symbolsOf`: fresh symbols are mentioned by no evaluation.
* `Ontology.lossless_foldDiscovered`: the records of an ontology.
-/

namespace OntoFold

open ClassExpression (byName)

/-! ## Unfolding folded axioms -/

namespace Source

variable {source : Source} {ax : Axiom}

/-- Unfolding undoes folding in axioms without symbols. -/
theorem expanded_contracted (hg : source.glossary.Closed)
    (hDefinition : ∀ ax, source.isDefinition ax = false) (hAx : ax.Canonical)
    (hWellFormed : ax.WellFormed) (hFree : ∀ n ∈ ax.names, source.glossary.contains n = false)
    (threshold : Nat) : source.expanded (source.contracted threshold ax) = ax := by
  have hExchanged := exchanged_contracted source threshold ax
  have hUnfolded : ax.rewrite (byName source.glossary.evaluation?) = ax :=
    Axiom.rewrite_byName_eq_self hAx fun n hn => Glossary.contains_eq_false.1 (hFree n hn)
  rw [expanded, if_neg (by rw [hDefinition]; exact Bool.false_ne_true),
    hg.rewriteEach_unfoldSteps (hExchanged.canonical hg.toOrderly hAx), hExchanged.unfold_eq hg,
    hUnfolded, Axiom.keeping_of_wellFormed hWellFormed]

/-- The same for the axioms that folding an ontology ends with. -/
theorem expanded_minimized (hg : source.glossary.Closed)
    (hDefinition : ∀ ax, source.isDefinition ax = false) (hAx : ax.Canonical)
    (hWellFormed : ax.WellFormed) (hFree : ∀ n ∈ ax.names, source.glossary.contains n = false)
    (options : Options) : source.expanded (source.minimized options ax) = ax := by
  rw [minimized, definitionFor?_eq_none (hDefinition ax), Option.getD_none,
    expanded_eq_self hFree]
  exact expanded_contracted hg hDefinition hAx hWellFormed hFree options.contraction

end Source

/-! ## Discovered symbols -/

namespace Discovered

variable {axioms : List Axiom} {options : Options}

/-- Symbols that no axiom mentions are mentioned by no evaluation. -/
theorem closed_symbolsOf (hAxioms : ∀ ax ∈ axioms, ax.Canonical)
    (hFresh : ∀ ax ∈ axioms, ∀ n ∈ ax.names, (symbolsOf axioms options).contains n = false) :
    (symbolsOf axioms options).Closed := by
  refine ⟨orderly_symbolsOf hAxioms options, ?_⟩
  intro n e hn m hm
  obtain ⟨entry, hGet, rfl⟩ := Glossary.evaluation?_eq_some.1 hn
  obtain ⟨k, e, he, -, rfl⟩ := get?_symbolsOf.1 hGet
  obtain ⟨ax, hAx, hMem⟩ := mem_candidatesOf (List.mem_of_getElem? he)
  rw [← Glossary.contains_eq_false]
  exact hFresh ax hAx m (Axiom.mem_names_of_mem_positions hMem hm)

theorem glossary_source :
    (discoveredOf axioms options).source.glossary =
      (symbolsOf axioms options).published options.discoveredDefinition := rfl

theorem closed_source (hAxioms : ∀ ax ∈ axioms, ax.Canonical)
    (hFresh : ∀ ax ∈ axioms, ∀ n ∈ ax.names,
      (discoveredOf axioms options).source.glossary.contains n = false) :
    (discoveredOf axioms options).source.glossary.Closed := by
  simp only [glossary_source, Glossary.contains_published] at hFresh
  exact (closed_symbolsOf hAxioms hFresh).published options.discoveredDefinition

theorem hasCanonicalDefinitions (hAxioms : ∀ ax ∈ axioms, ax.Canonical) (options : Options) :
    (discoveredOf axioms options).source.HasCanonicalDefinitions := by
  intro n e hContains he
  rw [glossary_source] at hContains he
  exact Glossary.canonical_published (orderly_symbolsOf hAxioms options) hContains he

end Discovered

namespace Ontology

/-- Folding an ontology with the symbols discovered in it never fails and records the axioms without
complements. -/
theorem foldDiscovered_records {o : Ontology} (hAxioms : ∀ ax ∈ o.axioms, ax.Canonical)
    (options : Options) :
    ∃ records,
      (o.foldDiscovered options).result = .ok (Discovered.discoveredOf o.axioms.toList options,
        ⟨(Discovered.discoveredOf o.axioms.toList options).source, records⟩) ∧
      List.Forall₂ ((Discovered.discoveredOf o.axioms.toList options).source.IsRecord options)
        o.withoutComplements.toList records := by
  have hOrderly : (Discovered.discoveredOf o.axioms.toList options).source.glossary.Orderly :=
    (Discovered.orderly_symbolsOf hAxioms options).published options.discoveredDefinition
  obtain ⟨records, hRun, hRecords⟩ := fold_result hOrderly
    (Discovered.hasCanonicalDefinitions hAxioms options) hAxioms options
  refine ⟨records, ?_, hRecords⟩
  unfold foldDiscovered
  simp only [Run.result_bind, Discovered.ofList_result hAxioms options, hRun, Run.ok_bind]
  rfl

/-! ## Records -/

/-- Folding an ontology with the symbols discovered in it never fails. When no class of the ontology
bears the name of a symbol, the axioms without complements are recorded in order, unfolding leaves
them as they are, and unfolding a minimized axiom gives back the axiom; so different axioms have
different minimized axioms. -/
theorem lossless_foldDiscovered {o : Ontology} (hAxioms : ∀ ax ∈ o.axioms, ax.Canonical)
    (options : Options) :
    ∃ d folding, (o.foldDiscovered options).result = .ok (d, folding) ∧
      ((∀ n ∈ o.names, d.glossary.contains n = false) →
        List.Forall₂ (fun ax r => r.initial.decodeAxiom = .ok ax ∧ r.expanded.decodeAxiom = .ok ax ∧
            ∃ ax' a, r.minimized.decodeAxiom = .ok ax' ∧ (d.source.expand ax').result = .ok a ∧
              a.decodeAxiom = .ok ax)
          o.withoutComplements.toList folding.records ∧
        ∃ minimized, (folding.records.mapM fun r => r.minimized.decodeAxiom) = .ok minimized ∧
          minimized.Nodup) := by
  obtain ⟨records, hRun, hRecords⟩ := foldDiscovered_records hAxioms options
  refine ⟨_, _, hRun, fun hFresh => ?_⟩
  have hNames : ∀ ax ∈ o.axioms, ∀ n ∈ ax.names,
      (Discovered.discoveredOf o.axioms.toList options).source.glossary.contains n = false :=
    fun ax hAx n hn => hFresh n (SortedSet.mem_unions.2 ⟨_, List.mem_map_of_mem hAx, hn⟩)
  have hClosed := Discovered.closed_source hAxioms hNames
  have hUnfolds : ∀ ax ∈ o.axioms, (Discovered.discoveredOf o.axioms.toList options).source.expanded
      ((Discovered.discoveredOf o.axioms.toList options).source.minimized options ax) = ax :=
    fun ax hAx => Source.expanded_minimized hClosed (fun _ => rfl) (hAxioms ax hAx)
      (o.wellFormed ax hAx) (hNames ax hAx) options
  have hCovered : ∀ ax ∈ o.withoutComplements.toList, ax ∈ o.axioms := fun ax hAx =>
    (SortedSet.mem_filter.1 hAx).1
  refine ⟨((List.forall₂_and_left _ _).2 ⟨hCovered, hRecords⟩).imp ?_, _,
    mapM_eq_ok_of_forall₂ (hRecords.imp fun _ _ hRecord => hRecord.minimized.decodeAxiom), ?_⟩
  · rintro ax r ⟨hAx, hRecord⟩
    obtain ⟨a, hExpand, ha⟩ := Source.expand_result hClosed.toOrderly hRecord.minimized.canonical
    have hExpanded := hRecord.expanded.decodeAxiom
    rw [Source.expanded_eq_self (hNames ax hAx)] at hExpanded
    have hBack := ha.decodeAxiom
    rw [hUnfolds ax hAx] at hBack
    exact ⟨hRecord.initial.decodeAxiom, hExpanded, _, a, hRecord.minimized.decodeAxiom, hExpand,
      hBack⟩
  · apply List.Nodup.map_on _ o.withoutComplements.ascending.nodup
    intro ax hAx ax' hAx' hSame
    rw [← hUnfolds ax (hCovered ax hAx), hSame, hUnfolds ax' (hCovered ax' hAx')]

/-- With thresholds of zero named classes get symbols, one of them defined by a disjoint union. -/
theorem lossless_foldDiscovered_names :
    let link (p : String) (e : ClassExpression) : ClassExpression :=
      .quantified .existential (.named ⟨p⟩) e
    let o : Ontology := ⟨.ofList [
      .subClassOf (.named ⟨"A"⟩) (link "r" (link "s" (.named ⟨"C"⟩))),
      .subClassOf (.named ⟨"B"⟩) (link "r" (link "s" (.named ⟨"C"⟩))),
      .subClassOf (.named ⟨"B"⟩) (link "s" (.named ⟨"C"⟩)),
      .partition ⟨"A"⟩ [.named ⟨"C"⟩, .named ⟨"D"⟩]], by decide +kernel⟩
    let options : Options := { contraction := 0, symbolSize := 0 }
    (∀ ax ∈ o.axioms, ax.Canonical) ∧
    ∃ d folding, (o.foldDiscovered options).result = .ok (d, folding) ∧
      (∀ n ∈ o.names, d.glossary.contains n = false) ∧
      List.Forall₂ (fun ax r => r.initial.decodeAxiom = .ok ax ∧ r.expanded.decodeAxiom = .ok ax ∧
          ∃ ax' a, r.minimized.decodeAxiom = .ok ax' ∧ (d.source.expand ax').result = .ok a ∧
            a.decodeAxiom = .ok ax)
        o.withoutComplements.toList folding.records ∧
      ∃ minimized, (folding.records.mapM fun r => r.minimized.decodeAxiom) = .ok minimized ∧
        minimized.Nodup := by
  intro link o options
  have hAxioms : ∀ ax ∈ o.axioms, ax.Canonical := by decide +kernel
  obtain ⟨d, folding, hRun, hLossless⟩ := lossless_foldDiscovered hAxioms options
  have hSymbols : ∀ x, (o.foldDiscovered options).result = .ok x →
      ∀ n ∈ o.names, x.1.glossary.contains n = false := by
    decide +kernel
  have hFresh := hSymbols _ hRun
  exact ⟨hAxioms, d, folding, hRun, hFresh, hLossless hFresh⟩

end Ontology

end OntoFold
