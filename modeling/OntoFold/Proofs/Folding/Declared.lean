import OntoFold.Proofs.Folding.Records
import OntoFold.Proofs.Glossary.Declaration

/-!
# Folding with declared symbols

The axioms that abbreviate a symbol become its published definition; the symbols of an ontology
are closed, so folding it never fails.

* `Declared.definitionFor?_of_abbreviates`, `Declared.definitionFor?_declaredOf`: the axioms that
  become published definitions.
* `Ontology.foldDeclared_records`: the records of an ontology.
-/

namespace OntoFold

namespace Declared

variable {axioms : List Axiom} {options : Options} {ax ax' : Axiom} {n : Iri}
  {X : ClassExpression}

/-! ## Published definitions -/

theorem closed_source (hAxioms : ∀ ax ∈ axioms, ax.Canonical) (options : Options) :
    (declaredOf axioms options).source.glossary.Closed :=
  (closed_entriesOf hAxioms).published options.declaredDefinition

/-- The published definition of a symbol. -/
def definitionOf (axioms : List Axiom) (options : Options) (n : Iri) (X : ClassExpression) :
    ClassExpression :=
  (entriesOf axioms).foldedEvaluation options.declaredDefinition (entryOf axioms n X)

/-- A published definition is not a name. -/
theorem name?_definitionOf (hAxioms : ∀ ax ∈ axioms, ax.Canonical)
    (hX : (expansionsOf axioms).get? n = some X) :
    (definitionOf axioms options n X).name? = none := by
  have hClosed := closed_entriesOf hAxioms
  have hEntry := entryOf_mem_entriesOf hX
  rw [definitionOf, hClosed.foldedEvaluation_eq hEntry, ClassExpression.name?_mapOperands]
  exact name?_of_evaluation (hClosed.evaluation?_symbol hEntry)

theorem definition?_declaredOf (hAxioms : ∀ ax ∈ axioms, ax.Canonical)
    (hX : (expansionsOf axioms).get? n = some X) :
    (declaredOf axioms options).glossary.definition? n = some (definitionOf axioms options n X) :=
  Glossary.definition?_published (orderly_entriesOf hAxioms) (get?_entriesOf.2 ⟨X, hX, rfl⟩)

theorem contains_declaredOf :
    (declaredOf axioms options).glossary.contains n = true ↔
      ∃ X, (expansionsOf axioms).get? n = some X :=
  (Bool.eq_iff_iff.1 contains_entriesOf).trans SortedMap.contains_iff

/-- An axiom that defines a symbol becomes the published definition of the symbol. -/
theorem definitionFor?_of_abbreviates (hAxioms : ∀ ax ∈ axioms, ax.Canonical)
    (hX : (expansionsOf axioms).get? n = some X) (hMem : ax ∈ axioms)
    (hAx : ax.Abbreviates n X) :
    (declaredOf axioms options).source.definitionFor? ax =
      some (.define n (definitionOf axioms options n X)) := by
  obtain ⟨k, hNames⟩ := hAx.isAbbreviation.names
  obtain rfl : n = k := by
    have hn := ClassExpression.mem_filterMap_name?.2 hAx.named
    rw [hNames] at hn
    exact List.mem_singleton.1 hn
  have hDefinition : (declaredOf axioms options).source.isDefinition ax = true :=
    DefinitionIndex.isDefinition_ofList.2 ⟨hMem, hAx.isAbbreviation⟩
  have hFind : [n].find? (declaredOf axioms options).glossary.contains = some n :=
    List.find?_cons_of_pos (contains_declaredOf.2 ⟨X, hX⟩)
  obtain ⟨operands, rfl⟩ := hAx.isAbbreviation.equivalent
  have hNames : operands.filterMap ClassExpression.name? = [n] := hNames
  unfold Source.definitionFor?
  dsimp only
  rw [if_pos hDefinition, hNames]
  show ([n].find? (declaredOf axioms options).glossary.contains).bind _ = _
  rw [hFind, Option.bind_some]
  show ((declaredOf axioms options).glossary.definition? n).bind _ = _
  rw [definition?_declaredOf hAxioms hX]
  rfl

/-- Only such axioms do. -/
theorem definitionFor?_declaredOf (hAxioms : ∀ ax ∈ axioms, ax.Canonical)
    (h : (declaredOf axioms options).source.definitionFor? ax = some ax') :
    ∃ n X, (expansionsOf axioms).get? n = some X ∧ ax.IsAbbreviation ∧
      .named n ∈ ax.operands ∧ ax ∈ axioms ∧ ax' = .define n (definitionOf axioms options n X) := by
  obtain ⟨operands, n, e, rfl, hDefinition, hn, hContains, he, rfl⟩ :=
    Source.definitionFor?_eq_some h
  obtain ⟨X, hX⟩ := contains_declaredOf.1 hContains
  obtain ⟨hMem, hAbbreviation⟩ := DefinitionIndex.isDefinition_ofList.1 hDefinition
  obtain rfl := Option.some.inj (he.symm.trans (definition?_declaredOf hAxioms hX))
  exact ⟨n, X, hX, hAbbreviation, hn, hMem, rfl⟩

theorem hasCanonicalDefinitions (hAxioms : ∀ ax ∈ axioms, ax.Canonical) (options : Options) :
    (declaredOf axioms options).source.HasCanonicalDefinitions := fun _ _ hContains he =>
  Glossary.canonical_published (orderly_entriesOf hAxioms) hContains he

end Declared

/-! ## Records -/

/-- Folding an ontology with the symbols it declares never fails and records all axioms. -/
theorem Ontology.foldDeclared_records {o : Ontology} (hAxioms : ∀ ax ∈ o.axioms, ax.Canonical)
    (options : Options) :
    ∃ records,
      (o.foldDeclared options).result = .ok (Declared.declaredOf o.axioms.toList options,
        ⟨(Declared.declaredOf o.axioms.toList options).source, records⟩) ∧
      List.Forall₂ ((Declared.declaredOf o.axioms.toList options).source.IsRecord options)
        o.axioms.toList records := by
  obtain ⟨records, hRun, hRecords⟩ := fold_result
    (Declared.closed_source hAxioms options).toOrderly
    (Declared.hasCanonicalDefinitions hAxioms options) hAxioms options
  have hAll : o.axioms.toList.filter (Declared.declaredOf o.axioms.toList options).source.covers =
      o.axioms.toList := List.filter_eq_self.2 fun _ _ => rfl
  rw [hAll] at hRecords
  refine ⟨records, ?_, hRecords⟩
  unfold foldDeclared
  simp only [Run.result_bind, Declared.ofList_result hAxioms options, hRun, Run.ok_bind]
  rfl

end OntoFold
