import OntoFold.Proofs.Census.Levels
import OntoFold.Proofs.Folding.Declared
import OntoFold.Proofs.Folding.Lossless

/-!
# Folding never fails

Whatever the options are, folding an ontology with declared or with discovered symbols ends without
a fault, and so does everything that is read off the folding afterwards. Some look-ups have a
default where they can find nothing, or are not made since their outcome is known: the name of an
abbreviation, the published definition of a symbol, the candidates that a candidate depends on, the
levels inside an expression. None of them ever misses.

* `Folding.Complete`: what can be read off a folding.
* `Declared.Resolved`: what is found when symbols are read off axioms.
* `Ontology.fold_never_fails`: the runs of an ontology.
-/

namespace OntoFold

/-! ## Reading foldings -/

/-- The axioms of all records, their changes, the summary and the sets of axioms can be read off a
folding, and its symbols have published definitions. -/
structure Folding.Complete (f : Folding) : Prop where
  initial : ∃ axioms, (f.records.mapM fun r => r.initial.decodeAxiom) = .ok axioms
  expanded : ∃ axioms, (f.records.mapM fun r => r.expanded.decodeAxiom) = .ok axioms
  minimized : ∃ axioms, (f.records.mapM fun r => r.minimized.decodeAxiom) = .ok axioms
  changes : ∃ changes, f.records.mapM Record.isChanged = .ok changes
  summary : ∃ summary, f.summary = .ok summary
  expandedAxioms : ∃ axioms, f.expandedAxioms = .ok axioms
  minimizedAxioms : ∃ axioms, f.minimizedAxioms = .ok axioms
  definitions : ∀ n, f.source.glossary.contains n = true →
    ∃ e, f.source.glossary.definition? n = some e

/-- Symbols have published definitions once these have been folded. -/
theorem Glossary.Orderly.exists_definition {g : Glossary} (h : g.Orderly) {threshold : Nat}
    {n : Iri} (hn : (g.published threshold).contains n = true) :
    ∃ e, (g.published threshold).definition? n = some e := by
  obtain ⟨entry, hGet⟩ := SortedMap.contains_iff.1 hn
  exact ⟨_, definition?_published h hGet⟩

/-- A folding is complete when its arenas show what they should and its symbols have published
definitions. -/
theorem Folding.complete_of_records {f : Folding} {options : Options} {axioms : List Axiom}
    (hRecords : List.Forall₂ (f.source.IsRecord options) axioms f.records)
    (hDefinitions : ∀ n, f.source.glossary.contains n = true →
      ∃ e, f.source.glossary.definition? n = some e) : f.Complete where
  initial := ⟨_, mapM_eq_ok_of_forall₂ (hRecords.imp fun _ _ h => h.initial.decodeAxiom)⟩
  expanded := ⟨_, mapM_eq_ok_of_forall₂ (hRecords.imp fun _ _ h => h.expanded.decodeAxiom)⟩
  minimized := ⟨_, mapM_eq_ok_of_forall₂ (hRecords.imp fun _ _ h => h.minimized.decodeAxiom)⟩
  changes := ⟨_, mapM_eq_ok_of_forall₂ (hRecords.imp fun _ _ h => h.isChanged)⟩
  summary := summary_eq_ok hRecords
  expandedAxioms := ⟨_, expandedAxioms_eq_ok hRecords⟩
  minimizedAxioms := ⟨_, minimizedAxioms_eq_ok hRecords⟩
  definitions := hDefinitions

/-! ## Reading symbols off axioms -/

/-- Abbreviations have a name under which they are indexed, and dependencies lead from candidates to
candidates. -/
structure Declared.Resolved (axioms : List Axiom) (d : Declared) : Prop where
  named : ∀ ax ∈ axioms, ∀ kind, DefinitionKind.of? ax = some kind → kind.isAbbreviation = true →
    ∃ n, (ax.operands.filterMap ClassExpression.name?).head? = some n
  dependencies : ∀ t, ∀ u ∈ d.dependencies.direct t,
    d.dependencies.contains t = true ∧ d.dependencies.contains u = true

theorem Declared.resolved_declaredOf (axioms : List Axiom) (options : Options) :
    (declaredOf axioms options).Resolved axioms where
  named ax _ kind hKind hAbbreviation := by
    have hAx : ax.IsAbbreviation := ⟨kind, hKind, hAbbreviation⟩
    obtain ⟨n, hNames⟩ := hAx.names
    exact ⟨n, by rw [hNames]; rfl⟩
  dependencies t u hu := by
    have hReaches : (candidatesOf axioms).Reaches t u := .single (Candidates.mem_dependencies.1 hu)
    exact ⟨hReaches.contains_left, hReaches.contains_right⟩

/-! ## Runs -/

namespace Ontology

/-- Folding an ontology with the symbols it declares and with the symbols discovered in it never
fails, and neither does reading anything off the foldings. When declared symbols are read off the
axioms, abbreviations have a name and dependencies are candidates; the levels of the census of
discovered symbols can be looked up in the order of sizes. -/
theorem fold_never_fails {o : Ontology} (hAxioms : ∀ ax ∈ o.axioms, ax.Canonical)
    (options : Options) :
    (∃ d folding, (o.foldDeclared options).result = .ok (d, folding) ∧ folding.Complete ∧
      d.Resolved o.axioms.toList) ∧
    ∃ d folding, (o.foldDiscovered options).result = .ok (d, folding) ∧ folding.Complete ∧
      ∃ levels, Census.levels? d.corpus.toList = some levels ∧
        ∀ e level, d.census.levels.HasMember level e ↔ levels.get? e = some level := by
  constructor
  · obtain ⟨records, hRun, hRecords⟩ := foldDeclared_records hAxioms options
    refine ⟨_, _, hRun, Folding.complete_of_records hRecords fun n hn => ?_,
      Declared.resolved_declaredOf _ options⟩
    exact (Declared.orderly_entriesOf hAxioms).exists_definition hn
  · obtain ⟨records, hRun, hRecords⟩ := foldDiscovered_records hAxioms options
    refine ⟨_, _, hRun, Folding.complete_of_records hRecords fun n hn => ?_,
      Census.levels?_eq_some _⟩
    exact (Discovered.orderly_symbolsOf hAxioms options).exists_definition hn

/-- Symbols on two levels beside a circle of definitions, a disjoint union and a complement, with
thresholds at which everything is folded and a stem that is itself a class. -/
theorem fold_never_fails_levels :
    let link (p : String) (e : ClassExpression) : ClassExpression :=
      .quantified .existential (.named ⟨p⟩) e
    let o : Ontology := ⟨.ofList [
      .equate [.named ⟨"M"⟩, link "r" (.named ⟨"C"⟩)],
      .equate [.named ⟨"N"⟩, link "s" (.named ⟨"M"⟩)],
      .equate [.named ⟨"K"⟩, link "r" (.named ⟨"L"⟩)],
      .equate [.named ⟨"L"⟩, link "r" (.named ⟨"K"⟩)],
      .partition ⟨"M1"⟩ [link "s" (link "r" (.named ⟨"C"⟩)), link "r" (.named ⟨"C"⟩)],
      .subClassOf (.named ⟨"N"⟩) (.complement (link "r" (.named ⟨"C"⟩)))], by decide +kernel⟩
    let options : Options := {
      contraction := 0, declaredDefinition := 0, discoveredDefinition := 0, symbolSize := 0,
      symbolOccurrences := 0, stem := "M" }
    (∀ ax ∈ o.axioms, ax.Canonical) ∧
    (∃ d folding, (o.foldDeclared options).result = .ok (d, folding) ∧ folding.Complete ∧
      d.Resolved o.axioms.toList ∧ d.cyclic = .ofList [⟨"K"⟩, ⟨"L"⟩]) ∧
    ∃ d folding, (o.foldDiscovered options).result = .ok (d, folding) ∧ folding.Complete ∧
      (∃ levels, Census.levels? d.corpus.toList = some levels ∧
        ∀ e level, d.census.levels.HasMember level e ↔ levels.get? e = some level) ∧
      d.glossary.contains ⟨"M1"⟩ = true := by
  intro link o options
  have hAxioms : ∀ ax ∈ o.axioms, ax.Canonical := by decide +kernel
  obtain ⟨⟨d, folding, hRun, hComplete, hResolved⟩, d', folding', hRun', hComplete', hLevels⟩ :=
    fold_never_fails hAxioms options
  have hCyclic : ∀ x, (o.foldDeclared options).result = .ok x →
      x.1.cyclic = .ofList [⟨"K"⟩, ⟨"L"⟩] := by
    decide +kernel
  have hTaken : ∀ x, (o.foldDiscovered options).result = .ok x →
      x.1.glossary.contains ⟨"M1"⟩ = true := by
    decide +kernel
  exact ⟨hAxioms, ⟨d, folding, hRun, hComplete, hResolved, hCyclic _ hRun⟩, d', folding', hRun',
    hComplete', hLevels, hTaken _ hRun'⟩

end Ontology

end OntoFold
