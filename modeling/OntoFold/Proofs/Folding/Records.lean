import OntoFold.Folding.Run
import OntoFold.Proofs.Folding.Stages
import OntoFold.Proofs.Rewriting.Names

/-!
# Records of foldings

An axiom that defines a symbol is replaced by the published definition of the symbol, any other
axiom by what the stages of folding make of it. Recording this never fails.

* `Source.minimized`: what folding makes of an axiom.
* `Source.record_result`: the record of one axiom.
* `Ontology.fold_result`: the records of an ontology.
-/

namespace OntoFold

namespace Source

variable {source : Source} {options : Options} {ax ax' : Axiom}

/-! ## Published definitions -/

/-- The published definitions of all symbols are canonical. -/
def HasCanonicalDefinitions (source : Source) : Prop :=
  ∀ n e, source.glossary.contains n = true → source.glossary.definition? n = some e → e.Canonical

theorem canonical_define {n : Iri} {e : ClassExpression} (he : e.Canonical) :
    (Axiom.define n e).Canonical := by
  refine Bool.and_eq_true_iff.2 ⟨decide_eq_true (ascending_ascend _), ?_⟩
  apply ClassExpression.allCanonical_iff.2
  intro operand hMem
  rcases List.mem_cons.1 (mem_ascend.1 hMem) with rfl | hMem
  · rfl
  · rw [List.mem_singleton.1 hMem]
    exact he

theorem definitionFor?_eq_some (h : source.definitionFor? ax = some ax') :
    ∃ operands n e, ax = .equivalent operands ∧ source.isDefinition ax = true ∧
      .named n ∈ operands ∧ source.glossary.contains n = true ∧
      source.glossary.definition? n = some e ∧ ax' = .define n e := by
  cases ax with
  | equivalent operands =>
    unfold definitionFor? at h
    dsimp only at h
    split at h
    · next hDefinition =>
      obtain ⟨n, hn, h⟩ := Option.bind_eq_some_iff.1 h
      obtain ⟨e, he, h⟩ := Option.bind_eq_some_iff.1 h
      have hNamed := ClassExpression.mem_filterMap_name?.1 (List.mem_of_find?_eq_some hn)
      have hContains := List.find?_some hn
      exact ⟨operands, n, e, rfl, hDefinition, hNamed, hContains, he, (Option.some.inj h).symm⟩
    · cases h
  | _ => cases h

theorem definitionFor?_eq_none (h : source.isDefinition ax = false) :
    source.definitionFor? ax = none := by
  cases ax with
  | equivalent operands =>
    unfold definitionFor?
    dsimp only
    rw [if_neg (by rw [h]; exact Bool.false_ne_true)]
  | _ => rfl

/-! ## Minimized axioms -/

/-- What folding can make of an axiom: a published definition, or the outcome of some exchanges. -/
def Minimizes (source : Source) (ax ax' : Axiom) : Prop :=
  source.definitionFor? ax = some ax' ∨
    source.definitionFor? ax = none ∧ source.Exchanged ax ax'

/-- The published definition that takes the place of an axiom, or what the stages make of it. -/
def minimized (source : Source) (options : Options) (ax : Axiom) : Axiom :=
  (source.definitionFor? ax).getD (source.contracted options.contraction (source.expanded ax))

theorem minimizes_minimized (hg : source.glossary.Orderly) (options : Options) (ax : Axiom) :
    source.Minimizes ax (source.minimized options ax) := by
  unfold minimized
  cases hDefinition : source.definitionFor? ax with
  | some ax' => exact Or.inl hDefinition
  | none =>
    exact Or.inr ⟨hDefinition, (exchanged_expanded hg ax).trans (exchanged_contracted source _ _)⟩

/-! ## Records -/

/-- The arenas of a record show an axiom, its unfolding and what folding makes of it. -/
structure IsRecord (source : Source) (options : Options) (ax : Axiom) (r : Record) : Prop where
  initial : r.initial.Shows ax
  expanded : r.expanded.Shows (source.expanded ax)
  minimized : r.minimized.Shows (source.minimized options ax)

theorem IsRecord.isChanged {r : Record} (h : source.IsRecord options ax r) :
    r.isChanged = .ok (decide (source.minimized options ax ≠ ax)) := by
  unfold Record.isChanged
  rw [h.initial.decodeAxiom, h.minimized.decodeAxiom]
  rfl

/-- Reporting a change never fails. -/
theorem report_change_result {r : Record} (h : r.minimized.decodeAxiom = .ok ax) (changed : Bool)
    (text : Axiom → String) :
    (if changed = true then do
        let ax ← liftM r.minimized.decodeAxiom
        .report .debug (text ax)
        pure r
      else pure r : Run Record).result = .ok r := by
  split
  · rw [Run.result_bind, Run.result_liftM, h]
    rfl
  · rfl

/-- Recording an axiom never fails. -/
theorem record_result (hg : source.glossary.Orderly)
    (hDefinitions : source.HasCanonicalDefinitions) (hAx : ax.Canonical) (options : Options) :
    ∃ r, (source.record options ax).result = .ok r ∧ source.IsRecord options ax r := by
  obtain ⟨initial, hStart, hInitial⟩ := Arena.ofPhrase_shows hAx
  obtain ⟨a, hExpand, ha⟩ := expand_result hg hAx
  unfold record
  simp only [Run.result_bind, Run.result_liftM, hStart, hExpand, Run.ok_bind]
  cases hDefinition : source.definitionFor? ax with
  | some ax' =>
    obtain ⟨-, n, e, -, -, -, hContains, he, rfl⟩ := definitionFor?_eq_some hDefinition
    obtain ⟨b, hPublish, hb⟩ :=
      Arena.ofPhrase_shows (canonical_define (hDefinitions n e hContains he))
    have hRecord : source.IsRecord options ax ⟨initial, a, b⟩ := by
      refine ⟨hInitial, ha, ?_⟩
      rwa [minimized, hDefinition]
    refine ⟨⟨initial, a, b⟩, ?_, hRecord⟩
    simp only [Run.result_bind, Run.result_liftM, hPublish, hRecord.isChanged, Run.ok_bind]
    exact report_change_result (r := ⟨initial, a, b⟩) hb.decodeAxiom _ _
  | none =>
    obtain ⟨b, hContract, hb⟩ := contract_result ha options.contraction
    have hRecord : source.IsRecord options ax ⟨initial, a, b⟩ := by
      refine ⟨hInitial, ha, ?_⟩
      rwa [minimized, hDefinition]
    refine ⟨⟨initial, a, b⟩, ?_, hRecord⟩
    simp only [Run.result_bind, Run.result_liftM, hContract, hRecord.isChanged, Run.ok_bind]
    exact report_change_result (r := ⟨initial, a, b⟩) hb.decodeAxiom _ _

end Source

/-! ## Foldings -/

namespace Folding

variable {f : Folding} {options : Options} {axioms : List Axiom}

theorem summary_eq_ok (h : List.Forall₂ (f.source.IsRecord options) axioms f.records) :
    ∃ summary, f.summary = .ok summary := by
  unfold summary
  rw [mapM_eq_ok_of_forall₂ (h.imp fun _ _ hRecord => hRecord.isChanged)]
  exact ⟨_, rfl⟩

theorem expandedAxioms_eq_ok (h : List.Forall₂ (f.source.IsRecord options) axioms f.records) :
    f.expandedAxioms = .ok (.ofList (axioms.map f.source.expanded)) := by
  unfold expandedAxioms
  rw [mapM_eq_ok_of_forall₂ (h.imp fun _ _ hRecord => hRecord.expanded.decodeAxiom)]
  rfl

theorem minimizedAxioms_eq_ok (h : List.Forall₂ (f.source.IsRecord options) axioms f.records) :
    f.minimizedAxioms = .ok (.ofList (axioms.map (f.source.minimized options))) := by
  unfold minimizedAxioms
  rw [mapM_eq_ok_of_forall₂ (h.imp fun _ _ hRecord => hRecord.minimized.decodeAxiom)]
  rfl

end Folding

/-- Folding an ontology never fails and records the axioms that take part. -/
theorem Ontology.fold_result {o : Ontology} {source : Source}
    (hg : source.glossary.Orderly) (hDefinitions : source.HasCanonicalDefinitions)
    (hAxioms : ∀ ax ∈ o.axioms, ax.Canonical) (options : Options) :
    ∃ records, (o.fold source options).result = .ok ⟨source, records⟩ ∧
      List.Forall₂ (source.IsRecord options) (o.axioms.toList.filter source.covers) records := by
  obtain ⟨records, hRecords, hAll⟩ := exists_mapM_eq_ok
    fun ax (hAx : ax ∈ o.axioms.toList.filter source.covers) =>
      Source.record_result hg hDefinitions (hAxioms ax (List.mem_filter.1 hAx).1) options
  obtain ⟨summary, hSummary⟩ := Folding.summary_eq_ok (f := ⟨source, records⟩) hAll
  refine ⟨records, ?_, hAll⟩
  unfold fold Source.records
  rw [Run.result_bind, Run.result_mapM, hRecords, Run.ok_bind]
  simp only [Run.result_bind, Run.result_liftM, hSummary, Run.ok_bind, Run.result_report]
  rfl

end OntoFold
