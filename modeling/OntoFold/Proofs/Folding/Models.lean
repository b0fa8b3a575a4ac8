import OntoFold.Proofs.Folding.Declared
import OntoFold.Proofs.Semantics.Glossaries

/-!
# Models of folded ontologies

Folding an ontology with the symbols it declares keeps its models, with one exception: two
different disjuncts of an axiom that stand for the same expression may become one, and then
nothing says any more that they are disjoint.

* `Declared.satisfies_minimized`, `Declared.satisfies_of_minimized`: one axiom and what folding
  makes of it.
* `Ontology.models_foldDeclared`: the models of the minimized axioms.
-/

namespace OntoFold

open ClassExpression (byName)

namespace Interpretation

variable {Domain : Type u} {Value : Type v} {I : Interpretation Domain Value} {ax : Axiom}
  {n : Iri} {e X : ClassExpression}

/-! ## Pairs and definitions -/

theorem satisfies_define : I.Satisfies (.define n e) ↔ I.classes n = I.extension e := by
  show (∀ x ∈ ascend [.named n, e], ∀ y ∈ ascend [.named n, e], I.extension x = I.extension y) ↔ _
  simp only [mem_ascend]
  constructor
  · intro h
    exact h (.named n) List.mem_cons_self e (List.mem_cons_of_mem _ List.mem_cons_self)
  · intro h x hx y hy
    have hAll : ∀ z ∈ [.named n, e], I.extension z = I.extension e := by
      intro z hz
      rcases List.mem_cons.1 hz with rfl | hz
      · exact h
      · rw [List.mem_singleton.1 hz]
    rw [hAll x hx, hAll y hy]

theorem satisfies_separate_pair {x y : ClassExpression}
    (h : Disjoint (I.extension x) (I.extension y)) : I.Satisfies (.separate [x, y]) := by
  have hPair : ∀ z ∈ ascend [x, y], z = x ∨ z = y := by
    intro z hz
    simpa [mem_ascend] using hz
  intro a ha b hb hNe
  rcases hPair a ha with rfl | rfl
  · rcases hPair b hb with rfl | rfl
    · exact absurd rfl hNe
    · exact h
  · rcases hPair b hb with rfl | rfl
    · exact h.symm
    · exact absurd rfl hNe

/-- An abbreviation says that a name and an expression have the same extension. -/
theorem Satisfies.classes_eq (hAx : I.Satisfies ax) (h : ax.Abbreviates n e) :
    I.classes n = I.extension e := by
  obtain ⟨operands, rfl⟩ := h.isAbbreviation.equivalent
  exact hAx (.named n) h.named e h.complex.1

/-- It says nothing else when there is only one such expression. -/
theorem satisfies_of_unique (hAbbreviation : ax.IsAbbreviation) (hn : .named n ∈ ax.operands)
    (hUnique : ∀ e, ax.Abbreviates n e → e = X) (h : I.classes n = I.extension X) :
    I.Satisfies ax := by
  have hAll : ∀ x ∈ ax.operands, I.extension x = I.extension X := by
    intro x hx
    cases hName : x.name? with
    | some m =>
      obtain rfl := ClassExpression.eq_named_of_name? hName
      rw [hAbbreviation.eq_of_named hx hn]
      exact h
    | none => rw [hUnique x ⟨hAbbreviation, hn, hx, hName⟩]
  obtain ⟨operands, rfl⟩ := hAbbreviation.equivalent
  intro x hx y hy
  rw [hAll x hx, hAll y hy]

end Interpretation

namespace Declared

variable {axioms : List Axiom} {options : Options} {ax ax' : Axiom} {n : Iri}
  {X : ClassExpression} {Domain : Type u} {Value : Type v} {I : Interpretation Domain Value}

/-! ## Axioms -/

/-- The axioms define all symbols by their evaluations. -/
theorem fits_of_satisfies (hAxioms : ∀ ax ∈ axioms, ax.Canonical)
    (h : ∀ ax ∈ axioms, I.Satisfies ax) : I.Fits (entriesOf axioms) := by
  apply Interpretation.fits_of_expansions hAxioms
  intro n X hX
  obtain ⟨ax, hMem, hAbbreviates⟩ := (abbreviates_iff_of_expansion hX).2 rfl
  exact (h ax hMem).classes_eq hAbbreviates

/-- So do the minimized axioms. -/
theorem fits_of_satisfies_minimized (hAxioms : ∀ ax ∈ axioms, ax.Canonical)
    (h : ∀ ax ∈ axioms, ∃ ax', I.Satisfies ax' ∧
      (declaredOf axioms options).source.Minimizes ax ax') : I.Fits (entriesOf axioms) := by
  apply Interpretation.fits_of_foldedEvaluations
  intro entry hEntry
  obtain ⟨n, hGet⟩ := Glossary.mem_toList.1 hEntry
  obtain ⟨X, hX, rfl⟩ := get?_entriesOf.1 hGet
  obtain ⟨ax, hMem, hAbbreviates⟩ := (abbreviates_iff_of_expansion hX).2 rfl
  have hDefinition : (declaredOf axioms options).source.definitionFor? ax =
      some (.define n (definitionOf axioms options n X)) :=
    definitionFor?_of_abbreviates hAxioms hX hMem hAbbreviates
  obtain ⟨ax', hSatisfies, hSome | ⟨hNone, -⟩⟩ := h ax hMem
  · obtain rfl := Option.some.inj (hDefinition.symm.trans hSome)
    exact Interpretation.satisfies_define.1 hSatisfies
  · rw [hDefinition] at hNone
    cases hNone

/-- A minimized axiom is satisfied when the axiom is. -/
theorem satisfies_minimized (hAxioms : ∀ ax ∈ axioms, ax.Canonical)
    (hFits : I.Fits (entriesOf axioms))
    (h : (declaredOf axioms options).source.Minimizes ax ax') (hAx : I.Satisfies ax) :
    I.Satisfies ax' := by
  rcases h with hDefinition | ⟨-, steps, hSteps, rfl⟩
  · obtain ⟨n, X, hX, -, -, -, rfl⟩ := definitionFor?_declaredOf hAxioms hDefinition
    apply Interpretation.satisfies_define.2
    exact (hFits _ (entryOf_mem_entriesOf hX)).trans hFits.foldedEvaluation.symm
  · exact hAx.rewriteEach fun step hStep => hFits.exchanges (hSteps step hStep)

/-- An axiom is satisfied when the minimized one is and those of its disjuncts that stand for the
same expression are disjoint. -/
theorem satisfies_of_minimized (hAxioms : ∀ ax ∈ axioms, ax.Canonical)
    (hFits : I.Fits (entriesOf axioms))
    (h : (declaredOf axioms options).source.Minimizes ax ax') (hAx' : I.Satisfies ax')
    (hMerged : ∀ x ∈ ax.disjuncts, ∀ y ∈ ax.disjuncts, x ≠ y →
      x.rewrite (byName (valueOf axioms)) = y.rewrite (byName (valueOf axioms)) →
      Disjoint (I.extension x) (I.extension y)) : I.Satisfies ax := by
  have hSound := hFits.byName (orderly_entriesOf hAxioms)
  rw [evaluation?_entriesOf hAxioms] at hSound
  rcases h with hDefinition | ⟨-, steps, hSteps, rfl⟩
  · obtain ⟨n, X, hX, hAbbreviation, hn, hMem, rfl⟩ :=
      definitionFor?_declaredOf hAxioms hDefinition
    apply Interpretation.satisfies_of_unique hAbbreviation hn
    · intro e he
      exact (abbreviates_iff_of_expansion hX).1 ⟨ax, hMem, he⟩
    · have hEntry := hFits _ (entryOf_mem_entriesOf hX)
      exact hEntry.trans (Interpretation.extension_rewrite_of_sound hSound)
  · -- Unfolding all symbols makes the two axioms equal.
    have hUnfolded := hAx'.rewrite hSound
    rw [Axiom.rewrite_rewriteEach fun step hStep =>
      evaluation?_entriesOf hAxioms ▸
        (closed_entriesOf hAxioms).unfold_exchanges (hSteps step hStep)] at hUnfolded
    exact hUnfolded.of_rewrite hSound hMerged

end Declared

namespace Ontology

/-! ## Ontologies -/

/-- Folding with the declared symbols never fails and says what becomes of each axiom. -/
theorem foldDeclared_result {o : Ontology} (hAxioms : ∀ ax ∈ o.axioms, ax.Canonical)
    (options : Options) :
    ∃ folding minimized,
      (o.foldDeclared options).result =
        .ok (Declared.declaredOf o.axioms.toList options, folding) ∧
      folding.minimizedAxioms = .ok minimized ∧
      (∀ ax ∈ o.axioms, ∃ ax' ∈ minimized,
        (Declared.declaredOf o.axioms.toList options).source.Minimizes ax ax') ∧
      ∀ ax' ∈ minimized, ∃ ax ∈ o.axioms,
        (Declared.declaredOf o.axioms.toList options).source.Minimizes ax ax' := by
  obtain ⟨records, hRun, hRecords⟩ := foldDeclared_records hAxioms options
  have hMinimizes := Source.minimizes_minimized
    (Declared.closed_source hAxioms options).toOrderly options
  refine ⟨_, _, hRun, Folding.minimizedAxioms_eq_ok hRecords, ?_, ?_⟩
  · intro ax hAx
    exact ⟨_, SortedSet.mem_ofList.2 (List.mem_map_of_mem hAx), hMinimizes ax⟩
  · intro ax' hMem
    obtain ⟨ax, hAx, rfl⟩ := List.mem_map.1 (SortedSet.mem_ofList.1 hMem)
    exact ⟨ax, hAx, hMinimizes ax⟩

/-- Folding an ontology with the symbols it declares never fails. An interpretation is a model of
the ontology if and only if it is a model of the minimized axioms and all different disjuncts of
an axiom that become the same expression when the symbols are unfolded are disjoint in it. -/
theorem models_foldDeclared {o : Ontology} (hAxioms : ∀ ax ∈ o.axioms, ax.Canonical)
    (options : Options) :
    ∃ d folding minimized, (o.foldDeclared options).result = .ok (d, folding) ∧
      folding.minimizedAxioms = .ok minimized ∧
      ∀ {Domain : Type u} {Value : Type v} (I : Interpretation Domain Value),
        I.Models o.axioms ↔ I.Models minimized ∧
          ∀ ax ∈ o.axioms, ∀ x ∈ ax.disjuncts, ∀ y ∈ ax.disjuncts, x ≠ y →
            x.rewrite (byName d.glossary.evaluation?) =
              y.rewrite (byName d.glossary.evaluation?) →
            Disjoint (I.extension x) (I.extension y) := by
  obtain ⟨folding, minimized, hRun, hMinimized, hOf, hFrom⟩ := foldDeclared_result hAxioms options
  refine ⟨_, folding, minimized, hRun, hMinimized, ?_⟩
  intro Domain Value I
  rw [Declared.evaluation?_declaredOf hAxioms]
  constructor
  · intro hModels
    have hFits := Declared.fits_of_satisfies hAxioms hModels
    refine ⟨?_, ?_⟩
    · intro ax' hMem
      obtain ⟨ax, hAx, hMinimizes⟩ := hFrom ax' hMem
      exact Declared.satisfies_minimized hAxioms hFits hMinimizes (hModels ax hAx)
    · intro ax hAx x hx y hy hNe _
      exact (hModels ax hAx).disjoint hx hy hNe
  · rintro ⟨hModels, hMerged⟩ ax hAx
    have hFits : I.Fits (Declared.entriesOf o.axioms.toList) := by
      apply Declared.fits_of_satisfies_minimized hAxioms
      intro ax hAx
      obtain ⟨ax', hMem, hMinimizes⟩ := hOf ax hAx
      exact ⟨ax', hModels ax' hMem, hMinimizes⟩
    obtain ⟨ax', hMem, hMinimizes⟩ := hOf ax hAx
    exact Declared.satisfies_of_minimized hAxioms hFits hMinimizes (hModels ax' hMem)
      (hMerged ax hAx)

/-- A symbol within another symbol, a subsumption to fold, and two disjuncts that merge. -/
theorem models_foldDeclared_levels :
    let link (p : String) (e : ClassExpression) : ClassExpression :=
      .quantified .existential (.named ⟨p⟩) e
    let o : Ontology := ⟨.ofList [
      .equate [.named ⟨"M"⟩, link "r" (.named ⟨"C"⟩)],
      .equate [.named ⟨"N"⟩, link "s" (.named ⟨"M"⟩)],
      .subClassOf (.named ⟨"A"⟩) (link "s" (link "r" (.named ⟨"C"⟩))),
      .partition ⟨"B"⟩ [.named ⟨"D"⟩, .named ⟨"M"⟩, link "r" (.named ⟨"C"⟩)]], by decide +kernel⟩
    (∀ ax ∈ o.axioms, ax.Canonical) ∧
    ∃ d folding minimized, (o.foldDeclared {}).result = .ok (d, folding) ∧
      folding.minimizedAxioms = .ok minimized ∧
      minimized = .ofList [
        .equate [.named ⟨"M"⟩, link "r" (.named ⟨"C"⟩)],
        .equate [.named ⟨"N"⟩, link "s" (.named ⟨"M"⟩)],
        .subClassOf (.named ⟨"A"⟩) (.named ⟨"N"⟩),
        .partition ⟨"B"⟩ [.named ⟨"D"⟩, .named ⟨"M"⟩]] ∧
      (ClassExpression.named ⟨"M"⟩).rewrite (byName d.glossary.evaluation?) =
        (link "r" (.named ⟨"C"⟩)).rewrite (byName d.glossary.evaluation?) ∧
      ∀ {Domain Value : Type} (I : Interpretation Domain Value),
        I.Models o.axioms ↔ I.Models minimized ∧
          ∀ ax ∈ o.axioms, ∀ x ∈ ax.disjuncts, ∀ y ∈ ax.disjuncts, x ≠ y →
            x.rewrite (byName d.glossary.evaluation?) =
              y.rewrite (byName d.glossary.evaluation?) →
            Disjoint (I.extension x) (I.extension y) := by
  intro link o
  have hAxioms : ∀ ax ∈ o.axioms, ax.Canonical := by decide +kernel
  obtain ⟨d, folding, minimized, hRun, hMinimized, hModels⟩ := models_foldDeclared hAxioms {}
  have hFacts : ∀ x, (o.foldDeclared {}).result = .ok x →
      (∀ minimized, x.2.minimizedAxioms = .ok minimized → minimized = .ofList [
        .equate [.named ⟨"M"⟩, link "r" (.named ⟨"C"⟩)],
        .equate [.named ⟨"N"⟩, link "s" (.named ⟨"M"⟩)],
        .subClassOf (.named ⟨"A"⟩) (.named ⟨"N"⟩),
        .partition ⟨"B"⟩ [.named ⟨"D"⟩, .named ⟨"M"⟩]]) ∧
      (ClassExpression.named ⟨"M"⟩).rewrite (byName x.1.glossary.evaluation?) =
        (link "r" (.named ⟨"C"⟩)).rewrite (byName x.1.glossary.evaluation?) := by
    decide +kernel
  obtain ⟨hAll, hMerge⟩ := hFacts _ hRun
  exact ⟨hAxioms, d, folding, minimized, hRun, hMinimized, hAll minimized hMinimized, hMerge,
    hModels⟩

/-- Two disjuncts that stand for the same expression become one, and an interpretation in which
they overlap is a model of the minimized axioms only. -/
theorem not_models_of_merged_disjuncts :
    let link : ClassExpression := .quantified .existential (.named ⟨"r"⟩) (.named ⟨"C"⟩)
    let o : Ontology := ⟨.ofList [
      .equate [.named ⟨"M"⟩, link],
      .separate [.named ⟨"D"⟩, .named ⟨"M"⟩, link]], by decide +kernel⟩
    (∀ ax ∈ o.axioms, ax.Canonical) ∧
    ∃ d folding minimized, (o.foldDeclared {}).result = .ok (d, folding) ∧
      folding.minimizedAxioms = .ok minimized ∧
      ∃ I : Interpretation Unit Unit, I.Models minimized ∧ ¬ I.Models o.axioms := by
  intro link o
  refine ⟨by decide +kernel, ?_⟩
  have hRun : ((o.foldDeclared {}).result >>= fun x => x.2.minimizedAxioms) =
      .ok (.ofList [.equate [.named ⟨"M"⟩, link], .separate [.named ⟨"D"⟩, .named ⟨"M"⟩]]) := by
    decide +kernel
  obtain ⟨x, hFold, hMinimized⟩ := Run.bind_eq_ok hRun
  refine ⟨x.1, x.2, _, hFold, hMinimized, ?_⟩
  -- Every class but `D` holds of the only individual.
  let I : Interpretation Unit Unit := {
    classes n := {_x | n ≠ ⟨"D"⟩}
    objectProperties _ _ _ := True
    dataProperties _ _ _ := True
    individuals _ := ()
    literals _ := ()
    ranges _ := Set.univ }
  have hD : I.extension (.named ⟨"D"⟩) = ∅ := by
    rw [Interpretation.extension]
    exact Set.eq_empty_of_forall_notMem fun _ h => h rfl
  have hM : () ∈ I.extension (.named ⟨"M"⟩) := by
    rw [Interpretation.extension]
    show (⟨"M"⟩ : Iri) ≠ ⟨"D"⟩
    decide
  have hLink : () ∈ I.extension link := by
    rw [Interpretation.extension]
    refine ⟨(), trivial, ?_⟩
    rw [Interpretation.extension]
    show (⟨"C"⟩ : Iri) ≠ ⟨"D"⟩
    decide
  refine ⟨I, ?_, ?_⟩
  · intro ax hAx
    rcases List.mem_cons.1 (SortedSet.mem_ofList.1 hAx) with rfl | hAx
    · apply Interpretation.satisfies_define.2
      exact Set.eq_of_subset_of_subset (fun _ _ => hLink) (fun _ _ => hM)
    · obtain rfl := List.mem_singleton.1 hAx
      apply Interpretation.satisfies_separate_pair
      rw [hD]
      exact Set.empty_disjoint _
  · intro hModels
    have hSeparates := hModels (.separate [.named ⟨"D"⟩, .named ⟨"M"⟩, link])
      (SortedSet.mem_ofList.2 (List.mem_cons_of_mem _ List.mem_cons_self))
    have hDisjoint := hSeparates (.named ⟨"M"⟩) (mem_ascend.2 (by simp)) link
      (mem_ascend.2 (by simp)) (by simp [link])
    exact Set.disjoint_left.1 hDisjoint hM hLink

end Ontology

end OntoFold
