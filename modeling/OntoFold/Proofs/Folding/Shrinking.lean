import OntoFold.Proofs.Folding.Minimality
import OntoFold.Proofs.Folding.SameUnfolding
import OntoFold.Proofs.Folding.Savings

/-!
# Folding never enlarges an axiom

With thresholds of at most one, no minimized axiom is larger than the axiom it was made from. An
axiom that is not unfolded, because it abbreviates something or because its unfolding is refused,
is folded as it stands. An axiom that is unfolded can always be folded back, so the larger unfolding
is never what remains. A published definition takes the place of an axiom that holds the expansion
of the same symbol.

* `Source.size_minimized_le`: what the stages make of an axiom.
* `Axiom.Abbreviates.size_le`: the size of an axiom that gives a name to an expression.
* `Ontology.minimized_size_le_foldDeclared`: the records of an ontology.
-/

namespace OntoFold

open ClassExpression (byName)

/-! ## Stages -/

namespace Source

variable {source : Source} {options : Options} {ax : Axiom}

/-- An axiom is left alone by unfolding unless what it unfolds to is well formed. -/
theorem expanded_eq_or (hg : source.glossary.Closed) (hAx : ax.Canonical) :
    source.expanded ax = ax ∨ source.isDefinition ax = false ∧
      (ax.rewrite (byName source.glossary.evaluation?)).WellFormed := by
  cases hDefinition : source.isDefinition ax with
  | true => exact Or.inl (expanded_of_isDefinition hDefinition)
  | false =>
    rw [expanded_eq_keeping hg hAx hDefinition]
    by_cases hWellFormed : (ax.rewrite (byName source.glossary.evaluation?)).WellFormed
    · exact Or.inr ⟨rfl, hWellFormed⟩
    · exact Or.inl (Axiom.keeping_of_not_wellFormed hWellFormed)

/-- Unfolding and folding do not enlarge an axiom that no published definition replaces. -/
theorem size_minimized_le (hg : source.glossary.Closed) (hAx : ax.Canonical)
    (hThreshold : options.contraction ≤ 1) (hNone : source.definitionFor? ax = none) :
    (source.minimized options ax).size ≤ ax.size := by
  rcases expanded_eq_or hg hAx with hKept | ⟨hDefinition, hWellFormed⟩
  · rw [minimized, hNone, Option.getD_none, hKept]
    exact source.size_contracted_le options.contraction ax
  · rw [minimized_eq hg hAx hWellFormed hDefinition options]
    exact size_folding_unfolding_le hThreshold ax

end Source

/-! ## Published definitions -/

namespace ClassExpression

variable {es : List ClassExpression} {a b : ClassExpression}

theorem size_le_size_branchesIn (ha : a ∈ es) : a.size ≤ (branchesIn es).size := by
  induction es with
  | nil => cases ha
  | cons e es ih =>
    rw [size_branchesIn_cons]
    rcases List.mem_cons.1 ha with rfl | hTail
    · exact Nat.le_add_right _ _
    · exact Nat.le_trans (ih hTail) (Nat.le_add_left _ _)

/-- Two different members of a list of operands have nodes of their own. -/
theorem size_add_size_le (ha : a ∈ es) (hb : b ∈ es) (hNe : a ≠ b) :
    a.size + b.size ≤ (branchesIn es).size := by
  induction es with
  | nil => cases ha
  | cons e es ih =>
    rw [size_branchesIn_cons]
    rcases List.mem_cons.1 ha with rfl | hTail <;> rcases List.mem_cons.1 hb with rfl | hTail'
    · exact absurd rfl hNe
    · exact Nat.add_le_add_left (size_le_size_branchesIn hTail') _
    · rw [Nat.add_comm]
      exact Nat.add_le_add_left (size_le_size_branchesIn hTail) _
    · exact Nat.le_trans (ih hTail hTail') (Nat.le_add_left _ _)

end ClassExpression

namespace Axiom

variable {ax : Axiom} {n : Iri} {e : ClassExpression}

/-- A definition has a node for itself, one for the name and those of what the name stands for. -/
theorem size_define_le (n : Iri) (e : ClassExpression) : (define n e).size ≤ e.size + 2 := by
  have hOperands : (ClassExpression.branchesIn (ascend [.named n, e])).size ≤
      (ClassExpression.branchesIn [.named n, e]).size := ClassExpression.size_branchesIn_ascend_le
  rw [ClassExpression.size_branchesIn_cons, ClassExpression.size_branchesIn_cons] at hOperands
  have hName : (ClassExpression.named n).size = 1 := rfl
  have hNil : (ClassExpression.branchesIn []).size = 0 := rfl
  show (ClassExpression.branchesIn (ascend [.named n, e])).size + 1 ≤ e.size + 2
  omega

/-- An axiom that gives a name to an expression has at least these nodes. -/
theorem Abbreviates.size_le (h : ax.Abbreviates n e) : e.size + 2 ≤ ax.size := by
  obtain ⟨operands, rfl⟩ := h.isAbbreviation.equivalent
  have hNe : ClassExpression.named n ≠ e := by
    rintro rfl
    exact Option.some_ne_none n h.complex.2
  have hBoth : (ClassExpression.named n).size + e.size ≤
      (ClassExpression.branchesIn operands).size :=
    ClassExpression.size_add_size_le h.named h.complex.1 hNe
  have hName : (ClassExpression.named n).size = 1 := rfl
  show e.size + 2 ≤ (ClassExpression.branchesIn operands).size + 1
  omega

end Axiom

namespace Declared

variable {axioms : List Axiom} {options : Options} {ax : Axiom} {n : Iri} {X : ClassExpression}

/-- The published definition of a symbol is not larger than its expansion. -/
theorem size_definitionOf_le (hAxioms : ∀ ax ∈ axioms, ax.Canonical)
    (hThreshold : options.declaredDefinition ≤ 1) (hX : (expansionsOf axioms).get? n = some X) :
    (definitionOf axioms options n X).size ≤ X.size := by
  apply (closed_entriesOf hAxioms).size_foldedEvaluation_le hThreshold (entryOf_mem_entriesOf hX)
  · exact name?_of_expansion hX
  · rw [evaluation?_entriesOf hAxioms]
    rfl

/-- Folding with declared symbols does not enlarge an axiom, wherever the axiom comes from. -/
theorem size_minimized_le (hAxioms : ∀ ax ∈ axioms, ax.Canonical) (hAx : ax.Canonical)
    (hContraction : options.contraction ≤ 1) (hDefinition : options.declaredDefinition ≤ 1) :
    ((declaredOf axioms options).source.minimized options ax).size ≤ ax.size := by
  cases hFor : (declaredOf axioms options).source.definitionFor? ax with
  | none => exact Source.size_minimized_le (closed_source hAxioms options) hAx hContraction hFor
  | some ax' =>
    obtain ⟨n, X, hX, hAbbreviation, hn, hMem, rfl⟩ := definitionFor?_declaredOf hAxioms hFor
    obtain ⟨e, he⟩ := hAbbreviation.exists_abbreviates hn
    obtain rfl := (abbreviates_iff_of_expansion hX).1 ⟨ax, hMem, he⟩
    rw [Source.minimized, hFor, Option.getD_some]
    calc (Axiom.define n (definitionOf axioms options n e)).size
        ≤ (definitionOf axioms options n e).size + 2 := Axiom.size_define_le n _
      _ ≤ e.size + 2 := Nat.add_le_add_right (size_definitionOf_le hAxioms hDefinition hX) 2
      _ ≤ ax.size := he.size_le

end Declared

/-! ## Records -/

namespace Source

variable {source : Source} {options : Options} {ax : Axiom} {r : Record}

theorem IsRecord.size_initial (h : source.IsRecord options ax r) : r.initial.size = ax.size :=
  h.initial.encodes.size

theorem IsRecord.size_minimized (h : source.IsRecord options ax r) :
    r.minimized.size = (source.minimized options ax).size := h.minimized.encodes.size

end Source

namespace Ontology

/-- Folding an ontology with the symbols it declares never fails. With thresholds of at most one,
the minimized axiom of no record is larger than the axiom that was recorded. -/
theorem minimized_size_le_foldDeclared {o : Ontology} (hAxioms : ∀ ax ∈ o.axioms, ax.Canonical)
    {options : Options} (hContraction : options.contraction ≤ 1)
    (hDefinition : options.declaredDefinition ≤ 1) :
    ∃ d folding, (o.foldDeclared options).result = .ok (d, folding) ∧
      List.Forall₂ (fun ax r => r.initial.decodeAxiom = .ok ax ∧
          (∃ ax', r.minimized.decodeAxiom = .ok ax') ∧ r.minimized.size ≤ r.initial.size)
        o.axioms.toList folding.records := by
  obtain ⟨records, hRun, hRecords⟩ := foldDeclared_records hAxioms options
  refine ⟨_, _, hRun, ((List.forall₂_and_left _ _).2 ⟨hAxioms, hRecords⟩).imp ?_⟩
  rintro ax r ⟨hAx, hRecord⟩
  refine ⟨hRecord.initial.decodeAxiom, ⟨_, hRecord.minimized.decodeAxiom⟩, ?_⟩
  rw [hRecord.size_minimized, hRecord.size_initial]
  exact Declared.size_minimized_le hAxioms hAx hContraction hDefinition

/-- A symbol and one that needs it, an ambiguous and a cyclic name, an axiom that can be folded
further than it was written, and one whose unfolding is refused. -/
theorem minimized_size_le_foldDeclared_refused :
    let link (p : String) (e : ClassExpression) : ClassExpression :=
      .quantified .existential (.named ⟨p⟩) e
    let o : Ontology := ⟨.ofList [
      .equate [.named ⟨"M"⟩, link "r" (.named ⟨"C"⟩)],
      .equate [.named ⟨"N"⟩, link "s" (.named ⟨"M"⟩)],
      .equate [.named ⟨"A"⟩, link "r" (.named ⟨"C"⟩), link "t" (link "r" (.named ⟨"C"⟩))],
      .equate [.named ⟨"K"⟩, link "s" (link "r" (.named ⟨"K"⟩))],
      .subClassOf (.named ⟨"B"⟩) (link "t" (link "s" (.named ⟨"M"⟩))),
      .separate [.named ⟨"M"⟩, link "r" (.named ⟨"C"⟩)]], by decide +kernel⟩
    (∀ ax ∈ o.axioms, ax.Canonical) ∧
    ∃ d folding, (o.foldDeclared {}).result = .ok (d, folding) ∧
      List.Forall₂ (fun ax r => r.initial.decodeAxiom = .ok ax ∧
          (∃ ax', r.minimized.decodeAxiom = .ok ax') ∧ r.minimized.size ≤ r.initial.size)
        o.axioms.toList folding.records ∧
      (folding.records.map fun r => (r.initial.size, r.minimized.size)) =
        [(7, 5), (10, 6), (7, 7), (5, 5), (5, 5), (5, 5)] := by
  intro link o
  have hAxioms : ∀ ax ∈ o.axioms, ax.Canonical := by decide +kernel
  let options : Options := {}
  have hThresholds : options.contraction ≤ 1 ∧ options.declaredDefinition ≤ 1 := by decide
  obtain ⟨d, folding, hRun, hRecords⟩ :=
    minimized_size_le_foldDeclared hAxioms hThresholds.1 hThresholds.2
  have hSizes : ∀ x, (o.foldDeclared {}).result = .ok x →
      (x.2.records.map fun r => (r.initial.size, r.minimized.size)) =
        [(7, 5), (10, 6), (7, 7), (5, 5), (5, 5), (5, 5)] := by
    decide +kernel
  exact ⟨hAxioms, d, folding, hRun, hRecords, hSizes _ hRun⟩

end Ontology

end OntoFold
