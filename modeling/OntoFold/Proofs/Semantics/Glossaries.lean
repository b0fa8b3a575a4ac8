import OntoFold.Proofs.Glossary.Declaration
import OntoFold.Proofs.Semantics.Interpretation

/-!
# Interpretations of glossaries

An interpretation fits a glossary when each symbol has the extension of its evaluation. Then
symbols and evaluations can be exchanged everywhere. Both the expansions that the axioms declare
and the published definitions are enough to make an interpretation fit.

* `Interpretation.fits_of_expansions`: the declared expansions determine the evaluations.
* `Interpretation.fits_of_foldedEvaluations`: so do the published definitions.
-/

namespace OntoFold

open ClassExpression (byName)
open Declared (entriesOf expansionsOf valueOf)

namespace Interpretation

variable {Domain : Type u} {Value : Type v} {I : Interpretation Domain Value} {g : Glossary}
  {entry : Entry} {threshold : Nat}

/-- Every symbol has the extension of its evaluation. -/
def Fits (I : Interpretation Domain Value) (g : Glossary) : Prop :=
  ∀ entry ∈ g.toList, I.classes entry.symbol = I.extension entry.evaluation

/-- A symbol and its evaluation have the same extension. -/
theorem Fits.exchanges (h : I.Fits g) {step : ClassExpression × ClassExpression}
    (hStep : g.Exchanges step) : I.extension step.1 = I.extension step.2 := by
  obtain ⟨entry, hEntry, rfl | rfl⟩ := hStep
  · exact h entry hEntry
  · exact (h entry hEntry).symm

/-- Unfolding names keeps extensions. -/
theorem Fits.byName (h : I.Fits g) (hg : g.Orderly) :
    ∀ t r, byName g.evaluation? t = some r → I.extension r = I.extension t := by
  intro t r hr
  obtain ⟨n, hName, hEvaluation⟩ := Option.bind_eq_some_iff.1 hr
  obtain ⟨entry, hGet, rfl⟩ := Glossary.evaluation?_eq_some.1 hEvaluation
  rw [ClassExpression.eq_named_of_name? hName, ← hg.symbol n entry hGet]
  exact (h entry (Glossary.mem_toList.2 ⟨n, hGet⟩)).symm

/-- Folding what is nested inside an evaluation keeps the extension. -/
theorem Fits.foldedEvaluation (h : I.Fits g) :
    I.extension (g.foldedEvaluation threshold entry) = I.extension entry.evaluation := by
  apply extension_rewriteEach
  intro step hStep
  exact h.exchanges (Glossary.exchanges_foldSteps hStep)

/-! ## Definitions determine evaluations -/

/-- An interpretation fits when the symbols have the extensions of their published
definitions. -/
theorem fits_of_foldedEvaluations
    (h : ∀ entry ∈ g.toList,
      I.classes entry.symbol = I.extension (g.foldedEvaluation threshold entry)) : I.Fits g := by
  suffices hAll : ∀ e, ∀ entry ∈ g.toList, entry.evaluation = e →
      I.classes entry.symbol = I.extension e from
    fun entry hEntry => hAll entry.evaluation entry hEntry rfl
  intro e
  -- Only evaluations nested inside the evaluation have been folded in it.
  induction e using ClassExpression.nested_induction with
  | step e ih =>
    rintro entry hEntry rfl
    rw [h entry hEntry]
    apply extension_rewriteEach
    intro step hStep
    obtain ⟨inner, hInner, ⟨hNested, -⟩, rfl⟩ := Glossary.mem_foldSteps hStep
    obtain ⟨hMem, hNe⟩ := SortedSet.mem_erase.1 hNested
    have hPosition : inner.evaluation ∈ entry.evaluation.positions := SortedSet.mem_ofList.1 hMem
    obtain ⟨o, ho, hInside⟩ := (ClassExpression.mem_positions_iff.1 hPosition).resolve_left hNe
    exact (ih o ho inner.evaluation hInside inner hInner rfl).symm

section Declared

variable {axioms : List Axiom}

/-- An interpretation fits when the symbols have the extensions of their expansions. -/
theorem fits_of_expansions (hAxioms : ∀ ax ∈ axioms, ax.Canonical)
    (h : ∀ n X, (expansionsOf axioms).get? n = some X → I.classes n = I.extension X) :
    I.Fits (entriesOf axioms) := by
  have hUnfoldable := Declared.unfoldable_expansionsOf hAxioms
  suffices hAll : ∀ e n X, (expansionsOf axioms).get? n = some X →
      X.rewrite (byName (valueOf axioms)) = e → I.classes n = I.extension e by
    intro entry hEntry
    obtain ⟨n, hGet⟩ := Glossary.mem_toList.1 hEntry
    obtain ⟨X, hX, rfl⟩ := Declared.get?_entriesOf.1 hGet
    exact hAll _ n X hX rfl
  intro e
  -- The evaluations of the symbols in an expansion are nested inside its evaluation.
  induction e using ClassExpression.nested_induction with
  | step e ih =>
    rintro n X hX rfl
    rw [h n X hX]
    symm
    apply extension_rewrite
    intro t ht r hr
    obtain ⟨m, hName, hValue⟩ := Option.bind_eq_some_iff.1 hr
    obtain rfl := ClassExpression.eq_named_of_name? hName
    have hm : m ∈ X.names := ClassExpression.mem_names_iff_position.2 ht
    obtain ⟨o, ho, hInside⟩ :=
      ClassExpression.exists_operand_rewrite (Declared.name?_of_expansion hX) hm hValue
    rw [← Declared.evaluation?_entriesOf hAxioms] at hValue
    obtain ⟨entry, hGet, rfl⟩ := Glossary.evaluation?_eq_some.1 hValue
    obtain ⟨Y, hY, rfl⟩ := Declared.get?_entriesOf.1 hGet
    exact (ih o ho _ hInside m Y hY rfl).symm

end Declared

end Interpretation

end OntoFold
