import OntoFold.Proofs.Folding.Minimality

/-!
# Unfolding is all or nothing

An axiom is unfolded by one replacement after another, and only when all are made does it show
whether the outcome is well formed. The outcome is the axiom with all symbols replaced at once,
since no replacement brings in a symbol. When it is ill-formed, the axiom is taken up again as it
was, and no replacement remains.

* `Glossary.unfolded`: an axiom with its symbols replaced at once.
* `Glossary.Closed.not_contains_of_unfolded`: no symbol is left in it.
* `Arena.Shows.size_eq`: trees have no nodes besides those of their axiom.
* `Declared.ofList_expand`: unfolding with declared symbols.
-/

namespace OntoFold

open ClassExpression (byName)

/-! ## Unfolded axioms -/

namespace Glossary

variable {g : Glossary} {ax : Axiom} {o : ClassExpression} {n : Iri}

/-- An axiom with all symbols replaced by their evaluations; operands are collected into sets again,
and the class that a disjoint union defines is left alone. -/
def unfolded (g : Glossary) (ax : Axiom) : Axiom :=
  ax.mapClasses id (ClassExpression.rewrite (byName g.evaluation?))

/-- Evaluations bring in no symbols, so none is left. -/
theorem Closed.not_contains_of_unfolded (hg : g.Closed) (ho : o ∈ (g.unfolded ax).operands)
    (hn : n ∈ o.names) : g.contains n = false := by
  rw [contains_eq_false]
  obtain ⟨x, -, rfl⟩ := Axiom.mem_operands_mapClasses.1 ho
  obtain ⟨m, -, hn⟩ := ClassExpression.mem_names_rewrite.1 hn
  cases hm : g.evaluation? m with
  | some e =>
    rw [hm] at hn
    exact hg.mentions m e hm n hn
  | none =>
    rw [hm] at hn
    obtain rfl := ClassExpression.mem_names_named.1 hn
    exact hm

end Glossary

/-- The tree of an axiom is as large as a newly built one. -/
theorem Arena.Shows.size_eq {a : Arena} {ax : Axiom} (h : a.Shows ax) :
    ∃ fresh, Arena.ofPhrase (.statement ax) none = .ok fresh ∧ a.size = fresh.size := by
  obtain ⟨fresh, hFresh, hShows⟩ := Arena.ofPhrase_shows h.canonical
  exact ⟨fresh, hFresh, h.encodes.size.trans hShows.encodes.size.symm⟩

/-! ## Declared symbols -/

namespace Declared

variable {axioms : List Axiom} {options : Options} {ax : Axiom}

/-- What unfolding with declared symbols makes of an axiom that is no definition. -/
theorem expanded_eq_keeping (hAxioms : ∀ ax ∈ axioms, ax.Canonical) (hAx : ax.Canonical)
    (hDefinition : (declaredOf axioms options).source.isDefinition ax = false) :
    (declaredOf axioms options).source.expanded ax =
      ax.keeping ((declaredOf axioms options).glossary.unfolded ax) := by
  rw [Source.expanded_eq_keeping (closed_source hAxioms options) hAx hDefinition, unfolding_eq]
  rfl

/-- Reading symbols off some axioms never fails, and neither does unfolding any axiom with them,
whether it is one of the given axioms or not. A definition is left alone. Any other axiom has all
its symbols replaced by their evaluations when this gives a well-formed axiom or the same axiom, and
is left alone when it gives an ill-formed one. The tree is as large as a newly built tree of the
axiom it stands for. -/
theorem ofList_expand (hAxioms : ∀ ax ∈ axioms, ax.Canonical) (options : Options) :
    ∃ d, (ofList axioms options).result = .ok d ∧ ∀ ax : Axiom, ax.Canonical →
      ∃ a e fresh, (d.source.expand ax).result = .ok a ∧ a.decodeAxiom = .ok e ∧
        Arena.ofPhrase (.statement e) none = .ok fresh ∧ a.size = fresh.size ∧
        (d.source.isDefinition ax = true → e = ax) ∧
        (d.source.isDefinition ax = false →
          ((d.glossary.unfolded ax).WellFormed ∨ d.glossary.unfolded ax = ax →
            e = d.glossary.unfolded ax ∧
              ∀ o ∈ e.operands, ∀ n ∈ o.names, d.glossary.contains n = false) ∧
          (¬ (d.glossary.unfolded ax).WellFormed → e = ax)) := by
  have hClosed := closed_source hAxioms options
  refine ⟨_, ofList_result hAxioms options, fun ax hAx => ?_⟩
  obtain ⟨a, hExpand, ha⟩ := Source.expand_result hClosed.toOrderly hAx
  obtain ⟨fresh, hFresh, hSize⟩ := ha.size_eq
  refine ⟨a, _, fresh, hExpand, ha.decodeAxiom, hFresh, hSize,
    fun hDefinition => Source.expanded_of_isDefinition hDefinition, fun hDefinition => ?_⟩
  rw [expanded_eq_keeping hAxioms hAx hDefinition]
  refine ⟨fun hOutcome => ?_, fun hFlaw => Axiom.keeping_of_not_wellFormed hFlaw⟩
  have hUnfolded : ax.keeping ((declaredOf axioms options).glossary.unfolded ax) =
      (declaredOf axioms options).glossary.unfolded ax := by
    rcases hOutcome with hWellFormed | hSame
    · exact Axiom.keeping_of_wellFormed hWellFormed
    · rw [hSame, Axiom.keeping_self]
  rw [hUnfolded]
  exact ⟨rfl, fun o ho n hn => hClosed.not_contains_of_unfolded ho hn⟩

/-- A definition that mentions a symbol, a disjoint union of a symbol whose disjuncts merge, and an
axiom with two symbols, where replacing one of them leaves an intersection with one operand. -/
theorem ofList_expand_refused :
    let link (p : String) (e : ClassExpression) : ClassExpression :=
      .quantified .existential (.named ⟨p⟩) e
    let inner : ClassExpression := link "r" (.named ⟨"C"⟩)
    let definition : Axiom := .equivalent [.named ⟨"N"⟩, link "s" (.named ⟨"M"⟩)]
    let axioms : List Axiom := [.equivalent [.named ⟨"M"⟩, inner], definition]
    let merging : Axiom := .partition ⟨"M"⟩ [.named ⟨"M"⟩, inner, link "t" (.named ⟨"N"⟩)]
    let refused : Axiom := .subClassOf (link "t" (.named ⟨"N"⟩))
      (.combined .intersection [.named ⟨"M"⟩, inner])
    (∀ ax ∈ axioms, ax.Canonical) ∧ merging.Canonical ∧ refused.Canonical ∧
    ∃ d, (ofList axioms {}).result = .ok d ∧
      (∃ a, (d.source.expand definition).result = .ok a ∧ a.decodeAxiom = .ok definition) ∧
      (∃ a fresh, (d.source.expand merging).result = .ok a ∧
        a.decodeAxiom = .ok (.partition ⟨"M"⟩ [inner, link "t" (link "s" inner)]) ∧
        Arena.ofPhrase (.statement (.partition ⟨"M"⟩ [inner, link "t" (link "s" inner)])) none =
          .ok fresh ∧ a.size = fresh.size) ∧
      d.glossary.unfolded refused =
        .subClassOf (link "t" (link "s" inner)) (.combined .intersection [inner]) ∧
      ∃ a, (d.source.expand refused).result = .ok a ∧ a.decodeAxiom = .ok refused := by
  intro link inner definition axioms merging refused
  have hAxioms : ∀ ax ∈ axioms, ax.Canonical := by decide +kernel
  have hMerging : merging.Canonical := by decide +kernel
  have hRefused : refused.Canonical := by decide +kernel
  obtain ⟨d, hRun, hExpand⟩ := ofList_expand hAxioms {}
  have hFacts : ∀ d, (ofList axioms {}).result = .ok d →
      d.source.isDefinition definition = true ∧ d.source.isDefinition merging = false ∧
      d.source.isDefinition refused = false ∧
      d.glossary.unfolded merging = .partition ⟨"M"⟩ [inner, link "t" (link "s" inner)] ∧
      d.glossary.unfolded refused =
        .subClassOf (link "t" (link "s" inner)) (.combined .intersection [inner]) := by
    decide +kernel
  obtain ⟨hDefinition, hOther, hOther', hUnfolded, hUnfolded'⟩ := hFacts d hRun
  refine ⟨hAxioms, hMerging, hRefused, d, hRun, ?_, ?_, hUnfolded', ?_⟩
  · obtain ⟨a, e, -, hResult, hDecode, -, -, hKept, -⟩ := hExpand definition (by decide +kernel)
    exact ⟨a, hResult, hKept hDefinition ▸ hDecode⟩
  · obtain ⟨a, e, fresh, hResult, hDecode, hFresh, hSize, -, hOutcome⟩ := hExpand merging hMerging
    have hWellFormed : (d.glossary.unfolded merging).WellFormed := by
      rw [hUnfolded]
      decide +kernel
    obtain ⟨rfl, -⟩ := (hOutcome hOther).1 (Or.inl hWellFormed)
    rw [hUnfolded] at hDecode hFresh
    exact ⟨a, fresh, hResult, hDecode, hFresh, hSize⟩
  · obtain ⟨a, e, -, hResult, hDecode, -, -, -, hOutcome⟩ := hExpand refused hRefused
    have hFlaw : ¬ (d.glossary.unfolded refused).WellFormed := by
      rw [hUnfolded']
      decide +kernel
    exact ⟨a, hResult, (hOutcome hOther').2 hFlaw ▸ hDecode⟩

end Declared

end OntoFold
