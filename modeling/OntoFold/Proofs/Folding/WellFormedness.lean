import OntoFold.Proofs.Folding.Declared
import OntoFold.Proofs.Ontology.Admission

/-!
# Well-formedness of folded ontologies

Unfolding and folding keep axioms well formed, since each stage is guarded. The evaluations of
symbols are not: putting expressions in place of symbols can merge the operands of a connective
until too few are left, and such an evaluation goes into the published definitions and from there
into the minimized axioms.

* `Glossary.Closed.flawless_iff`: the published definitions have no flaws when the evaluations
  have none.
* `Ontology.loads_iff`: loading axioms drops none when all are well formed.
* `Ontology.wellFormed_foldDeclared`: which outcomes of folding are well formed.
-/

namespace OntoFold

open ClassExpression (byName)

/-! ## Definitions -/

/-- An expression defines a name in a well-formed way when it has no flaw. -/
theorem Axiom.wellFormed_define {n : Iri} {e : ClassExpression} (hName : e.name? = none) :
    (Axiom.define n e).WellFormed ↔ e.flaw? = none := by
  have hNe : ClassExpression.named n ≠ e := by
    rintro rfl
    cases hName
  have hTwo : 2 ≤ (ascend [.named n, e]).length := by
    by_contra hFew
    refine hNe (SortedSet.eq_of_size_le_one (s := .ofList [.named n, e]) ?_ ?_ ?_)
    · exact Nat.le_of_lt_succ (Nat.not_le.1 hFew)
    · exact SortedSet.mem_ofList.2 List.mem_cons_self
    · exact SortedSet.mem_ofList.2 (List.mem_cons_of_mem _ List.mem_cons_self)
  have hOperands : ∀ o ∈ (Axiom.define n e).operands, o = .named n ∨ o = e := by
    intro o ho
    simpa [mem_ascend] using mem_ascend.1 ho
  rw [wellFormed_iff]
  constructor
  · rintro ⟨-, hFlaws⟩
    exact hFlaws e (mem_ascend.2 (List.mem_cons_of_mem _ List.mem_cons_self))
  · intro hFlaw
    refine ⟨Flaw.unless_eq_none.2 (decide_eq_true hTwo), fun o ho => ?_⟩
    rcases hOperands o ho with rfl | rfl
    · rfl
    · exact hFlaw

namespace Glossary

variable {g : Glossary} {entry : Entry} {threshold : Nat}

/-- No evaluation has a flaw. -/
def Flawless (g : Glossary) : Prop := ∀ n e, g.evaluation? n = some e → e.flaw? = none

/-- The published definitions have no flaws when the evaluations have none, and only then. -/
theorem Closed.flawless_iff (hg : g.Closed) (threshold : Nat) :
    g.Flawless ↔ ∀ entry ∈ g.toList, (g.foldedEvaluation threshold entry).flaw? = none := by
  constructor
  · intro h entry hEntry
    apply ClassExpression.flaw?_of_rewrite (σ := byName g.evaluation?)
    · exact fun t _ r hr => ClassExpression.flaw?_of_byName hr
    · rw [hg.unfold_foldedEvaluation hEntry]
      exact h entry.symbol _ (hg.evaluation?_symbol hEntry)
  · intro h n e he
    -- What is folded inside an evaluation are smaller evaluations.
    induction hSize : e.size using Nat.strongRecOn generalizing n e with
    | ind size ih =>
      obtain ⟨entry, hGet, rfl⟩ := evaluation?_eq_some.1 he
      have hEntry := mem_toList.2 ⟨n, hGet⟩
      have hFolded := h entry hEntry
      rw [hg.foldedEvaluation_eq hEntry] at hFolded
      obtain ⟨hOwn, hOperands⟩ := ClassExpression.flaw?_eq_none.1 hFolded
      refine ClassExpression.flaw?_eq_none.2
        ⟨ClassExpression.ownFlaw?_of_mapOperands hOwn, fun o ho => ?_⟩
      apply ClassExpression.flaw?_of_rewrite (σ := g.folding threshold)
      · intro t ht r hr
        obtain ⟨-, symbol, hSymbol, -⟩ := folding_eq_some.1 hr
        have hSmaller := ClassExpression.size_lt_of_mem_positions ho ht
        rw [hSize] at hSmaller
        exact ih t.size hSmaller symbol t (hg.evaluation?_symbolFor hSymbol) rfl
      · exact hOperands _ (ClassExpression.mem_operands_mapOperands.2 ⟨o, ho, rfl⟩)

end Glossary

/-! ## Loading axioms -/

namespace Ontology

/-- Loading some axioms drops and reports nothing. -/
def Loads (axioms : List Axiom) : Prop :=
  ∃ o, ofList axioms = pure o ∧ ∀ ax, ax ∈ o.axioms ↔ ax ∈ axioms

/-- Steps that add the well-formed axioms add all axioms when all are well formed. -/
theorem foldlM_add {step : Ontology → Axiom → Run Ontology} {axioms : List Axiom}
    (hStep : ∀ o (ax : Axiom), ax.WellFormed →
      ∃ p, step o ax = pure p ∧ ∀ ax', ax' ∈ p.axioms ↔ ax' = ax ∨ ax' ∈ o.axioms)
    (h : ∀ ax ∈ axioms, ax.WellFormed) (o : Ontology) :
    ∃ p, axioms.foldlM step o = pure p ∧ ∀ ax, ax ∈ p.axioms ↔ ax ∈ o.axioms ∨ ax ∈ axioms := by
  induction axioms generalizing o with
  | nil => exact ⟨o, rfl, by simp⟩
  | cons ax axioms ih =>
    obtain ⟨p, hFirst, hNew⟩ := hStep o ax (h ax List.mem_cons_self)
    obtain ⟨q, hRest, hMem⟩ := ih (fun x hx => h x (List.mem_cons_of_mem _ hx)) p
    refine ⟨q, ?_, fun x => ?_⟩
    · rw [List.foldlM_cons, hFirst, pure_bind, hRest]
    · rw [hMem, hNew, List.mem_cons, or_comm (a := x = ax), or_assoc]

/-- Loading axioms drops none when all of them are well formed, and only then. -/
theorem loads_iff {axioms : List Axiom} : Loads axioms ↔ ∀ ax ∈ axioms, ax.WellFormed := by
  constructor
  · rintro ⟨o, -, hMem⟩ ax hAx
    exact o.wellFormed ax ((hMem ax).2 hAx)
  · intro h
    have hFold : ∃ o, ofList axioms = pure o ∧
        ∀ ax, ax ∈ o.axioms ↔ ax ∈ (∅ : Ontology).axioms ∨ ax ∈ axioms := by
      refine foldlM_add (fun o ax hAx => ?_) h ∅
      obtain ⟨p, hInsert, hNew⟩ := o.insert_of_wellFormed hAx
      exact ⟨p, by rw [hInsert], hNew⟩
    obtain ⟨o, hRun, hMem⟩ := hFold
    exact ⟨o, hRun, fun ax => (hMem ax).trans (or_iff_right SortedSet.not_mem_empty)⟩

end Ontology

/-! ## Declared symbols -/

namespace Declared

variable {axioms : List Axiom} {options : Options} {ax : Axiom} {n : Iri} {X : ClassExpression}

/-- The definitions of all symbols are well formed when no evaluation has a flaw, and only then. -/
theorem wellFormed_definitions_iff (hAxioms : ∀ ax ∈ axioms, ax.Canonical) (options : Options) :
    (∀ n X, (expansionsOf axioms).get? n = some X →
      (Axiom.define n (definitionOf axioms options n X)).WellFormed) ↔
        (declaredOf axioms options).glossary.Flawless := by
  refine Iff.trans ?_ ((closed_entriesOf hAxioms).flawless_iff options.declaredDefinition).symm
  constructor
  · intro h entry hEntry
    obtain ⟨n, hGet⟩ := Glossary.mem_toList.1 hEntry
    obtain ⟨X, hX, rfl⟩ := get?_entriesOf.1 hGet
    exact (Axiom.wellFormed_define (name?_definitionOf hAxioms hX)).1 (h n X hX)
  · intro h n X hX
    apply (Axiom.wellFormed_define (name?_definitionOf hAxioms hX)).2
    exact h _ (entryOf_mem_entriesOf hX)

theorem mem_definitionAxioms (hAxioms : ∀ ax ∈ axioms, ax.Canonical) :
    ax ∈ (declaredOf axioms options).glossary.definitionAxioms ↔
      ∃ n X, (expansionsOf axioms).get? n = some X ∧
        ax = .define n (definitionOf axioms options n X) := by
  refine (Glossary.mem_definitionAxioms_published (orderly_entriesOf hAxioms)).trans ?_
  constructor
  · rintro ⟨entry, hEntry, rfl⟩
    obtain ⟨n, hGet⟩ := Glossary.mem_toList.1 hEntry
    obtain ⟨X, hX, rfl⟩ := get?_entriesOf.1 hGet
    exact ⟨n, X, hX, rfl⟩
  · rintro ⟨n, X, hX, rfl⟩
    exact ⟨entryOf axioms n X, entryOf_mem_entriesOf hX, rfl⟩

/-- The minimized axioms are well formed when the definitions are, since every definition is one of
them and the others are guarded. -/
theorem wellFormed_minimized_iff (hAxioms : ∀ ax ∈ axioms, ax.Canonical)
    (hWellFormed : ∀ ax ∈ axioms, ax.WellFormed) (options : Options) :
    (∀ ax ∈ axioms, ((declaredOf axioms options).source.minimized options ax).WellFormed) ↔
      (declaredOf axioms options).glossary.Flawless := by
  rw [← wellFormed_definitions_iff hAxioms]
  constructor
  · intro h n X hX
    obtain ⟨ax, hMem, hAbbreviates⟩ := (abbreviates_iff_of_expansion hX).2 rfl
    have hMinimized := h ax hMem
    rwa [Source.minimized, definitionFor?_of_abbreviates hAxioms hX hMem hAbbreviates,
      Option.getD_some] at hMinimized
  · intro h ax hMem
    unfold Source.minimized
    cases hDefinition : (declaredOf axioms options).source.definitionFor? ax with
    | some ax' =>
      obtain ⟨n, X, hX, -, -, -, rfl⟩ := definitionFor?_declaredOf hAxioms hDefinition
      exact h n X hX
    | none =>
      exact Axiom.wellFormed_keeping (Source.wellFormed_expanded (hWellFormed ax hMem))

end Declared

/-! ## Outcomes of folding -/

namespace Ontology

/-- Folding an ontology with the symbols it declares never fails, and the unfolded axioms are well
formed. The minimized axioms, and the published definitions as axioms, are well formed if and only
if no evaluation has a flaw. -/
theorem wellFormed_foldDeclared {o : Ontology} (hAxioms : ∀ ax ∈ o.axioms, ax.Canonical)
    (options : Options) :
    ∃ d folding expanded minimized, (o.foldDeclared options).result = .ok (d, folding) ∧
      folding.expandedAxioms = .ok expanded ∧ folding.minimizedAxioms = .ok minimized ∧
      Loads expanded.toList ∧
      (Loads minimized.toList ↔ d.glossary.Flawless) ∧
      (Loads folding.definitionAxioms ↔ d.glossary.Flawless) := by
  obtain ⟨records, hRun, hRecords⟩ := foldDeclared_records hAxioms options
  refine ⟨_, _, _, _, hRun, Folding.expandedAxioms_eq_ok hRecords,
    Folding.minimizedAxioms_eq_ok hRecords, ?_, ?_, ?_⟩
  · rw [loads_iff]
    intro ax' hMem
    obtain ⟨ax, hAx, rfl⟩ := List.mem_map.1 (SortedSet.mem_ofList.1 hMem)
    exact Source.wellFormed_expanded (o.wellFormed ax hAx)
  · rw [loads_iff, ← Declared.wellFormed_minimized_iff hAxioms o.wellFormed]
    simp only [SortedSet.mem_toList, SortedSet.mem_ofList, List.forall_mem_map]
  · rw [loads_iff, ← Declared.wellFormed_definitions_iff hAxioms]
    constructor
    · intro h n X hX
      exact h _ ((Declared.mem_definitionAxioms hAxioms).2 ⟨n, X, hX, rfl⟩)
    · intro h ax hMem
      obtain ⟨n, X, hX, rfl⟩ := (Declared.mem_definitionAxioms hAxioms).1 hMem
      exact h n X hX

/-- A symbol within an intersection of another one, which keeps two operands: no evaluation has a
flaw, and the minimized axioms are well formed. -/
theorem wellFormed_foldDeclared_intersection :
    let link (p : String) (e : ClassExpression) : ClassExpression :=
      .quantified .existential (.named ⟨p⟩) e
    let o : Ontology := ⟨.ofList [
      .equate [.named ⟨"M"⟩, .combine .intersection [.named ⟨"N"⟩, link "s" (.named ⟨"C"⟩)]],
      .equate [.named ⟨"N"⟩, link "r" (.named ⟨"C"⟩)],
      .separate [.named ⟨"N"⟩, link "r" (.named ⟨"C"⟩)]], by decide +kernel⟩
    (∀ ax ∈ o.axioms, ax.Canonical) ∧
    ∃ d folding expanded minimized, (o.foldDeclared {}).result = .ok (d, folding) ∧
      folding.expandedAxioms = .ok expanded ∧ folding.minimizedAxioms = .ok minimized ∧
      Loads expanded.toList ∧
      (Loads minimized.toList ↔ d.glossary.Flawless) ∧
      (Loads folding.definitionAxioms ↔ d.glossary.Flawless) ∧
      d.glossary.Flawless ∧ Loads minimized.toList := by
  intro link o
  have hAxioms : ∀ ax ∈ o.axioms, ax.Canonical := by decide +kernel
  obtain ⟨d, folding, expanded, minimized, hRun, hExpanded, hMinimized, hLoads, hOutcome,
    hPublished⟩ := wellFormed_foldDeclared hAxioms {}
  have hDefinitions : ∀ x, (o.foldDeclared {}).result = .ok x →
      ∀ ax ∈ x.2.definitionAxioms, ax.WellFormed := by
    decide +kernel
  have hFlawless : d.glossary.Flawless := hPublished.1 (loads_iff.2 (hDefinitions _ hRun))
  exact ⟨hAxioms, d, folding, expanded, minimized, hRun, hExpanded, hMinimized, hLoads, hOutcome,
    hPublished, hFlawless, hOutcome.2 hFlawless⟩

/-- The operands of an intersection that a symbol abbreviates stand for the same expression, so the
evaluation of the symbol has one operand, and an ill-formed definition is published. -/
theorem not_loads_of_merged_operands :
    let link : ClassExpression := .quantified .existential (.named ⟨"r"⟩) (.named ⟨"C"⟩)
    let o : Ontology := ⟨.ofList [
      .equate [.named ⟨"M"⟩, .combine .intersection [.named ⟨"N"⟩, link]],
      .equate [.named ⟨"N"⟩, link]], by decide +kernel⟩
    (∀ ax ∈ o.axioms, ax.Canonical) ∧
    ∃ d folding minimized, (o.foldDeclared {}).result = .ok (d, folding) ∧
      folding.minimizedAxioms = .ok minimized ∧
      ¬ Loads minimized.toList ∧ ¬ Loads folding.definitionAxioms := by
  intro link o
  refine ⟨by decide +kernel, ?_⟩
  let single : Axiom := .equate [.named ⟨"M"⟩, .combined .intersection [.named ⟨"N"⟩]]
  have hIllFormed : ¬ single.WellFormed := by decide +kernel
  have hRun : ((o.foldDeclared {}).result >>= fun x => x.2.minimizedAxioms >>= fun minimized =>
      .ok (minimized.toList, x.2.definitionAxioms)) =
        .ok ([single, .equate [.named ⟨"N"⟩, link]], [single, .equate [.named ⟨"N"⟩, link]]) := by
    decide +kernel
  obtain ⟨x, hFold, hRun⟩ := Run.bind_eq_ok hRun
  obtain ⟨minimized, hMinimized, hRun⟩ := Run.bind_eq_ok hRun
  obtain ⟨hList, hDefinitions⟩ := Prod.mk.inj (Except.ok.inj hRun)
  refine ⟨x.1, x.2, minimized, hFold, hMinimized, ?_, ?_⟩
  · rw [hList, loads_iff]
    exact fun h => hIllFormed (h single List.mem_cons_self)
  · rw [hDefinitions, loads_iff]
    exact fun h => hIllFormed (h single List.mem_cons_self)

end Ontology

end OntoFold
