import OntoFold.Proofs.Definition.Abbreviations
import OntoFold.Proofs.Glossary.Closed
import OntoFold.Proofs.Glossary.Unfolding

/-!
# Declared glossaries

From a list of axioms the candidates with one expansion and without circles below them become
symbols. The glossary is read off without a fault, and each evaluation in it is the expansion
with all symbols replaced by their evaluations at once.

* `Declared.validExpansions_eq_some`: which candidates become symbols.
* `Declared.ofList_result`: the glossary that is read off.
* `Declared.ofList_evaluation`: evaluations solve the definitions.
-/

namespace OntoFold

open ClassExpression (byName)
open DependencyGraph (ofCandidates)

namespace Declared

variable {axioms : List Axiom} {options : Options} {index : DefinitionIndex}
  {ambiguous cyclic : SortedSet Iri} {n : Iri} {e X : ClassExpression} {entry : Entry}

/-! ## Symbols and their expansions -/

/-- The symbols are the candidates that are neither ambiguous nor cyclic. -/
theorem validExpansions_eq_some :
    (validExpansions index ambiguous cyclic).get? n = some X ↔
      ∃ s, index.abbreviations.get? n = some s ∧ (n ∉ ambiguous ∧ n ∉ cyclic) ∧
        s.toList.head? = some X := by
  have hFold : validExpansions index ambiguous cyclic =
      (index.abbreviations.filter fun symbol _ =>
        symbol ∉ ambiguous && symbol ∉ cyclic).toList.foldl
          (fun m x => x.2.toList.head?.elim m (m.insert x.1)) ∅ := by
    unfold validExpansions
    congr 1
    funext m ⟨symbol, s⟩
    dsimp only
    cases s.toList.head? <;> rfl
  rw [hFold, SortedMap.get?_foldl_insertSome (fun s : SortedSet ClassExpression =>
    s.toList.head?) SortedMap.keys_nodup]
  refine exists_congr fun s => ?_
  rw [← SortedMap.get?_eq_some_iff, SortedMap.get?_filter, Bool.and_eq_true, decide_eq_true_eq,
    decide_eq_true_eq, and_assoc]

variable (axioms)

/-- What the axioms abbreviate. -/
def candidatesOf : Candidates := (DefinitionIndex.ofList axioms).abbreviations

/-- The candidates with several expansions. -/
def ambiguousOf : SortedSet Iri :=
  ((candidatesOf axioms).filter fun _ expansions => 1 < expansions.size).keys

/-- The symbols with their expansions. -/
def expansionsOf : SortedMap Iri ClassExpression :=
  validExpansions (.ofList axioms) (ambiguousOf axioms) (ofCandidates (candidatesOf axioms)).cyclic

/-- What the symbols stand for. -/
def valueOf : Iri → Option ClassExpression :=
  evaluationOf (expansionsOf axioms) (candidatesOf axioms)

variable {axioms}

theorem expansionsOf_eq_some :
    (expansionsOf axioms).get? n = some X ↔
      ∃ s, (candidatesOf axioms).get? n = some s ∧
        (n ∉ ambiguousOf axioms ∧ n ∉ (ofCandidates (candidatesOf axioms)).cyclic) ∧
        s.toList.head? = some X := validExpansions_eq_some

theorem expansionsOf_of_ambiguous (h : n ∈ ambiguousOf axioms) :
    (expansionsOf axioms).get? n = none := by
  apply Option.eq_none_iff_forall_ne_some.2
  intro X hX
  obtain ⟨s, -, ⟨hAmbiguous, -⟩, -⟩ := expansionsOf_eq_some.1 hX
  exact hAmbiguous h

/-- A symbol has one expansion. -/
theorem abbreviates_iff_of_expansion (hX : (expansionsOf axioms).get? n = some X) :
    (∃ ax ∈ axioms, ax.Abbreviates n e) ↔ e = X := by
  obtain ⟨s, hGet, ⟨hAmbiguous, -⟩, hHead⟩ := expansionsOf_eq_some.1 hX
  have hMem : X ∈ s := List.mem_of_head? hHead
  have hSize : s.size ≤ 1 := by
    by_contra hLarge
    apply hAmbiguous
    exact SortedMap.mem_keys_filter.2 ⟨s, hGet, by simpa using hLarge⟩
  rw [← DefinitionIndex.mem_abbreviations]
  constructor
  · rintro ⟨t, hGet', he⟩
    obtain rfl := Option.some.inj (hGet.symm.trans hGet')
    exact SortedSet.eq_of_size_le_one hSize he hMem
  · rintro rfl
    exact ⟨s, hGet, hMem⟩

/-- The names that become symbols. -/
theorem contains_expansionsOf :
    (expansionsOf axioms).contains n = true ↔
      (∃ e, ∃ ax ∈ axioms, ax.Abbreviates n e) ∧ n ∉ ambiguousOf axioms ∧
        n ∉ (ofCandidates (candidatesOf axioms)).cyclic := by
  rw [SortedMap.contains_iff]
  constructor
  · rintro ⟨X, hX⟩
    obtain ⟨s, -, hValid, -⟩ := expansionsOf_eq_some.1 hX
    exact ⟨⟨X, (abbreviates_iff_of_expansion hX).2 rfl⟩, hValid⟩
  · rintro ⟨⟨e, he⟩, hValid⟩
    obtain ⟨s, hGet, hMem⟩ := DefinitionIndex.mem_abbreviations.2 he
    have hHead : s.toList.head? = some (s.toList.head (List.ne_nil_of_mem hMem)) :=
      List.head?_eq_some_head _
    exact ⟨_, expansionsOf_eq_some.2 ⟨s, hGet, hValid, hHead⟩⟩

/-- Symbols can be unfolded. -/
theorem unfoldable_expansionsOf (hAxioms : ∀ ax ∈ axioms, ax.Canonical) :
    Unfoldable (candidatesOf axioms) (expansionsOf axioms) := by
  refine ⟨?_, ?_, ?_⟩
  · intro n X hX
    obtain ⟨ax, hMem, hAbbreviates⟩ := (abbreviates_iff_of_expansion hX).2 rfl
    obtain ⟨operands, rfl⟩ := hAbbreviates.isAbbreviation.equivalent
    have hOperands := (Bool.and_eq_true_iff.1 (hAxioms _ hMem)).2
    exact ClassExpression.allCanonical_iff.1 hOperands X hAbbreviates.complex.1
  · intro n X hX
    obtain ⟨s, hGet, -, hHead⟩ := expansionsOf_eq_some.1 hX
    exact ⟨s, hGet, List.mem_of_head? hHead⟩
  · intro n X hX
    obtain ⟨s, -, ⟨-, hCyclic⟩, -⟩ := expansionsOf_eq_some.1 hX
    exact hCyclic

/-! ## Entries -/

/-- The entry of a symbol. -/
def entryOf (axioms : List Axiom) (n : Iri) (X : ClassExpression) : Entry :=
  ⟨n, X, X.rewrite (byName (valueOf axioms))⟩

/-- The entries of all symbols. -/
def entriesOf (axioms : List Axiom) : Glossary where
  entries := (expansionsOf axioms).mapValues (entryOf axioms)

theorem get?_entriesOf :
    (entriesOf axioms).get? n = some entry ↔
      ∃ X, (expansionsOf axioms).get? n = some X ∧ entryOf axioms n X = entry :=
  SortedMap.get?_mapValues

theorem entryOf_mem_entriesOf (hX : (expansionsOf axioms).get? n = some X) :
    entryOf axioms n X ∈ (entriesOf axioms).toList :=
  Glossary.mem_toList.2 ⟨n, get?_entriesOf.2 ⟨X, hX, rfl⟩⟩

theorem evaluation?_entriesOf (hAxioms : ∀ ax ∈ axioms, ax.Canonical) :
    (entriesOf axioms).evaluation? = valueOf axioms := by
  funext n
  apply Option.ext
  intro e
  rw [Glossary.evaluation?_eq_some]
  simp only [get?_entriesOf]
  constructor
  · rintro ⟨entry, ⟨X, hX, rfl⟩, rfl⟩
    exact evaluationOf_eq (unfoldable_expansionsOf hAxioms) hX
  · intro he
    cases hX : (expansionsOf axioms).get? n with
    | none =>
      rw [valueOf, evaluationOf_eq_none hX] at he
      cases he
    | some X =>
      rw [valueOf, evaluationOf_eq (unfoldable_expansionsOf hAxioms) hX] at he
      exact ⟨_, ⟨X, rfl, rfl⟩, Option.some.inj he⟩

theorem contains_entriesOf :
    (entriesOf axioms).contains n = (expansionsOf axioms).contains n := by
  rw [Bool.eq_iff_iff, Glossary.contains, SortedMap.contains_iff, SortedMap.contains_iff]
  constructor
  · rintro ⟨entry, hGet⟩
    obtain ⟨X, hX, -⟩ := get?_entriesOf.1 hGet
    exact ⟨X, hX⟩
  · rintro ⟨X, hX⟩
    exact ⟨_, get?_entriesOf.2 ⟨X, hX, rfl⟩⟩

theorem orderly_entriesOf (hAxioms : ∀ ax ∈ axioms, ax.Canonical) :
    (entriesOf axioms).Orderly := by
  constructor
  · intro n entry hGet
    obtain ⟨X, -, rfl⟩ := get?_entriesOf.1 hGet
    rfl
  · intro n entry hGet
    obtain ⟨X, hX, rfl⟩ := get?_entriesOf.1 hGet
    exact (evaluate_result (unfoldable_expansionsOf hAxioms) hX).2.1

/-- The steps that add the entries end with the entries of all symbols. -/
theorem foldlM_entries {step : Glossary → Iri × ClassExpression → Except Fault Glossary}
    (hStep : ∀ n X, (expansionsOf axioms).get? n = some X → ∀ g,
      step g (n, X) = g.insert (entryOf axioms n X)) :
    (expansionsOf axioms).toList.foldlM step ∅ = .ok (entriesOf axioms) := by
  have hAll : ∀ x ∈ (expansionsOf axioms).toList, ∀ g,
      step g x = g.insert (entryOf axioms x.1 x.2) := fun x hx =>
    hStep x.1 x.2 (SortedMap.get?_eq_some_iff.2 hx)
  rw [Glossary.foldlM_insert hAll SortedMap.keys_nodup fun x hx => rfl]
  refine congrArg (fun entries => Except.ok (Glossary.mk entries ∅)) (SortedMap.ext fun n => ?_)
  apply Option.ext
  intro entry
  have hKeys : (((expansionsOf axioms).toList.map fun x =>
      ((entryOf axioms x.1 x.2).symbol, entryOf axioms x.1 x.2)).map Prod.fst).Nodup := by
    rw [List.map_map]
    exact SortedMap.keys_nodup
  rw [SortedMap.get?_foldl_insert hKeys]
  refine Iff.trans ?_ get?_entriesOf.symm
  constructor
  · rintro (hMem | ⟨-, hNone⟩)
    · obtain ⟨⟨m, X⟩, hx, hEq⟩ := List.mem_map.1 hMem
      obtain ⟨rfl, rfl⟩ := Prod.mk.inj hEq
      exact ⟨X, SortedMap.get?_eq_some_iff.2 hx, rfl⟩
    · cases hNone
  · rintro ⟨X, hX, rfl⟩
    exact Or.inl (List.mem_map.2 ⟨(n, X), SortedMap.get?_eq_some_iff.1 hX, rfl⟩)

/-- An expansion is not a name. -/
theorem name?_of_expansion (hX : (expansionsOf axioms).get? n = some X) : X.name? = none := by
  obtain ⟨ax, -, hAbbreviates⟩ := (abbreviates_iff_of_expansion hX).2 rfl
  exact hAbbreviates.complex.2

/-- Evaluations mention no symbols. -/
theorem closed_entriesOf (hAxioms : ∀ ax ∈ axioms, ax.Canonical) : (entriesOf axioms).Closed := by
  refine ⟨orderly_entriesOf hAxioms, ?_⟩
  intro n e hn m hm
  obtain ⟨entry, hGet, rfl⟩ := Glossary.evaluation?_eq_some.1 hn
  obtain ⟨X, hX, rfl⟩ := get?_entriesOf.1 hGet
  rw [← Glossary.contains_eq_false, contains_entriesOf]
  exact (evaluate_result (unfoldable_expansionsOf hAxioms) hX).2.2 m hm

/-- An evaluation is not a name. -/
theorem name?_of_evaluation (h : (entriesOf axioms).evaluation? n = some e) : e.name? = none := by
  obtain ⟨entry, hGet, rfl⟩ := Glossary.evaluation?_eq_some.1 h
  obtain ⟨X, hX, rfl⟩ := get?_entriesOf.1 hGet
  exact ClassExpression.name?_rewrite_byName (name?_of_expansion hX)

/-! ## The glossary of a list of axioms -/

/-- What reading a glossary off some axioms gives. -/
def declaredOf (axioms : List Axiom) (options : Options) : Declared where
  index := .ofList axioms
  dependencies := ofCandidates (candidatesOf axioms)
  ambiguous := ambiguousOf axioms
  cyclic := (ofCandidates (candidatesOf axioms)).cyclic
  glossary := (entriesOf axioms).published options.declaredDefinition

theorem evaluation?_declaredOf (hAxioms : ∀ ax ∈ axioms, ax.Canonical) :
    (declaredOf axioms options).glossary.evaluation? = valueOf axioms :=
  evaluation?_entriesOf hAxioms

theorem result_reportCyclic (graph : DependencyGraph) :
    graph.reportCyclic.result = .ok graph.cyclic := rfl

/-- The glossary of a list of axioms is read off without a fault. -/
theorem ofList_result (hAxioms : ∀ ax ∈ axioms, ax.Canonical) (options : Options) :
    (ofList axioms options).result = .ok (declaredOf axioms options) := by
  unfold ofList
  simp only [Run.result_bind, result_reportCyclic, Run.ok_bind, Run.result_foldlM]
  refine (Run.bind_of_eq_ok (foldlM_entries ?_) _).trans ?_
  · intro n X hX g
    have hEvaluate := (evaluate_result (unfoldable_expansionsOf hAxioms) hX).1
    exact Run.bind_of_eq_ok hEvaluate _
  · exact Run.bind_of_eq_ok (Glossary.foldDefinitions_result (orderly_entriesOf hAxioms)) _

/-- Reading a glossary off some axioms never fails. Its symbols are the abbreviated names that are
neither ambiguous nor cyclic. The evaluation of a symbol is its only expansion with all symbols
replaced by their evaluations at once; it mentions no symbol, and the ambiguous names of the
expansion stay. -/
theorem ofList_evaluation (hAxioms : ∀ ax ∈ axioms, ax.Canonical) (options : Options) :
    ∃ d, (ofList axioms options).result = .ok d ∧
      (∀ n, d.glossary.contains n = true ↔
        (∃ e, ∃ ax ∈ axioms, ax.Abbreviates n e) ∧ n ∉ d.ambiguous ∧ n ∉ d.cyclic) ∧
      ∀ n entry, d.glossary.get? n = some entry →
        (∀ e, (∃ ax ∈ axioms, ax.Abbreviates n e) ↔ e = entry.expansion) ∧
        entry.evaluation = entry.expansion.rewrite (byName d.glossary.evaluation?) ∧
        (∀ m ∈ entry.evaluation.names, d.glossary.contains m = false) ∧
        ∀ m ∈ d.ambiguous, m ∈ entry.expansion.names → m ∈ entry.evaluation.names := by
  refine ⟨_, ofList_result hAxioms options, ?_, ?_⟩
  · intro n
    refine Iff.trans ?_ contains_expansionsOf
    rw [← contains_entriesOf]
    rfl
  intro n entry hGet
  obtain ⟨X, hX, rfl⟩ := get?_entriesOf.1 hGet
  refine ⟨fun e => abbreviates_iff_of_expansion hX, ?_, ?_, ?_⟩
  · rw [evaluation?_declaredOf hAxioms]
    rfl
  · intro m hm
    exact contains_entriesOf.trans
      ((evaluate_result (unfoldable_expansionsOf hAxioms) hX).2.2 m hm)
  · intro m hm hMem
    refine ClassExpression.mem_names_rewrite.2 ⟨m, hMem, ?_⟩
    rw [valueOf, evaluationOf_eq_none (expansionsOf_of_ambiguous hm), Option.getD_none]
    exact ClassExpression.mem_names_named.2 rfl

/-- A symbol that needs two others, one of which needs the other one, beside an ambiguous name, which
stays in the evaluation. -/
theorem ofList_evaluation_levels :
    let link (p : String) (e : ClassExpression) : ClassExpression :=
      .quantified .existential (.named ⟨p⟩) e
    let axioms : List Axiom := [
      .equivalent [.named ⟨"K"⟩,
        link "r" (.combined .intersection [.named ⟨"A"⟩, .named ⟨"M"⟩, .named ⟨"N"⟩])],
      .equivalent [.named ⟨"M"⟩, link "s" (.named ⟨"N"⟩)],
      .equivalent [.named ⟨"N"⟩, link "t" (.named ⟨"C"⟩)],
      .equivalent [.named ⟨"A"⟩, link "t" (.named ⟨"C"⟩), link "t" (.named ⟨"N"⟩)]]
    (∀ ax ∈ axioms, ax.Canonical) ∧
    ∃ d, (ofList axioms {}).result = .ok d ∧
      (∀ n, d.glossary.contains n = true ↔
        (∃ e, ∃ ax ∈ axioms, ax.Abbreviates n e) ∧ n ∉ d.ambiguous ∧ n ∉ d.cyclic) ∧
      (∀ n entry, d.glossary.get? n = some entry →
        (∀ e, (∃ ax ∈ axioms, ax.Abbreviates n e) ↔ e = entry.expansion) ∧
        entry.evaluation = entry.expansion.rewrite (byName d.glossary.evaluation?) ∧
        (∀ m ∈ entry.evaluation.names, d.glossary.contains m = false) ∧
        ∀ m ∈ d.ambiguous, m ∈ entry.expansion.names → m ∈ entry.evaluation.names) ∧
      ⟨"A"⟩ ∈ d.ambiguous ∧ d.glossary.contains ⟨"A"⟩ = false ∧
      (d.glossary.get? ⟨"K"⟩).map (fun entry => (entry.expansion, entry.evaluation)) =
        some (link "r" (.combine .intersection [.named ⟨"A"⟩, .named ⟨"M"⟩, .named ⟨"N"⟩]),
          link "r" (.combine .intersection [.named ⟨"A"⟩,
            link "s" (link "t" (.named ⟨"C"⟩)), link "t" (.named ⟨"C"⟩)])) := by
  intro link axioms
  have hAxioms : ∀ ax ∈ axioms, ax.Canonical := by decide +kernel
  obtain ⟨d, hRun, hSymbols, hEvaluations⟩ := ofList_evaluation hAxioms {}
  have hFacts : ∀ d, (ofList axioms {}).result = .ok d →
      ⟨"A"⟩ ∈ d.ambiguous ∧ d.glossary.contains ⟨"A"⟩ = false ∧
      (d.glossary.get? ⟨"K"⟩).map (fun entry => (entry.expansion, entry.evaluation)) =
        some (link "r" (.combine .intersection [.named ⟨"A"⟩, .named ⟨"M"⟩, .named ⟨"N"⟩]),
          link "r" (.combine .intersection [.named ⟨"A"⟩,
            link "s" (link "t" (.named ⟨"C"⟩)), link "t" (.named ⟨"C"⟩)])) := by
    decide +kernel
  exact ⟨hAxioms, d, hRun, hSymbols, hEvaluations, hFacts d hRun⟩

end Declared

end OntoFold
