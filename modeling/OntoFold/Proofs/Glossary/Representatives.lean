import OntoFold.Proofs.Census.Survey
import OntoFold.Proofs.Folding.Repetitions

/-!
# Representatives of repeated expressions

A repeated expression is represented by the discovered symbol of an expression that has it inside,
or is it, and occurs as often. There is one such symbol because candidates that dominate the same
expression stand around all of its occurrences. Around one occurrence they are inside one another,
so the inner one of two would be dominated by the outer one.

* `ClassExpression.nested_of_not_kept`: expressions around all occurrences are nested.
* `Census.eq_of_undominated`: two undominated expressions around an expression are equal.
* `Discovered.ofList_represents`: every repeated expression has one representative.
-/

namespace OntoFold

/-! ## Expressions around an occurrence -/

namespace ClassExpression

variable {e p q x : ClassExpression} {σ : ClassExpression → Option ClassExpression}

/-- An expression stands in its own place or strictly inside. -/
theorem mem_positions_iff_strictlyNested : e ∈ p.positions ↔ p = e ∨ e ∈ p.strictlyNested := by
  rw [mem_positions_iff, mem_strictlyNested, eq_comm]

/-- What is not kept stands inside something that has a replacement. -/
theorem exists_around_of_not_kept (he : e ∈ x.positions) (h : ¬ Kept σ e x) :
    ∃ p ∈ x.positions, σ p ≠ none := by
  induction x using operands_induction with
  | step x ih =>
    by_cases hx : σ x = none
    · rcases mem_positions_iff.1 he with rfl | ⟨o, ho, he⟩
      · exact absurd (.here hx) h
      · obtain ⟨p, hp, hSome⟩ := ih o ho he fun hKept => h (.inside hx ho hKept)
        exact ⟨p, mem_positions_iff.2 (Or.inr ⟨o, ho, hp⟩), hSome⟩
    · exact ⟨x, mem_positions_iff.2 (Or.inl rfl), hx⟩

/-- When every way to an expression leads through an expression, that one is inside. -/
theorem mem_positions_of_not_kept (he : e ∈ x.positions) (h : ¬ Kept (replacing p p) e x) :
    p ∈ x.positions := by
  obtain ⟨q, hq, hSome⟩ := exists_around_of_not_kept he h
  by_cases hSame : q = p
  · exact hSame ▸ hq
  · exact absurd (replacing_eq_none.2 hSame) hSome

/-- Two expressions through which every way to a third one leads are inside one another. -/
theorem nested_of_not_kept (he : e ∈ x.positions) (hp : ¬ Kept (replacing p p) e x)
    (hq : ¬ Kept (replacing q q) e x) : q ∈ p.positions ∨ p ∈ q.positions := by
  induction x using operands_induction with
  | step x ih =>
    -- The outer one is met first; below it the way leads through the other one.
    by_cases hxp : x = p
    · exact Or.inl (hxp ▸ mem_positions_of_not_kept he hq)
    by_cases hxq : x = q
    · exact Or.inr (hxq ▸ mem_positions_of_not_kept he hp)
    have hpNone : replacing p p x = none := replacing_eq_none.2 hxp
    have hqNone : replacing q q x = none := replacing_eq_none.2 hxq
    rcases mem_positions_iff.1 he with rfl | ⟨o, ho, he⟩
    · exact absurd (.here hpNone) hp
    · exact ih o ho he (fun hKept => hp (.inside hpNone ho hKept))
        fun hKept => hq (.inside hqNone ho hKept)

end ClassExpression

namespace Census

variable {axioms : List Axiom} {ax : Axiom} {e p q x : ClassExpression}

/-- An expression that occurs as often as one inside it stands around all its occurrences. -/
theorem not_kept_of_occurrences_eq (he : e ∈ p.positions)
    (hSame : (ofList axioms).occurrences p = (ofList axioms).occurrences e) (hAx : ax ∈ axioms)
    (hx : x ∈ ax.roots) : ¬ ClassExpression.Kept (ClassExpression.replacing p p) e x := by
  intro hKept
  have hp : ClassExpression.replacing p p p ≠ none := by
    rw [ClassExpression.replacing_eq_some.2 ⟨rfl, rfl⟩]
    exact Option.some_ne_none p
  have hMore := count_flatMap_lt (fun ax _ => Axiom.count_le_of_mem_positions he ax) hAx
    (Axiom.count_lt_of_kept he hp hx hKept)
  rw [occurrences_ofList, occurrences_ofList] at hSame
  exact Nat.ne_of_lt hMore hSame

/-- An undominated expression is not strictly inside one that occurs as often. -/
theorem eq_of_mem_positions (hp : p ∈ (ofList axioms).bottomUp) (hInside : q ∈ p.positions)
    (hSame : (ofList axioms).occurrences p = (ofList axioms).occurrences q)
    (hq : (ofList axioms).dominating? q = none) : p = q := by
  rcases ClassExpression.mem_positions_iff_strictlyNested.1 hInside with hEq | hStrict
  · exact hEq
  · exact absurd hSame (dominating?_eq_none.1 hq p (mem_bottomUp.1 hp) hStrict)

/-- No two undominated expressions have the same expression inside and occur as often as it does. -/
theorem eq_of_undominated (hOccurs : 0 < (ofList axioms).occurrences e)
    (hp : p ∈ (ofList axioms).bottomUp) (hq : q ∈ (ofList axioms).bottomUp)
    (hep : e ∈ p.positions) (heq : e ∈ q.positions)
    (hpSame : (ofList axioms).occurrences p = (ofList axioms).occurrences e)
    (hqSame : (ofList axioms).occurrences q = (ofList axioms).occurrences e)
    (hpNone : (ofList axioms).dominating? p = none)
    (hqNone : (ofList axioms).dominating? q = none) : p = q := by
  obtain ⟨ax, hAx, he⟩ := exists_mem_positions hOccurs
  rw [Axiom.positions_eq_roots] at he
  obtain ⟨x, hx, he⟩ := List.mem_flatMap.1 he
  rcases ClassExpression.nested_of_not_kept he (not_kept_of_occurrences_eq hep hpSame hAx hx)
    (not_kept_of_occurrences_eq heq hqSame hAx hx) with hInside | hInside
  · exact eq_of_mem_positions hp hInside (hpSame.trans hqSame.symm) hqNone
  · exact (eq_of_mem_positions hq hInside (hqSame.trans hpSame.symm) hpNone).symm

end Census

/-! ## Discovered symbols -/

namespace Discovered

variable {axioms : List Axiom} {options : Options} {e p : ClassExpression} {entry entry' : Entry}

theorem mem_toList_discoveredOf :
    entry ∈ (discoveredOf axioms options).glossary.toList ↔
      ∃ k, (candidatesOf axioms options)[k]? = some entry.evaluation ∧
        entry = ⟨symbolAfter options.stem k, entry.evaluation, entry.evaluation⟩ := by
  simp only [discoveredOf, Glossary.mem_toList, Glossary.get?_published, get?_symbolsOf]
  constructor
  · rintro ⟨n, k, e, he, rfl, rfl⟩
    exact ⟨k, he, rfl⟩
  · rintro ⟨k, he, hEntry⟩
    exact ⟨_, k, _, he, rfl, hEntry⟩

/-- The symbols stand for candidates. -/
theorem evaluation_mem_candidatesOf
    (h : entry ∈ (discoveredOf axioms options).glossary.toList) :
    entry.evaluation ∈ candidatesOf axioms options := by
  obtain ⟨k, hk, -⟩ := mem_toList_discoveredOf.1 h
  exact List.mem_of_getElem? hk

theorem exists_entry_of_mem_candidatesOf (hp : p ∈ candidatesOf axioms options) :
    ∃ entry ∈ (discoveredOf axioms options).glossary.toList, entry.evaluation = p := by
  obtain ⟨k, hk⟩ := List.mem_iff_getElem?.1 hp
  exact ⟨⟨symbolAfter options.stem k, p, p⟩, mem_toList_discoveredOf.2 ⟨k, hk, rfl⟩, rfl⟩

/-- No two symbols stand for the same expression. -/
theorem entry_inj (h : entry ∈ (discoveredOf axioms options).glossary.toList)
    (h' : entry' ∈ (discoveredOf axioms options).glossary.toList)
    (hSame : entry.evaluation = entry'.evaluation) : entry = entry' := by
  obtain ⟨k, hk, hEntry⟩ := mem_toList_discoveredOf.1 h
  obtain ⟨k', hk', hEntry'⟩ := mem_toList_discoveredOf.1 h'
  have hNodup : (candidatesOf axioms options).Nodup := (Census.nodup_bottomUp _).filter _
  have hNumbers : k = k' := by
    have hLt := (List.getElem?_eq_some_iff.1 hk).1
    exact (List.getElem?_inj hLt hNodup).1 (hk.trans (hSame ▸ hk'.symm))
  rw [hEntry, hEntry', hSame, hNumbers]

/-- A symbol stands for an expression, or for something around it, that occurs as often. -/
structure Represents (d : Discovered) (entry : Entry) (e : ClassExpression) : Prop where
  mem : entry ∈ d.glossary.toList
  occurrences : d.census.occurrences entry.evaluation = d.census.occurrences e
  inside : entry.evaluation = e ∨ e ∈ entry.evaluation.strictlyNested

/-- Repeated expressions have one representative. -/
theorem existsUnique_represents (hSize : options.symbolSize < e.size)
    (hOccurrences : options.symbolOccurrences < (censusOf axioms).occurrences e) :
    ∃! entry, (discoveredOf axioms options).Represents entry e := by
  obtain ⟨p, hp, hInside, hSame⟩ := exists_candidate hSize hOccurrences
  obtain ⟨entry, hEntry, rfl⟩ := exists_entry_of_mem_candidatesOf hp
  refine ⟨entry, ⟨hEntry, hSame, ClassExpression.mem_positions_iff_strictlyNested.1 hInside⟩, ?_⟩
  intro entry' hEntry'
  obtain ⟨hCorpus, -, -, hNone⟩ := isCandidateOf_iff.1 hp
  obtain ⟨hCorpus', -, -, hNone'⟩ := isCandidateOf_iff.1 (evaluation_mem_candidatesOf hEntry'.mem)
  apply entry_inj hEntry'.mem hEntry
  exact Census.eq_of_undominated (Nat.zero_lt_of_lt hOccurrences) hCorpus' hCorpus
    (ClassExpression.mem_positions_iff_strictlyNested.2 hEntry'.inside) hInside
    hEntry'.occurrences hSame hNone' hNone

/-- Discovering symbols never fails. Everything in the axioms without complements beyond both
thresholds has exactly one symbol that stands for it, or for something around it, and for something
that occurs as often. What a symbol stands for is itself beyond both thresholds, and nothing around
it occurs as often. -/
theorem ofList_represents (hAxioms : ∀ ax ∈ axioms, ax.Canonical) (options : Options) :
    ∃ d, (ofList axioms options).result = .ok d ∧
      (∀ ax, ax ∈ d.corpus ↔ ax ∈ axioms ∧ ax.hasComplement = false) ∧
      d.census = .ofList d.corpus.toList ∧
      (∀ e, options.symbolSize < e.size → options.symbolOccurrences < d.census.occurrences e →
        ∃! entry, d.Represents entry e) ∧
      ∀ entry ∈ d.glossary.toList, options.symbolSize < entry.evaluation.size ∧
        options.symbolOccurrences < d.census.occurrences entry.evaluation ∧
        ∀ outer ∈ d.census.bottomUp, entry.evaluation ∈ outer.strictlyNested →
          d.census.occurrences outer ≠ d.census.occurrences entry.evaluation := by
  refine ⟨_, ofList_result hAxioms options, ?corpus, rfl, fun e => existsUnique_represents,
    ?candidates⟩
  case corpus =>
    intro ax
    simp [discoveredOf, corpusOf]
  case candidates =>
    intro entry hEntry
    obtain ⟨-, hSize, hOccurrences, hNone⟩ :=
      isCandidateOf_iff.1 (evaluation_mem_candidatesOf hEntry)
    refine ⟨hSize, hOccurrences, fun outer hOuter hInside => ?_⟩
    exact Census.dominating?_eq_none.1 hNone outer (Census.mem_bottomUp.1 hOuter) hInside

/-- Expressions that a larger one dominates, and a class that a disjoint union defines. The axiom
with a complement is not searched. -/
theorem ofList_represents_dominated :
    let link (p : String) (e : ClassExpression) : ClassExpression :=
      .quantified .existential (.named ⟨p⟩) e
    let inner : ClassExpression := link "s" (.named ⟨"C"⟩)
    let axioms : List Axiom := [
      .subClassOf (.named ⟨"A"⟩) (link "r" inner),
      .subClassOf (.named ⟨"B"⟩) (.combined .union [.named ⟨"D"⟩, link "r" inner]),
      .disjointUnion ⟨"A"⟩ [.named ⟨"D"⟩, link "r" (.named ⟨"B"⟩)],
      .subClassOf (.complement inner) inner]
    let options : Options := { symbolSize := 0 }
    (∀ ax ∈ axioms, ax.Canonical) ∧
    ∃ d, (ofList axioms options).result = .ok d ∧
      ∀ e ∈ [.named ⟨"C"⟩, inner, .named ⟨"A"⟩], options.symbolSize < e.size ∧
        options.symbolOccurrences < d.census.occurrences e ∧
        ∃! entry, d.Represents entry e ∧ options.symbolSize < entry.evaluation.size ∧
          options.symbolOccurrences < d.census.occurrences entry.evaluation ∧
          ∀ outer ∈ d.census.bottomUp, entry.evaluation ∈ outer.strictlyNested →
            d.census.occurrences outer ≠ d.census.occurrences entry.evaluation := by
  intro link inner axioms options
  have hAxioms : ∀ ax ∈ axioms, ax.Canonical := by decide +kernel
  obtain ⟨d, hRun, -, -, hRepeated, hEntries⟩ := ofList_represents hAxioms options
  have hOften : ∀ d, (ofList axioms options).result = .ok d →
      ∀ e ∈ [.named ⟨"C"⟩, inner, .named ⟨"A"⟩],
        options.symbolSize < e.size ∧ options.symbolOccurrences < d.census.occurrences e := by
    decide +kernel
  refine ⟨hAxioms, d, hRun, fun e he => ?_⟩
  obtain ⟨hSize, hOccurrences⟩ := hOften d hRun e he
  obtain ⟨entry, hEntry, hUnique⟩ := hRepeated e hSize hOccurrences
  exact ⟨hSize, hOccurrences, entry, ⟨hEntry, hEntries entry hEntry.mem⟩,
    fun entry' hEntry' => hUnique entry' hEntry'.1⟩

end Discovered

end OntoFold
