import Mathlib.Algebra.BigOperators.Ring.List
import OntoFold.Proofs.Census.Occurrences
import OntoFold.Proofs.Folding.Stages
import OntoFold.Proofs.Rewriting.Leftovers
import OntoFold.Proofs.Rewriting.Sizes

/-!
# What folding saves

A name is a single node. An expression does not occur inside itself, so its occurrences have nodes
of their own, and putting a name in their place saves all nodes but one of each; operands that
become equal save more. Every replacement is counted in the tree that the earlier ones have left,
so the savings of a whole folding add up, whatever the evaluations mention.

* `Label.size_rewrite_named_add_le`: what one replacement saves.
* `Label.size_rewriteEach_add_le`: what replacements, one after another, save.
* `Arena.RewrittenFrom.encodes`: trees in which class expressions have been replaced.
* `Glossary.fold_saves`: every folded position saves at least the threshold.
-/

namespace OntoFold

open ClassExpression (replacing)

/-! ## Single replacements -/

section Replacements

variable {T e : ClassExpression} {n : Iri} {saved : Nat}

theorem ClassExpression.sum_count_positions_mul (es : List ClassExpression) :
    (es.map fun o => o.positions.count T * saved).sum =
      (es.flatMap positions).count T * saved := by
  rw [List.count_flatMap]
  exact List.sum_map_mul_right es (fun o => o.positions.count T) saved

/-- A name in the place of an expression saves nodes at every position of the expression. -/
theorem ClassExpression.size_rewrite_named_add_le (h : saved < T.size) (e : ClassExpression) :
    (e.rewrite (replacing T (.named n))).size + e.positions.count T * saved ≤ e.size := by
  induction e using operands_induction with
  | step e ih =>
    by_cases he : e = T
    · -- The operands go with the expression, which does not occur in them.
      subst he
      rw [rewrite_of_eq_some (if_pos rfl), count_positions_self, Nat.one_mul]
      show 1 + saved ≤ e.size
      omega
    · have hOperands := size_mapOperands_add_le ih
      rw [sum_count_positions_mul] at hOperands
      rwa [rewrite_of_eq_none (if_neg he), positions_eq, List.count_cons_of_ne he]

theorem Axiom.size_rewrite_named_add_le (h : saved < T.size) (ax : Axiom) :
    (ax.rewrite (replacing T (.named n))).size + ax.positions.count T * saved ≤ ax.size := by
  -- The class that an axiom defines is a single node, so there is nothing to save.
  have hDefined : (ax.definedClass?.map ClassExpression.named).toList.count T * saved = 0 := by
    rcases Nat.eq_zero_or_pos saved with rfl | hSaved
    · exact Nat.mul_zero _
    · refine Nat.mul_eq_zero.2 (Or.inl (List.count_eq_zero.2 fun hMem => ?_))
      obtain ⟨d, -, rfl⟩ := Option.map_eq_some_iff.1 (Option.mem_toList.1 hMem)
      have hOne : (ClassExpression.named d).size = 1 := rfl
      omega
  have hOperands := ax.size_mapClasses_add_le (g := rewriteDefined (replacing T (.named n)))
    fun o _ => ClassExpression.size_rewrite_named_add_le (n := n) h o
  rw [ClassExpression.sum_count_positions_mul] at hOperands
  rwa [rewrite_eq, positions, List.count_append, Nat.add_mul, hDefined, Nat.zero_add]

namespace Label

/-- A name takes the place of an expression at every position. -/
theorem occurrences_named (T : ClassExpression) (n : Iri) (l : Label) :
    l.occurrences T (.named n) = l.phrase.positions.count T := by
  have hNodes : l.phrase.classNodes = l.encode.toList.filterMap fun m => m.phrase.class? := rfl
  rw [← Phrase.classNodes_eq_positions, hNodes, List.count_filterMap, occurrences]
  refine List.countP_congr fun m _ => ?_
  rw [decide_eq_true_iff, beq_iff_eq, Phrase.class?_eq_some]
  exact and_iff_left fun _ => rfl

theorem rewrite_named_ofClass {position : Option Position} :
    rewrite (replacing T (.named n)) ⟨.ofClass e, position⟩ =
      ⟨.ofClass (e.rewrite (replacing T (.named n))), position⟩ := by
  by_cases hPosition : position = some .definedClass
  · subst hPosition
    apply rewrite_of_replacement?_eq
    show (replacing T (.named n) e).filter ClassExpression.isNamed = _
    unfold replacing
    split <;> rfl
  · exact rewrite_ofClass hPosition

/-- One replacement saves nodes at every occurrence. -/
theorem size_rewrite_named_add_le (h : saved < T.size) (l : Label) :
    (l.rewrite (replacing T (.named n))).phrase.size + l.occurrences T (.named n) * saved ≤
      l.phrase.size := by
  obtain ⟨p, position⟩ := l
  rw [occurrences_named]
  match p with
  | .statement ax => exact ax.size_rewrite_named_add_le h
  | .term (.classExpression e) =>
    rw [rewrite_named_ofClass]
    exact ClassExpression.size_rewrite_named_add_le h e
  | .term (.objectProperty _) | .term (.dataProperty _) | .term (.individual _)
  | .term (.literal _) | .term (.dataRange _) | .term (.facet _) | .count _ | .chain _ =>
    exact Nat.le_of_eq (congrArg _ (Nat.zero_mul saved))

end Label

end Replacements

/-! ## Sequences of replacements -/

/-- Each replacement saves what it counts in the outcome of the earlier ones. -/
theorem Label.size_rewriteEach_add_le {steps : List (ClassExpression × ClassExpression)}
    {saved : Nat} (h : ∀ step ∈ steps, saved < step.1.size ∧ ∃ n, step.2 = .named n) (l : Label) :
    (l.rewriteEach steps).phrase.size + l.occurrencesEach steps * saved ≤ l.phrase.size := by
  induction steps generalizing l with
  | nil => exact Nat.le_of_eq (congrArg _ (Nat.zero_mul saved))
  | cons step steps ih =>
    obtain ⟨T, R⟩ := step
    obtain ⟨hLarge, n, hName⟩ := h (T, R) List.mem_cons_self
    obtain rfl : R = .named n := hName
    have hFirst := Label.size_rewrite_named_add_le (T := T) (n := n) hLarge l
    have hRest := ih (fun s hs => h s (List.mem_cons_of_mem _ hs))
      (l.rewrite (replacing T (.named n)))
    rw [Label.occurrencesEach, Nat.add_mul]
    show (Label.rewriteEach steps (l.rewrite (replacing T (.named n)))).phrase.size + _ ≤ _
    omega

namespace Glossary

/-- Folding saves at least the threshold at every position it replaces. -/
theorem size_rewriteEach_foldSteps_add_le (g : Glossary) (es : SortedSet ClassExpression)
    (threshold : Nat) (l : Label) :
    (l.rewriteEach (g.foldSteps es threshold)).phrase.size +
      l.occurrencesEach (g.foldSteps es threshold) * threshold ≤ l.phrase.size := by
  apply Label.size_rewriteEach_add_le
  intro step hStep
  obtain ⟨entry, -, ⟨-, hLarge⟩, rfl⟩ := mem_foldSteps hStep
  exact ⟨hLarge, entry.symbol, rfl⟩

theorem size_rewriteEach_foldSteps_le (g : Glossary) (es : SortedSet ClassExpression)
    (threshold : Nat) (l : Label) :
    (l.rewriteEach (g.foldSteps es threshold)).phrase.size ≤ l.phrase.size :=
  Nat.le_trans (Nat.le_add_right _ _) (g.size_rewriteEach_foldSteps_add_le es threshold l)

/-- No published definition is larger than the evaluation it was made from. -/
theorem size_foldedEvaluation_le (g : Glossary) (threshold : Nat) (entry : Entry) :
    (g.foldedEvaluation threshold entry).size ≤ entry.evaluation.size := by
  have hLabel := g.size_rewriteEach_foldSteps_le (entry.evaluation.nested.erase entry.evaluation)
    threshold (.bare (.ofClass entry.evaluation))
  rw [Label.rewriteEach_ofClass] at hLabel
  exact hLabel

end Glossary

/-- No axiom is folded to a larger one. -/
theorem Source.size_contracted_le (source : Source) (threshold : Nat) (ax : Axiom) :
    (source.contracted threshold ax).size ≤ ax.size := by
  rcases ax.keeping_eq_or (ax.rewriteEach (source.glossary.foldSteps ax.nested threshold))
    with hFolded | hKept
  · have hLabel := source.glossary.size_rewriteEach_foldSteps_le ax.nested threshold
      (.bare (.statement ax))
    rw [Label.rewriteEach_statement] at hLabel
    rw [contracted, hFolded]
    exact hLabel
  · exact Nat.le_of_eq (congrArg Axiom.size hKept)

/-! ## Trees with replaced expressions -/

namespace Arena

/-- What the encoding of a phrase becomes when class expressions in it are replaced, one after
another. -/
inductive RewrittenFrom (p : Phrase) : Arena → Prop
  | start {a : Arena} (h : ofPhrase p none = .ok a) : RewrittenFrom p a
  | substitute {a b : Arena} {T R : ClassExpression} {count : Nat} (ha : RewrittenFrom p a)
    (hR : R.Canonical)
    (h : (a.substitute (.classExpression T) (.classExpression R)).result = .ok (count, b)) :
    RewrittenFrom p b

variable {a : Arena} {p : Phrase}

/-- Every replacement keeps the tree an encoding. -/
theorem RewrittenFrom.encodes (h : a.RewrittenFrom p) (hp : p.Canonical) :
    ∃ steps : List (ClassExpression × ClassExpression), (∀ step ∈ steps, step.2.Canonical) ∧
      a.Encodes (Label.rewriteEach steps (.bare p)) := by
  induction h with
  | start h =>
    obtain ⟨a, hStart, ha⟩ := ofPhrase_encodes p none
    obtain rfl := Except.ok.inj (hStart.symm.trans h)
    exact ⟨[], fun _ hStep => absurd hStep List.not_mem_nil, ha⟩
  | @substitute a b T R count _ hR h ih =>
    obtain ⟨steps, hSteps, ha⟩ := ih
    have hCanonical := Label.canonical_rewriteEach (l := .bare p) hSteps hp
    obtain ⟨c, hRun, hc⟩ := ha.substitute (T := T) hCanonical hR
    obtain rfl : c = b := congrArg Prod.snd (Except.ok.inj (hRun.symm.trans h))
    refine ⟨steps ++ [(T, R)], ?_, ?_⟩
    · rw [List.forall_mem_append]
      exact ⟨hSteps, List.forall_mem_singleton.2 hR⟩
    · rw [Label.rewriteEach, List.foldl_append]
      exact hc

theorem RewrittenFrom.shows {ax : Axiom} (h : a.RewrittenFrom (.statement ax))
    (hAx : ax.Canonical) : ∃ ax', a.Shows ax' := by
  obtain ⟨steps, hSteps, ha⟩ := h.encodes hAx
  rw [Label.rewriteEach_statement] at ha
  exact ⟨_, ha, Axiom.canonical_rewriteEach hSteps hAx⟩

end Arena

/-! ## Folding -/

namespace Glossary

/-- Folding the tree of a phrase in which class expressions have been replaced never fails, and
every folded position saves at least the threshold, whatever the evaluations mention. So folding
enlarges neither the tree of an axiom nor, when the definitions are published, an evaluation. -/
theorem fold_saves (g : Glossary) (threshold : Nat) :
    (∀ (p : Phrase) (a : Arena) (es : SortedSet ClassExpression), p.Canonical →
      a.RewrittenFrom p →
      ∃ count b, (g.fold a es threshold).result = .ok (count, b) ∧
        b.size + count * threshold ≤ a.size) ∧
    (∀ (source : Source) (ax : Axiom) (a : Arena), source.glossary = g → ax.Canonical →
      a.RewrittenFrom (.statement ax) →
      ∃ b, (source.contract threshold a).result = .ok b ∧ b.size ≤ a.size) ∧
    (g.Orderly → ∃ g', (g.foldDefinitions threshold).result = .ok g' ∧
      ∀ n e, g.evaluation? n = some e → ∃ e', g'.definition? n = some e' ∧ e'.size ≤ e.size) := by
  refine ⟨?_, ?_, ?_⟩
  · intro p a es hp h
    obtain ⟨steps, hSteps, ha⟩ := h.encodes hp
    have hFolds : ∀ step ∈ g.foldSteps es threshold, step.2.Canonical := fun _ hStep =>
      canonical_foldSteps hStep
    obtain ⟨b, hRun, hb⟩ :=
      ha.substituteClasses_count (Label.canonical_rewriteEach hSteps hp) hFolds 0
    refine ⟨_, b, hRun, ?_⟩
    rw [ha.size, hb.size, Nat.zero_add]
    exact g.size_rewriteEach_foldSteps_add_le es threshold _
  · rintro source ax a rfl hAx h
    obtain ⟨ax', ha⟩ := h.shows hAx
    obtain ⟨b, hRun, hb⟩ := source.contract_result ha threshold
    refine ⟨b, hRun, ?_⟩
    rw [ha.encodes.size, hb.encodes.size]
    exact source.size_contracted_le threshold ax'
  · intro hg
    refine ⟨_, foldDefinitions_result hg, fun n e he => ?_⟩
    obtain ⟨entry, hGet, rfl⟩ := evaluation?_eq_some.1 he
    exact ⟨_, definition?_published hg hGet, g.size_foldedEvaluation_le threshold entry⟩

/-- An evaluation that mentions the other symbol: folding one expression makes its parent equal to a
sibling, which is folded next. -/
theorem fold_saves_merging :
    let link (p : String) (e : ClassExpression) : ClassExpression :=
      .quantified .existential (.named ⟨p⟩) e
    let inner : ClassExpression := link "r" (.named ⟨"C"⟩)
    let outer : ClassExpression := link "s" (.named ⟨"X"⟩)
    let entries : List Entry := [⟨⟨"X"⟩, inner, inner⟩, ⟨⟨"Y"⟩, outer, outer⟩,
      ⟨⟨"Z"⟩, link "t" outer, link "t" outer⟩]
    let g : Glossary := .ofEntries entries
    let source : Source := ⟨"", g, fun _ => false, fun _ => true⟩
    let ax : Axiom := .subClassOf (.named ⟨"A"⟩) (.combined .intersection
      [link "s" (.named ⟨"X"⟩), link "s" (link "r" (.named ⟨"B"⟩)), link "t" (.named ⟨"B"⟩)])
    g.Orderly ∧ ax.Canonical ∧
    (∃ a, a.RewrittenFrom (.statement ax) ∧ a.size = 14 ∧
      (∃ b, (g.fold a (.ofList [inner, outer]) 2).result = .ok (2, b) ∧
        b.size + 2 * 2 ≤ a.size) ∧
      ∃ b, (source.contract 2 a).result = .ok b ∧ b.size ≤ a.size) ∧
    ∃ g', (g.foldDefinitions 2).result = .ok g' ∧
      ∃ e', g'.definition? ⟨"Z"⟩ = some e' ∧ e'.size ≤ (link "t" outer).size := by
  intro link inner outer entries g source ax
  have hg : g.Orderly := orderly_ofEntries (by decide +kernel) (by decide +kernel)
  have hAx : ax.Canonical := by decide +kernel
  obtain ⟨hFold, hContract, hDefinitions⟩ := fold_saves g 2
  obtain ⟨start, hStart, hEncodes⟩ := Arena.ofPhrase_encodes (.statement ax) none
  have hR : (ClassExpression.named ⟨"C"⟩).Canonical := rfl
  obtain ⟨a, hRun, -⟩ := hEncodes.substitute (T := .named ⟨"B"⟩) hAx hR
  have ha : a.RewrittenFrom (.statement ax) := .substitute (.start hStart) hR hRun
  obtain ⟨count, b, hFolded, hSaved⟩ := hFold _ a (.ofList [inner, outer]) hAx ha
  have hFacts : ∀ start, Arena.ofPhrase (.statement ax) none = .ok start →
      ∀ x, (start.substitute (.classExpression (.named ⟨"B"⟩))
        (.classExpression (.named ⟨"C"⟩))).result = .ok x →
      ∀ y, (g.fold x.2 (.ofList [inner, outer]) 2).result = .ok y → y.1 = 2 ∧ x.2.size = 14 := by
    decide +kernel
  obtain ⟨hCount, hSize⟩ := hFacts start hStart _ hRun _ hFolded
  obtain rfl : count = 2 := hCount
  obtain ⟨g', hPublished, hSmaller⟩ := hDefinitions hg
  have hZ : g.evaluation? ⟨"Z"⟩ = some (link "t" outer) := by decide +kernel
  exact ⟨hg, hAx, ⟨a, ha, hSize, ⟨b, hFolded, hSaved⟩, hContract source ax a rfl hAx ha⟩, g',
    hPublished, hSmaller _ _ hZ⟩

end Glossary

end OntoFold
