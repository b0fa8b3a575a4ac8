import OntoFold.Folding.Record
import OntoFold.Proofs.Glossary.Closed

/-!
# Stages of folding

An axiom is unfolded, and what this gives is folded. Each stage exchanges symbols and evaluations
step after step; when this leads to an ill-formed axiom, the axiom is kept as it was.

* `Axiom.keeping`: an outcome unless it is ill-formed.
* `Source.expanded`, `Source.contracted`: what the stages make of an axiom.
* `Source.expand_result`, `Source.contract_result`: the stages never fail.
-/

namespace OntoFold

open ClassExpression (byName)

/-! ## Axioms in arenas -/

namespace Arena

/-- The tree in an arena is the tree of an axiom. -/
structure Shows (a : Arena) (ax : Axiom) : Prop where
  encodes : a.Encodes (.bare (.statement ax))
  canonical : ax.Canonical

variable {a : Arena} {ax : Axiom}

theorem ofPhrase_shows (hAx : ax.Canonical) :
    ∃ a, ofPhrase (.statement ax) none = .ok a ∧ a.Shows ax := by
  obtain ⟨a, hOk, hEncodes⟩ := ofPhrase_encodes (.statement ax) none
  exact ⟨a, hOk, hEncodes, hAx⟩

namespace Shows

variable (h : a.Shows ax)

include h

theorem decodeAxiom : a.decodeAxiom = .ok ax := by
  unfold Arena.decodeAxiom
  rw [h.encodes.decode h.canonical]
  rfl

/-- Substitutions rewrite the axiom, and leave it alone when they replace nothing. -/
theorem substituteClasses (steps : List (ClassExpression × ClassExpression))
    (hSteps : ∀ step ∈ steps, step.2.Canonical) :
    ∃ total b, (a.substituteClasses steps 0).result = .ok (total, b) ∧
      b.Shows (ax.rewriteEach steps) ∧ (total = 0 → ax.rewriteEach steps = ax) := by
  obtain ⟨b, hRun, hb⟩ := h.encodes.substituteClasses_count h.canonical hSteps 0
  rw [Label.rewriteEach_statement] at hb
  refine ⟨_, b, hRun, ⟨hb, Axiom.canonical_rewriteEach hSteps h.canonical⟩, fun hZero => ?_⟩
  have hSame := Label.rewriteEach_eq_self (l := .bare (.statement ax)) hSteps h.canonical
    ((Nat.zero_add _).symm.trans hZero)
  rw [Label.rewriteEach_statement] at hSame
  exact Phrase.statement.inj (congrArg Label.phrase hSame)

end Shows

end Arena

/-! ## Guarded outcomes -/

namespace Axiom

variable {ax outcome : Axiom}

/-- An outcome for an axiom; the axiom itself when the outcome is ill-formed. -/
def keeping (ax outcome : Axiom) : Axiom := if outcome.WellFormed then outcome else ax

theorem keeping_of_wellFormed (h : outcome.WellFormed) : ax.keeping outcome = outcome := if_pos h

theorem keeping_of_not_wellFormed (h : ¬ outcome.WellFormed) : ax.keeping outcome = ax := if_neg h

theorem keeping_of_flaw {flaw : Flaw} (h : outcome.flaw? = some flaw) :
    ax.keeping outcome = ax := by
  apply keeping_of_not_wellFormed
  rw [WellFormed, h]
  exact Option.some_ne_none flaw

@[simp] theorem keeping_self (ax : Axiom) : ax.keeping ax = ax := ite_self ax

theorem keeping_eq_or (ax outcome : Axiom) :
    ax.keeping outcome = outcome ∨ ax.keeping outcome = ax := ite_eq_or_eq _ outcome ax

theorem wellFormed_keeping (h : ax.WellFormed) : (ax.keeping outcome).WellFormed := by
  unfold keeping
  split
  · assumption
  · exact h

end Axiom

namespace Source

variable {source : Source} {ax ax' : Axiom} {threshold : Nat} {a : Arena}

/-! ## Exchanges -/

/-- The outcome of some exchanges. -/
def Exchanged (source : Source) (ax ax' : Axiom) : Prop :=
  ∃ steps, (∀ step ∈ steps, source.glossary.Exchanges step) ∧ ax' = ax.rewriteEach steps

theorem Exchanged.refl (source : Source) (ax : Axiom) : source.Exchanged ax ax :=
  ⟨[], fun _ h => absurd h List.not_mem_nil, rfl⟩

theorem Exchanged.trans {ax'' : Axiom} (h : source.Exchanged ax ax')
    (h' : source.Exchanged ax' ax'') : source.Exchanged ax ax'' := by
  obtain ⟨steps, hSteps, rfl⟩ := h
  obtain ⟨steps', hSteps', rfl⟩ := h'
  refine ⟨steps ++ steps', ?_, (Axiom.rewriteEach_append steps steps' ax).symm⟩
  intro step hStep
  rcases List.mem_append.1 hStep with hMem | hMem
  · exact hSteps step hMem
  · exact hSteps' step hMem

theorem Exchanged.keeping (h : source.Exchanged ax ax') :
    source.Exchanged ax (ax.keeping ax') := by
  rcases ax.keeping_eq_or ax' with hEq | hEq <;> rw [hEq]
  · exact h
  · exact .refl source ax

theorem Exchanged.canonical (hg : source.glossary.Orderly) (h : source.Exchanged ax ax')
    (hAx : ax.Canonical) : ax'.Canonical := by
  obtain ⟨steps, hSteps, rfl⟩ := h
  exact Axiom.canonical_rewriteEach (fun step hStep => (hSteps step hStep).canonical hg) hAx

/-- Unfolding all symbols does not notice exchanges. -/
theorem Exchanged.unfold_eq (hg : source.glossary.Closed) (h : source.Exchanged ax ax') :
    ax'.rewrite (byName source.glossary.evaluation?) =
      ax.rewrite (byName source.glossary.evaluation?) := by
  obtain ⟨steps, hSteps, rfl⟩ := h
  exact Axiom.rewrite_rewriteEach fun step hStep => hg.unfold_exchanges (hSteps step hStep)

/-! ## Unfolding -/

/-- What unfolding makes of an axiom. -/
def expanded (source : Source) (ax : Axiom) : Axiom :=
  if source.isDefinition ax then ax
  else ax.keeping (ax.rewriteEach (source.glossary.unfoldSteps ax.names))

theorem exchanged_expanded (hg : source.glossary.Orderly) (ax : Axiom) :
    source.Exchanged ax (source.expanded ax) := by
  unfold expanded
  split
  · exact .refl source ax
  · exact Exchanged.keeping ⟨_, fun _ hStep => Glossary.exchanges_unfoldSteps hg hStep, rfl⟩

theorem wellFormed_expanded (h : ax.WellFormed) : (source.expanded ax).WellFormed := by
  unfold expanded
  split
  · exact h
  · exact Axiom.wellFormed_keeping h

/-- Unfolding never fails. -/
theorem expand_result (hg : source.glossary.Orderly) (hAx : ax.Canonical) :
    ∃ a, (source.expand ax).result = .ok a ∧ a.Shows (source.expanded ax) := by
  obtain ⟨initial, hStart, hInitial⟩ := Arena.ofPhrase_shows hAx
  obtain ⟨total, b, hRun, hb, hZero⟩ := hInitial.substituteClasses
    (source.glossary.unfoldSteps ax.names) fun _ hStep =>
      (Glossary.exchanges_unfoldSteps hg hStep).canonical hg
  have hUnfold : (source.glossary.unfold initial ax.names).result = .ok (total, b) := hRun
  unfold expand expanded
  simp only [Run.result_bind, Run.result_liftM, hStart, Run.ok_bind]
  split
  · exact ⟨initial, rfl, hInitial⟩
  simp only [Run.result_bind, hUnfold, Run.ok_bind]
  split
  · next hCount =>
    -- Without a replacement the outcome is the axiom, ill-formed or not.
    rw [hZero hCount] at hb ⊢
    rw [Axiom.keeping_self]
    exact ⟨b, rfl, hb⟩
  simp only [Run.result_bind, Run.result_liftM, hb.decodeAxiom, Run.ok_bind]
  split
  · next hFlaw => exact ⟨initial, rfl, (Axiom.keeping_of_flaw hFlaw).symm ▸ hInitial⟩
  · next hNone => exact ⟨b, rfl, (Axiom.keeping_of_wellFormed hNone).symm ▸ hb⟩

theorem expanded_of_isDefinition (h : source.isDefinition ax = true) : source.expanded ax = ax :=
  if_pos h

/-- An axiom becomes its unfolding or is kept whole. -/
theorem expanded_eq_keeping (hg : source.glossary.Closed) (hAx : ax.Canonical)
    (hDefinition : source.isDefinition ax = false) :
    source.expanded ax = ax.keeping (ax.rewrite (byName source.glossary.evaluation?)) := by
  rw [expanded, if_neg (by rw [hDefinition]; exact Bool.false_ne_true),
    hg.rewriteEach_unfoldSteps hAx]

/-- There is nothing to unfold in an axiom without symbols. -/
theorem unfoldSteps_eq_nil (h : ∀ n ∈ ax.names, source.glossary.contains n = false) :
    source.glossary.unfoldSteps ax.names = [] := by
  rw [Glossary.unfoldSteps, List.filterMap_eq_nil_iff]
  intro n hn
  rw [Option.map_eq_none_iff, ← Glossary.contains_eq_false]
  exact h n hn

theorem expanded_eq_self (h : ∀ n ∈ ax.names, source.glossary.contains n = false) :
    source.expanded ax = ax := by
  rw [expanded, unfoldSteps_eq_nil h]
  split
  · rfl
  · exact Axiom.keeping_self ax

/-- The tree of an axiom without symbols is left as it is. -/
theorem expand_eq_self (h : ∀ n ∈ ax.names, source.glossary.contains n = false) :
    (source.expand ax).result = Arena.ofPhrase (.statement ax) none := by
  obtain ⟨initial, hStart, -⟩ := Arena.ofPhrase_encodes (.statement ax) none
  have hUnfold : (source.glossary.unfold initial ax.names).result = .ok (0, initial) := by
    show (initial.substituteClasses (source.glossary.unfoldSteps ax.names) 0).result = _
    rw [unfoldSteps_eq_nil h]
    rfl
  unfold expand
  simp only [Run.result_bind, Run.result_liftM, hStart, Run.ok_bind]
  split
  · rfl
  · rw [Run.result_bind, hUnfold]
    rfl

/-! ## Folding -/

/-- What folding makes of an axiom. -/
def contracted (source : Source) (threshold : Nat) (ax : Axiom) : Axiom :=
  ax.keeping (ax.rewriteEach (source.glossary.foldSteps ax.nested threshold))

theorem exchanged_contracted (source : Source) (threshold : Nat) (ax : Axiom) :
    source.Exchanged ax (source.contracted threshold ax) :=
  Exchanged.keeping ⟨_, fun _ hStep => Glossary.exchanges_foldSteps hStep, rfl⟩

/-- Folding never fails. -/
theorem contract_result (ha : a.Shows ax) (threshold : Nat) :
    ∃ b, (source.contract threshold a).result = .ok b ∧
      b.Shows (source.contracted threshold ax) := by
  obtain ⟨total, b, hRun, hb, -⟩ := ha.substituteClasses
    (source.glossary.foldSteps ax.nested threshold) fun _ hStep =>
      Glossary.canonical_foldSteps hStep
  have hFold : (source.glossary.fold a ax.nested threshold).result = .ok (total, b) := hRun
  unfold contract contracted
  simp only [Run.result_bind, Run.result_liftM, ha.decodeAxiom, hFold, hb.decodeAxiom, Run.ok_bind]
  split
  · next hFlaw => exact ⟨a, rfl, (Axiom.keeping_of_flaw hFlaw).symm ▸ ha⟩
  · next hNone => exact ⟨b, rfl, (Axiom.keeping_of_wellFormed hNone).symm ▸ hb⟩

end Source

end OntoFold
