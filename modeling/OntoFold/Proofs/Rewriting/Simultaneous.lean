import OntoFold.Proofs.Rewriting.Sequences

/-!
# Replacements all at once

Replacements done one after another amount to one rewriting when no later one has anything to do
with an earlier one: its target is a different expression, neither target nor replacement of the
earlier one lies inside it, and it does not occur in the earlier replacement.

* `ClassExpression.Apart`: what keeps two replacements out of each other's way.
* `ClassExpression.rewriteEach_eq`, `Axiom.rewriteEach_eq`: the replacements all at once.
* `ClassExpression.rewriteEach_stepsFor`, `Axiom.rewriteEach_stepsFor`: the same for the
  replacements that a rewriting has for some targets.
-/

namespace OntoFold

namespace ClassExpression

variable {e T R : ClassExpression} {σ τ : ClassExpression → Option ClassExpression}
  {step : ClassExpression × ClassExpression} {steps : List (ClassExpression × ClassExpression)}
  {targets : List ClassExpression}

/-! ## Looking replacements up -/

/-- The first replacement that a list has for an expression. -/
def lookup (steps : List (ClassExpression × ClassExpression)) (e : ClassExpression) :
    Option ClassExpression :=
  (steps.find? fun step => step.1 = e).map Prod.snd

theorem lookup_cons : lookup ((T, R) :: steps) e = (replacing T R e).or (lookup steps e) := by
  unfold lookup replacing
  by_cases h : T = e
  · rw [List.find?_cons_of_pos (by simpa using h), if_pos h.symm]
    rfl
  · rw [List.find?_cons_of_neg (by simpa using h), if_neg (Ne.symm h), Option.none_or]

theorem lookup_eq_none : lookup steps e = none ↔ ∀ step ∈ steps, step.1 ≠ e := by
  simp [lookup]

/-- The replacements that a rewriting has for some targets. -/
def stepsFor (σ : ClassExpression → Option ClassExpression) (targets : List ClassExpression) :
    List (ClassExpression × ClassExpression) :=
  targets.filterMap fun e => (σ e).map fun r => (e, r)

theorem mem_stepsFor : step ∈ stepsFor σ targets ↔ step.1 ∈ targets ∧ σ step.1 = some step.2 := by
  obtain ⟨T, R⟩ := step
  simp [stepsFor]

theorem lookup_stepsFor : lookup (stepsFor σ targets) e = if e ∈ targets then σ e else none := by
  induction targets with
  | nil => rfl
  | cons t targets ih =>
    unfold stepsFor at ih ⊢
    cases ht : σ t with
    | none =>
      rw [List.filterMap_cons_none (by rw [ht]; rfl), ih]
      by_cases he : e = t
      · rw [he, ht, ite_self, ite_self]
      · simp [he]
    | some r =>
      rw [List.filterMap_cons_some (by rw [ht]; rfl), lookup_cons, ih, replacing]
      by_cases he : e = t
      · simp [he, ht]
      · simp [he]

/-! ## Replacements that do not meet -/

/-- A replacement after which another one does what it would have done before. -/
structure Apart (step later : ClassExpression × ClassExpression) : Prop where
  targets : step.1 ≠ later.1
  target : ∀ o ∈ later.1.operands, step.1 ∉ o.positions
  replacement : ∀ o ∈ later.1.operands, step.2 ∉ o.positions
  inside : later.1 ∉ step.2.positions

/-- A replacement is nested inside the result when its target occurs. -/
theorem mem_positions_replacing (h : T ∈ e.positions) :
    R ∈ (e.rewrite (replacing T R)).positions := by
  induction e using operands_induction with
  | step e ih =>
    by_cases hEq : e = T
    · rw [rewrite_of_eq_some (replacing_eq_some.2 ⟨hEq, rfl⟩)]
      exact mem_positions_iff.2 (Or.inl rfl)
    · obtain ⟨o, ho, hInside⟩ := (mem_positions_iff.1 h).resolve_left (Ne.symm hEq)
      rw [rewrite_of_eq_none (replacing_eq_none.2 hEq)]
      exact mem_positions_mapOperands ho (ih o ho hInside)

/-- A replacement inside an expression does not change what later ones have for it. -/
theorem lookup_mapOperands (h : ∀ later ∈ steps, Apart (T, R) later) (he : e.Canonical) :
    lookup steps (e.mapOperands (rewrite (replacing T R))) = lookup steps e := by
  by_cases hInside : ∃ o ∈ e.operands, T ∈ o.positions
  · -- Neither the old nor the new expression is a later target.
    obtain ⟨o, ho, hT⟩ := hInside
    have hOld : lookup steps e = none := by
      rw [lookup_eq_none]
      rintro later hLater rfl
      exact (h later hLater).target o ho hT
    have hNew : lookup steps (e.mapOperands (rewrite (replacing T R))) = none := by
      rw [lookup_eq_none]
      intro later hLater hEq
      have hOperand : o.rewrite (replacing T R) ∈ later.1.operands := by
        rw [hEq]
        exact mem_operands_mapOperands.2 ⟨o, ho, rfl⟩
      exact (h later hLater).replacement _ hOperand (mem_positions_replacing hT)
    rw [hOld, hNew]
  · rw [mapOperands_eq_self he]
    intro o ho
    apply rewrite_eq_self (canonical_of_operand he ho)
    intro t ht
    rw [replacing_eq_none]
    rintro rfl
    exact hInside ⟨o, ho, ht⟩

theorem lookup_eq_none_of_mem_positions (h : ∀ later ∈ steps, Apart (T, R) later)
    {t : ClassExpression} (ht : t ∈ R.positions) : lookup steps t = none := by
  rw [lookup_eq_none]
  rintro later hLater rfl
  exact (h later hLater).inside ht

/-- A replacement before others that do not meet it can be done together with them. -/
theorem rewrite_replacing_lookup (h : ∀ later ∈ steps, Apart (T, R) later) (hR : R.Canonical)
    (he : e.Canonical) :
    (e.rewrite (replacing T R)).rewrite (lookup steps) = e.rewrite (lookup ((T, R) :: steps)) := by
  induction e using operands_induction with
  | step e ih =>
    by_cases hEq : e = T
    · have hSome : replacing T R e = some R := replacing_eq_some.2 ⟨hEq, rfl⟩
      have hAll : lookup ((T, R) :: steps) e = some R := by
        rw [lookup_cons, hSome, Option.some_or]
      rw [rewrite_of_eq_some hSome, rewrite_of_eq_some hAll]
      exact rewrite_eq_self hR fun t ht => lookup_eq_none_of_mem_positions h ht
    · have hNone : replacing T R e = none := replacing_eq_none.2 hEq
      rw [rewrite_of_eq_none hNone, rewrite_eq, rewrite_eq _ e, lookup_mapOperands h he,
        lookup_cons, hNone, Option.none_or, mapOperands_mapOperands]
      exact congrArg _ (mapOperands_congr fun o ho => ih o ho (canonical_of_operand he ho))

/-- Replacements that do not meet can be done all at once. -/
theorem rewriteEach_eq (h : steps.Pairwise Apart) (hSteps : ∀ step ∈ steps, step.2.Canonical)
    (he : e.Canonical) : e.rewriteEach steps = e.rewrite (lookup steps) := by
  induction steps generalizing e with
  | nil => exact (rewrite_eq_self he fun _ _ => rfl).symm
  | cons step steps ih =>
    obtain ⟨hFirst, hRest⟩ := List.pairwise_cons.1 h
    have hR : step.2.Canonical := hSteps step List.mem_cons_self
    have hCanonical : (e.rewrite (replacing step.1 step.2)).Canonical :=
      canonical_rewrite (canonical_of_replacing hR) he
    rw [← rewrite_replacing_lookup hFirst hR he,
      ← ih hRest (fun s hs => hSteps s (List.mem_cons_of_mem _ hs)) hCanonical]
    rfl

theorem canonical_stepsFor (hσ : ∀ t r, σ t = some r → r.Canonical) :
    ∀ step ∈ stepsFor σ targets, step.2.Canonical :=
  fun _ hStep => hσ _ _ (mem_stepsFor.1 hStep).2

/-- The replacements for some targets amount to a rewriting that agrees with them on everything
nested inside an expression. -/
theorem rewriteEach_stepsFor (h : (stepsFor σ targets).Pairwise Apart)
    (hσ : ∀ t r, σ t = some r → r.Canonical) (he : e.Canonical)
    (hτ : ∀ t ∈ e.positions, τ t = if t ∈ targets then σ t else none) :
    e.rewriteEach (stepsFor σ targets) = e.rewrite τ := by
  rw [rewriteEach_eq h (canonical_stepsFor hσ) he]
  exact rewrite_congr fun t ht => lookup_stepsFor.trans (hτ t ht).symm

end ClassExpression

namespace Axiom

open ClassExpression (replacing lookup stepsFor Apart)

variable {ax : Axiom} {T R : ClassExpression} {σ τ : ClassExpression → Option ClassExpression}
  {steps : List (ClassExpression × ClassExpression)} {targets : List ClassExpression}

/-! ## Replacements in axioms -/

theorem rewriteDefined_replacing_lookup (h : ∀ later ∈ steps, Apart (T, R) later) (d : Iri) :
    rewriteDefined (lookup steps) (rewriteDefined (replacing T R) d) =
      rewriteDefined (lookup ((T, R) :: steps)) d := by
  by_cases hEq : .named d = T
  · have hSome : replacing T R (.named d) = some R :=
      ClassExpression.replacing_eq_some.2 ⟨hEq, rfl⟩
    have hAll : lookup ((T, R) :: steps) (.named d) = some R := by
      rw [ClassExpression.lookup_cons, hSome, Option.some_or]
    rw [rewriteDefined_of_eq_some hSome, rewriteDefined_of_eq_some hAll]
    apply rewriteDefined_of_eq_none
    cases hName : R.name? with
    | none =>
      -- The class keeps its name, which is no later target.
      rw [Option.getD_none, hEq, ClassExpression.lookup_eq_none]
      exact fun later hLater => ((h later hLater).targets).symm
    | some m =>
      rw [Option.getD_some, ← ClassExpression.eq_named_of_name? hName]
      exact ClassExpression.lookup_eq_none_of_mem_positions h
        (ClassExpression.mem_positions_iff.2 (Or.inl rfl))
  · have hNone : replacing T R (.named d) = none := ClassExpression.replacing_eq_none.2 hEq
    rw [rewriteDefined_of_eq_none hNone, rewriteDefined, rewriteDefined,
      ClassExpression.lookup_cons, hNone, Option.none_or]

theorem rewrite_replacing_lookup (h : ∀ later ∈ steps, Apart (T, R) later) (hR : R.Canonical)
    (hAx : ax.Canonical) :
    (ax.rewrite (replacing T R)).rewrite (lookup steps) =
      ax.rewrite (lookup ((T, R) :: steps)) := by
  rw [rewrite_eq, rewrite_eq, rewrite_eq, mapClasses_mapClasses]
  apply mapClasses_congr
  · intro d _
    exact rewriteDefined_replacing_lookup h d
  · intro o ho
    exact ClassExpression.rewrite_replacing_lookup h hR (canonical_of_operand hAx ho)

/-- Replacements that do not meet can be done all at once. -/
theorem rewriteEach_eq (h : steps.Pairwise Apart) (hSteps : ∀ step ∈ steps, step.2.Canonical)
    (hAx : ax.Canonical) : ax.rewriteEach steps = ax.rewrite (lookup steps) := by
  induction steps generalizing ax with
  | nil => exact (rewrite_eq_self hAx fun _ _ => rfl).symm
  | cons step steps ih =>
    obtain ⟨hFirst, hRest⟩ := List.pairwise_cons.1 h
    have hR : step.2.Canonical := hSteps step List.mem_cons_self
    have hCanonical : (ax.rewriteEach [step]).Canonical := by
      apply canonical_rewriteEach _ hAx
      intro s hs
      rw [List.mem_singleton.1 hs]
      exact hR
    rw [← rewrite_replacing_lookup hFirst hR hAx]
    exact ih hRest (fun s hs => hSteps s (List.mem_cons_of_mem _ hs)) hCanonical

theorem rewriteEach_stepsFor (h : (stepsFor σ targets).Pairwise Apart)
    (hσ : ∀ t r, σ t = some r → r.Canonical) (hAx : ax.Canonical)
    (hτ : ∀ t ∈ ax.positions, τ t = if t ∈ targets then σ t else none) :
    ax.rewriteEach (stepsFor σ targets) = ax.rewrite τ := by
  rw [rewriteEach_eq h (ClassExpression.canonical_stepsFor hσ) hAx]
  exact rewrite_congr fun t ht => ClassExpression.lookup_stepsFor.trans (hτ t ht).symm

end Axiom

end OntoFold
