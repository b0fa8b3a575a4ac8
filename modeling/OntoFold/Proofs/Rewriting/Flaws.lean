import OntoFold.Axiom.WellFormed
import OntoFold.Proofs.Order.Entries
import OntoFold.Proofs.Rewriting.Axioms

/-!
# Flaws of rewritten axioms

A rewriting can only take operands away from a connective or an axiom, since operands that become
equal are merged. So it never repairs anything: what has no flaw after a rewriting had none before,
as long as no replaced expression has a flaw.

* `ClassExpression.flaw?_of_rewrite`: expressions without a flaw after a rewriting.
* `Axiom.wellFormed_of_rewrite`: axioms that are well formed after a rewriting.
-/

namespace OntoFold

theorem Flaw.unless_eq_none {ok : Bool} {flaw : Flaw} : Flaw.unless ok flaw = none ↔ ok = true := by
  cases ok <;> simp [Flaw.unless]

namespace ClassExpression

variable {e : ClassExpression} {es : List ClassExpression}
  {f : ClassExpression → ClassExpression} {σ : ClassExpression → Option ClassExpression}

/-! ## Flaws of operands -/

theorem firstFlaw?_eq_none : firstFlaw? es = none ↔ ∀ e ∈ es, e.flaw? = none := by
  induction es with
  | nil => simp [firstFlaw?]
  | cons e es ih => simp [firstFlaw?, ih]

/-- The flaw of an expression itself, apart from its operands. -/
def ownFlaw? : ClassExpression → Option Flaw
  | .combined connective operands =>
    Flaw.unless (2 ≤ operands.length) (.fewClasses (.combined connective operands))
  | .oneOf individuals => Flaw.unless (!individuals.isEmpty) .noIndividuals
  | .dataQuantified _ _ range => range.flaw?
  | .dataCardinality _ _ _ range => range.bind DataRange.flaw?
  | _ => none

theorem flaw?_eq (e : ClassExpression) : e.flaw? = e.ownFlaw?.or (firstFlaw? e.operands) := by
  cases e with
  | combined connective es => rw [flaw?, ownFlaw?, operands]
  | cardinality bound count property filler =>
    cases filler <;> simp [flaw?, fillerFlaw?, ownFlaw?, operands, firstFlaw?]
  | _ => simp [flaw?, ownFlaw?, operands, firstFlaw?]

/-- An expression has no flaw when itself and its operands have none. -/
theorem flaw?_eq_none : e.flaw? = none ↔ e.ownFlaw? = none ∧ ∀ o ∈ e.operands, o.flaw? = none := by
  rw [flaw?_eq, Option.or_eq_none_iff, firstFlaw?_eq_none]

/-! ## Fewer operands -/

theorem two_le_of_ascend_map (h : 2 ≤ (ascend (es.map f)).length) : 2 ≤ es.length := by
  have hLength := length_ascend_le (es.map f)
  rw [List.length_map] at hLength
  exact Nat.le_trans h hLength

/-- Changing operands does not repair an expression. -/
theorem ownFlaw?_of_mapOperands (h : (e.mapOperands f).ownFlaw? = none) : e.ownFlaw? = none := by
  cases e with
  | combined connective es =>
    have hLength := of_decide_eq_true (Flaw.unless_eq_none.1 h)
    exact Flaw.unless_eq_none.2 (decide_eq_true (two_le_of_ascend_map hLength))
  | complement operand => rfl
  | quantified quantifier property filler => rfl
  | cardinality bound count property filler => rfl
  | _ => exact h

/-- What has no flaw after a rewriting had none before, when no replaced expression has one. -/
theorem flaw?_of_rewrite (hσ : ∀ t ∈ e.positions, ∀ r, σ t = some r → t.flaw? = none)
    (h : (e.rewrite σ).flaw? = none) : e.flaw? = none := by
  induction e using operands_induction with
  | step e ih =>
    cases hs : σ e with
    | some r => exact hσ e (mem_positions_iff.2 (Or.inl rfl)) r hs
    | none =>
      rw [rewrite_of_eq_none hs] at h
      obtain ⟨hOwn, hOperands⟩ := flaw?_eq_none.1 h
      refine flaw?_eq_none.2 ⟨ownFlaw?_of_mapOperands hOwn, fun o ho => ?_⟩
      apply ih o ho
      · exact fun t ht => hσ t (mem_positions_iff.2 (Or.inr ⟨o, ho, ht⟩))
      · exact hOperands _ (mem_operands_mapOperands.2 ⟨o, ho, rfl⟩)

/-- Only names are replaced by name, and they have no flaws. -/
theorem flaw?_of_byName {F : Iri → Option ClassExpression} {r : ClassExpression}
    (h : byName F e = some r) : e.flaw? = none := by
  obtain ⟨n, hName, -⟩ := Option.bind_eq_some_iff.1 h
  rw [eq_named_of_name? hName]
  rfl

end ClassExpression

/-! ## Axioms -/

namespace Axiom

variable {ax : Axiom} {n : Iri} {e : ClassExpression} {f : ClassExpression → ClassExpression}
  {σ : ClassExpression → Option ClassExpression}

theorem wellFormed_iff :
    ax.WellFormed ↔ ax.topFlaw? = none ∧ ∀ o ∈ ax.operands, o.flaw? = none := by
  rw [WellFormed, flaw?, Option.or_eq_none_iff, ClassExpression.firstFlaw?_eq_none]

/-- Changing operands does not repair an axiom. -/
theorem topFlaw?_of_mapClasses {g : Iri → Iri} (h : (ax.mapClasses g f).topFlaw? = none) :
    ax.topFlaw? = none := by
  cases ax with
  | subClassOf sub super => rfl
  | _ =>
    have hLength := of_decide_eq_true (Flaw.unless_eq_none.1 h)
    exact Flaw.unless_eq_none.2
      (decide_eq_true (ClassExpression.two_le_of_ascend_map hLength))

/-- An axiom that is well formed after a rewriting was before, when no replaced expression has a
flaw. -/
theorem wellFormed_of_rewrite
    (hσ : ∀ o ∈ ax.operands, ∀ t ∈ o.positions, ∀ r, σ t = some r → t.flaw? = none)
    (h : (ax.rewrite σ).WellFormed) : ax.WellFormed := by
  rw [rewrite_eq] at h
  obtain ⟨hTop, hOperands⟩ := wellFormed_iff.1 h
  refine wellFormed_iff.2 ⟨topFlaw?_of_mapClasses hTop, fun o ho => ?_⟩
  apply ClassExpression.flaw?_of_rewrite (hσ o ho)
  exact hOperands _ (mem_operands_mapClasses.2 ⟨o, ho, rfl⟩)

end Axiom

end OntoFold
