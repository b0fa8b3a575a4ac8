import OntoFold.Proofs.Codec.Parts
import OntoFold.Term.Nested

/-!
# Rewriting class expressions

A rewriting replaces the outermost subexpressions that have a replacement, all at once. The
replacements are looked up in the expression as it was, and the operands of a connective are
collected into a set again.

* `ClassExpression.rewrite_eq`: rewriting by one step and the operands.
* `ClassExpression.rewrite_eq_self`: nothing happens when nothing has a replacement.
-/

namespace OntoFold

namespace ClassExpression

variable {e : ClassExpression} {f g : ClassExpression → ClassExpression}
  {σ τ : ClassExpression → Option ClassExpression}

/-! ## Changing operands -/

/-- The expression with its direct operands changed. -/
def mapOperands (f : ClassExpression → ClassExpression) : ClassExpression → ClassExpression
  | .complement operand => .complement (f operand)
  | .combined connective operands => combine connective (operands.map f)
  | .quantified quantifier property filler => .quantified quantifier property (f filler)
  | .cardinality bound count property filler =>
    .cardinality bound count property (filler.map f)
  | e => e

theorem mapOperands_congr (h : ∀ o ∈ e.operands, f o = g o) :
    e.mapOperands f = e.mapOperands g := by
  cases e with
  | complement operand => exact congrArg complement (h operand (List.mem_singleton_self _))
  | combined connective operands =>
    exact congrArg (combine connective) (List.map_congr_left h)
  | quantified quantifier property filler =>
    exact congrArg (quantified quantifier property) (h filler (List.mem_singleton_self _))
  | cardinality bound count property filler =>
    cases filler with
    | none => rfl
    | some filler =>
      rw [mapOperands, mapOperands, Option.map_some, Option.map_some,
        h filler (List.mem_singleton_self _)]
  | _ => rfl

theorem mem_operands_mapOperands {x : ClassExpression} :
    x ∈ (e.mapOperands f).operands ↔ ∃ o ∈ e.operands, f o = x := by
  cases e with
  | combined connective operands =>
    simp [mapOperands, combine, ClassExpression.operands, mem_ascend]
  | cardinality bound count property filler =>
    cases filler <;> simp [mapOperands, operands, eq_comm]
  | _ => simp [mapOperands, ClassExpression.operands, eq_comm]

theorem mapOperands_eq_self (he : e.Canonical) (h : ∀ o ∈ e.operands, f o = o) :
    e.mapOperands f = e := by
  rw [mapOperands_congr (g := id) h]
  cases e with
  | combined connective operands =>
    have hAscending := of_decide_eq_true (Bool.and_eq_true_iff.1 he).1
    rw [mapOperands, combine, List.map_id, ascend_eq_self hAscending]
  | cardinality bound count property filler => cases filler <;> rfl
  | _ => rfl

theorem canonical_mapOperands (he : e.Canonical) (h : ∀ o ∈ e.operands, (f o).Canonical) :
    (e.mapOperands f).Canonical := by
  cases e with
  | combined connective operands =>
    refine canonical_combine fun x hx => ?_
    obtain ⟨o, ho, rfl⟩ := List.mem_map.1 hx
    exact h o ho
  | cardinality bound count property filler =>
    cases filler with
    | none => rfl
    | some filler => exact h filler (List.mem_singleton_self _)
  | complement operand => exact h operand (List.mem_singleton_self _)
  | quantified quantifier property filler => exact h filler (List.mem_singleton_self _)
  | _ => exact he

theorem mem_parts_of_mem_operands {o : ClassExpression} (h : o ∈ e.operands) :
    Label.bare (.ofClass o) ∈ e.parts := by
  cases e with
  | combined connective operands => exact List.mem_map_of_mem h
  | cardinality bound count property filler =>
    cases filler with
    | none => cases h
    | some filler =>
      obtain rfl := List.mem_singleton.1 h
      simp [parts]
  | complement operand =>
    obtain rfl := List.mem_singleton.1 h
    exact List.mem_singleton_self _
  | quantified quantifier property filler =>
    obtain rfl := List.mem_singleton.1 h
    simp [parts]
  | _ => cases h

theorem canonical_of_operand {o : ClassExpression} (he : e.Canonical) (ho : o ∈ e.operands) :
    o.Canonical := canonical_of_mem_parts he (mem_parts_of_mem_operands ho)

theorem size_lt_of_mem_operands {o : ClassExpression} (h : o ∈ e.operands) : o.size < e.size :=
  Phrase.size_lt_of_mem_parts (p := .ofClass e) (mem_parts_of_mem_operands h)

/-- Induction over the operands of class expressions. -/
theorem operands_induction {motive : ClassExpression → Prop}
    (step : ∀ e : ClassExpression, (∀ o ∈ e.operands, motive o) → motive e)
    (e : ClassExpression) : motive e := by
  induction hSize : e.size using Nat.strongRecOn generalizing e with
  | ind n ih =>
    refine step e fun o ho => ih o.size ?_ o rfl
    rw [← hSize]
    exact size_lt_of_mem_operands ho

theorem mem_positions_iff {t : ClassExpression} :
    t ∈ e.positions ↔ t = e ∨ ∃ o ∈ e.operands, t ∈ o.positions := by
  rw [positions_eq, List.mem_cons, List.mem_flatMap]

/-- What lies inside a changed operand lies inside the changed expression. -/
theorem mem_positions_mapOperands {o t : ClassExpression} (ho : o ∈ e.operands)
    (ht : t ∈ (f o).positions) : t ∈ (e.mapOperands f).positions :=
  mem_positions_iff.2 (Or.inr ⟨_, mem_operands_mapOperands.2 ⟨o, ho, rfl⟩, ht⟩)

theorem size_le_of_mem_positions {t : ClassExpression} (h : t ∈ e.positions) :
    t.size ≤ e.size := by
  induction e using operands_induction with
  | step e ih =>
    rcases mem_positions_iff.1 h with rfl | ⟨o, ho, ht⟩
    · exact Nat.le_refl _
    · exact Nat.le_trans (ih o ho ht) (Nat.le_of_lt (size_lt_of_mem_operands ho))

/-- What lies inside an operand is smaller. -/
theorem size_lt_of_mem_positions {o t : ClassExpression} (ho : o ∈ e.operands)
    (ht : t ∈ o.positions) : t.size < e.size :=
  Nat.lt_of_le_of_lt (size_le_of_mem_positions ht) (size_lt_of_mem_operands ho)

theorem mem_positions_trans {s t : ClassExpression} (ht : t ∈ e.positions)
    (hs : s ∈ t.positions) : s ∈ e.positions := by
  induction e using operands_induction with
  | step e ih =>
    rcases mem_positions_iff.1 ht with rfl | ⟨o, ho, ht⟩
    · exact hs
    · exact mem_positions_iff.2 (Or.inr ⟨o, ho, ih o ho ht⟩)

theorem canonical_of_mem_positions {t : ClassExpression} (he : e.Canonical)
    (h : t ∈ e.positions) : t.Canonical := by
  induction e using operands_induction with
  | step e ih =>
    rcases mem_positions_iff.1 h with rfl | ⟨o, ho, ht⟩
    · exact he
    · exact ih o ho (canonical_of_operand he ho) ht

/-- Induction over everything nested inside class expressions. -/
theorem nested_induction {motive : ClassExpression → Prop}
    (step : ∀ e : ClassExpression, (∀ o ∈ e.operands, ∀ t ∈ o.positions, motive t) → motive e)
    (e : ClassExpression) : motive e := by
  have hAll : ∀ t ∈ e.positions, motive t := by
    induction e using operands_induction with
    | step e ih =>
      intro t ht
      rcases mem_positions_iff.1 ht with rfl | ⟨o, ho, ht⟩
      · exact step t ih
      · exact ih o ho t ht
  exact hAll e (mem_positions_iff.2 (Or.inl rfl))

/-! ## Rewriting -/

section Rewrite

variable (σ : ClassExpression → Option ClassExpression)

mutual

/-- The expression with the outermost subexpressions that have a replacement replaced. -/
def rewrite : ClassExpression → ClassExpression
  | .complement operand => (σ (.complement operand)).getD (.complement (rewrite operand))
  | .combined connective operands =>
    (σ (.combined connective operands)).getD (combine connective (rewriteIn operands))
  | .quantified quantifier property filler =>
    (σ (.quantified quantifier property filler)).getD
      (.quantified quantifier property (rewrite filler))
  | .cardinality bound count property filler =>
    (σ (.cardinality bound count property filler)).getD
      (.cardinality bound count property (rewriteFiller filler))
  | e => (σ e).getD e

def rewriteIn : List ClassExpression → List ClassExpression
  | [] => []
  | operand :: operands => rewrite operand :: rewriteIn operands

def rewriteFiller : Option ClassExpression → Option ClassExpression
  | none => none
  | some filler => some (rewrite filler)

end

theorem rewriteIn_eq (es : List ClassExpression) : rewriteIn σ es = es.map (rewrite σ) := by
  induction es with
  | nil => rfl
  | cons e es ih => rw [rewriteIn, ih, List.map_cons]

/-- A rewriting replaces an expression or rewrites its operands. -/
theorem rewrite_eq (e : ClassExpression) :
    e.rewrite σ = (σ e).getD (e.mapOperands (rewrite σ)) := by
  cases e with
  | combined connective operands => rw [rewrite, rewriteIn_eq, mapOperands]
  | cardinality bound count property filler =>
    cases filler <;> simp [rewrite, rewriteFiller, mapOperands]
  | _ => simp [rewrite, mapOperands]

end Rewrite

theorem rewrite_of_eq_some {r : ClassExpression} (h : σ e = some r) : e.rewrite σ = r := by
  rw [rewrite_eq, h, Option.getD_some]

theorem rewrite_of_eq_none (h : σ e = none) : e.rewrite σ = e.mapOperands (rewrite σ) := by
  rw [rewrite_eq, h, Option.getD_none]

theorem canonical_rewrite (hσ : ∀ e r, σ e = some r → r.Canonical) (he : e.Canonical) :
    (e.rewrite σ).Canonical := by
  induction e using operands_induction with
  | step e ih =>
    cases hs : σ e with
    | some r =>
      rw [rewrite_of_eq_some hs]
      exact hσ e r hs
    | none =>
      rw [rewrite_of_eq_none hs]
      exact canonical_mapOperands he fun o ho => ih o ho (canonical_of_operand he ho)

/-- Rewritings that agree on everything nested inside an expression do the same to it. -/
theorem rewrite_congr (h : ∀ t ∈ e.positions, σ t = τ t) : e.rewrite σ = e.rewrite τ := by
  induction e using operands_induction with
  | step e ih =>
    rw [rewrite_eq, rewrite_eq, h e (mem_positions_iff.2 (Or.inl rfl))]
    refine congrArg _ (mapOperands_congr fun o ho => ih o ho fun t ht => ?_)
    exact h t (mem_positions_iff.2 (Or.inr ⟨o, ho, ht⟩))

/-- Nothing happens when nothing has a replacement. -/
theorem rewrite_eq_self (he : e.Canonical) (h : ∀ s ∈ e.positions, σ s = none) :
    e.rewrite σ = e := by
  induction e using operands_induction with
  | step e ih =>
    rw [positions_eq] at h
    rw [rewrite_of_eq_none (h e List.mem_cons_self)]
    refine mapOperands_eq_self he fun o ho =>
      ih o ho (canonical_of_operand he ho) fun s hs => ?_
    exact h s (List.mem_cons_of_mem _ (List.mem_flatMap.2 ⟨o, ho, hs⟩))

/-! ## Single replacements -/

/-- One expression has a replacement. -/
def replacing (target replacement : ClassExpression) : ClassExpression → Option ClassExpression :=
  fun e => if e = target then some replacement else none

@[simp] theorem replacing_eq_some {target replacement r : ClassExpression} :
    replacing target replacement e = some r ↔ e = target ∧ replacement = r := by
  unfold replacing
  split <;> simp_all

theorem canonical_of_replacing {target replacement : ClassExpression}
    (h : replacement.Canonical) : ∀ e r, replacing target replacement e = some r → r.Canonical :=
  fun _ _ hr => (replacing_eq_some.1 hr).2 ▸ h

@[simp] theorem replacing_eq_none {target replacement : ClassExpression} :
    replacing target replacement e = none ↔ e ≠ target := by
  simp [replacing]

/-- The expression after some replacements, one after another. -/
def rewriteEach (steps : List (ClassExpression × ClassExpression)) (e : ClassExpression) :
    ClassExpression :=
  steps.foldl (fun e step => e.rewrite (replacing step.1 step.2)) e

theorem canonical_rewriteEach {steps : List (ClassExpression × ClassExpression)}
    (hSteps : ∀ step ∈ steps, step.2.Canonical) (he : e.Canonical) :
    (e.rewriteEach steps).Canonical := by
  induction steps generalizing e with
  | nil => exact he
  | cons step steps ih =>
    apply ih fun s hs => hSteps s (List.mem_cons_of_mem _ hs)
    exact canonical_rewrite (canonical_of_replacing (hSteps step List.mem_cons_self)) he

end ClassExpression

end OntoFold
