import Mathlib.Algebra.Ring.Nat
import OntoFold.Proofs.Rewriting.Axioms

/-!
# Sizes of rewritten expressions

A rewriting that does not enlarge what it replaces does not enlarge anything: the nodes of an
expression are its own and those of its operands, and operands that become equal are counted
once. So an expression saves at least the nodes that its operands save.

* `ClassExpression.size_mapOperands_add_le`, `Axiom.size_mapClasses_add_le`: what is saved by
  changing operands.
* `ClassExpression.size_mapOperands_le`, `Axiom.size_mapClasses_le`: changed operands.
* `ClassExpression.size_rewrite_le`: rewritten expressions.
-/

namespace OntoFold

namespace ClassExpression

variable {e : ClassExpression} {es : List ClassExpression}
  {f : ClassExpression → ClassExpression} {σ : ClassExpression → Option ClassExpression}
  {w : ClassExpression → Nat}

/-! ## Sets of operands -/

theorem size_branchesIn_cons :
    (branchesIn (e :: es)).size = e.size + (branchesIn es).size := by
  show e.branches.size + (branchesIn es).size + 1 = e.branches.size + 1 + (branchesIn es).size
  omega

theorem size_branchesIn_insertAscending_le :
    (branchesIn (insertAscending e es)).size ≤ e.size + (branchesIn es).size := by
  induction es with
  | nil => exact Nat.le_of_eq size_branchesIn_cons
  | cons x es ih =>
    unfold insertAscending
    split
    · exact Nat.le_of_eq size_branchesIn_cons
    · exact Nat.le_add_left _ _
    · rw [size_branchesIn_cons, size_branchesIn_cons]
      omega

/-- Collecting operands into a set drops some nodes. -/
theorem size_branchesIn_ascend_le : (branchesIn (ascend es)).size ≤ (branchesIn es).size := by
  induction es with
  | nil => exact Nat.le_refl _
  | cons e es ih =>
    have hInsert : (branchesIn (ascend (e :: es))).size ≤ e.size + (branchesIn (ascend es)).size :=
      size_branchesIn_insertAscending_le
    rw [size_branchesIn_cons]
    omega

theorem size_branchesIn_map_add_le (h : ∀ o ∈ es, (f o).size + w o ≤ o.size) :
    (branchesIn (es.map f)).size + (es.map w).sum ≤ (branchesIn es).size := by
  induction es with
  | nil => exact Nat.le_refl _
  | cons e es ih =>
    have hFirst := h e List.mem_cons_self
    have hRest := ih fun o ho => h o (List.mem_cons_of_mem _ ho)
    rw [List.map_cons, List.map_cons, List.sum_cons, size_branchesIn_cons, size_branchesIn_cons]
    omega

/-- Operands that become equal save more than what each of them saves. -/
theorem size_branchesIn_ascend_map_add_le (h : ∀ o ∈ es, (f o).size + w o ≤ o.size) :
    (branchesIn (ascend (es.map f))).size + (es.map w).sum ≤ (branchesIn es).size :=
  Nat.le_trans (Nat.add_le_add_right size_branchesIn_ascend_le _) (size_branchesIn_map_add_le h)

/-! ## Expressions -/

theorem size_quantified {quantifier : Quantifier} {property : ObjectProperty} :
    (quantified quantifier property e).size = property.branches.size + e.size + 2 := by
  show property.branches.size + e.size + 1 + 1 = _
  rfl

theorem size_cardinality {bound : Bound} {count : Nat} {property : ObjectProperty} :
    (cardinality bound count property (some e)).size = property.branches.size + e.size + 3 := by
  show 0 + (property.branches.size + e.size + 1) + 1 + 1 = _
  omega

/-- An expression saves what its operands save. -/
theorem size_mapOperands_add_le (h : ∀ o ∈ e.operands, (f o).size + w o ≤ o.size) :
    (e.mapOperands f).size + (e.operands.map w).sum ≤ e.size := by
  cases e with
  | complement operand =>
    have hOperand := h operand (List.mem_singleton_self _)
    show (f operand).size + 1 + (w operand + 0) ≤ operand.size + 1
    omega
  | combined connective operands =>
    have hOperands : (branchesIn (ascend (operands.map f))).size + (operands.map w).sum ≤
        (branchesIn operands).size := size_branchesIn_ascend_map_add_le h
    show (branchesIn (ascend (operands.map f))).size + 1 + (operands.map w).sum ≤
      (branchesIn operands).size + 1
    omega
  | quantified quantifier property filler =>
    have hFiller := h filler (List.mem_singleton_self _)
    rw [mapOperands, size_quantified, size_quantified]
    show _ + (w filler + 0) ≤ _
    omega
  | cardinality bound count property filler =>
    cases filler with
    | none => exact Nat.le_refl _
    | some filler =>
      have hFiller := h filler (List.mem_singleton_self _)
      rw [mapOperands, Option.map_some, size_cardinality, size_cardinality]
      show _ + (w filler + 0) ≤ _
      omega
  | _ => exact Nat.le_refl _

theorem size_mapOperands_le (h : ∀ o ∈ e.operands, (f o).size ≤ o.size) :
    (e.mapOperands f).size ≤ e.size :=
  Nat.le_trans (Nat.le_add_right _ _) (size_mapOperands_add_le (w := fun _ => 0) h)

/-- Replacements that are not larger than what they replace make nothing larger. -/
theorem size_rewrite_le (h : ∀ t r, σ t = some r → r.size ≤ t.size) :
    (e.rewrite σ).size ≤ e.size := by
  induction e using operands_induction with
  | step e ih =>
    cases hs : σ e with
    | some r =>
      rw [rewrite_of_eq_some hs]
      exact h e r hs
    | none =>
      rw [rewrite_of_eq_none hs]
      exact size_mapOperands_le ih

theorem one_le_size (e : ClassExpression) : 1 ≤ e.size := Nat.le_add_left _ _

end ClassExpression

/-! ## Axioms -/

namespace Axiom

variable {ax : Axiom} {g : Iri → Iri} {f : ClassExpression → ClassExpression}
  {w : ClassExpression → Nat}

theorem size_subClassOf {sub super : ClassExpression} :
    (subClassOf sub super).size = sub.size + super.size + 1 := by
  show sub.branches.size + (super.branches.size + 0 + 1) + 1 + 1 =
    sub.branches.size + 1 + (super.branches.size + 1) + 1
  omega

theorem size_disjointUnion {defined : Iri} {disjuncts : List ClassExpression} :
    (disjointUnion defined disjuncts).size =
      (ClassExpression.branchesIn disjuncts).size + 2 := by
  show 0 + (ClassExpression.branchesIn disjuncts).size + 1 + 1 = _
  omega

/-- An axiom saves what its operands save. -/
theorem size_mapClasses_add_le (h : ∀ o ∈ ax.operands, (f o).size + w o ≤ o.size) :
    (ax.mapClasses g f).size + (ax.operands.map w).sum ≤ ax.size := by
  have hSet : ∀ es : List ClassExpression, (∀ o ∈ es, (f o).size + w o ≤ o.size) →
      (ClassExpression.branchesIn (ascend (es.map f))).size + (es.map w).sum ≤
        (ClassExpression.branchesIn es).size := fun _ =>
    ClassExpression.size_branchesIn_ascend_map_add_le
  cases ax with
  | subClassOf sub super =>
    have hSub := h sub List.mem_cons_self
    have hSuper := h super (List.mem_cons_of_mem _ List.mem_cons_self)
    rw [mapClasses, size_subClassOf, size_subClassOf]
    show _ + (w sub + (w super + 0)) ≤ _
    omega
  | disjointUnion defined disjuncts =>
    have hDisjuncts := hSet disjuncts h
    rw [mapClasses, partition, size_disjointUnion, size_disjointUnion, operands]
    omega
  | equivalent operands | disjoint operands =>
    have hOperands := hSet operands h
    show (ClassExpression.branchesIn (ascend (operands.map f))).size + 1 +
      (operands.map w).sum ≤ (ClassExpression.branchesIn operands).size + 1
    omega

/-- Changing operands without enlarging them does not enlarge an axiom. -/
theorem size_mapClasses_le (h : ∀ o ∈ ax.operands, (f o).size ≤ o.size) :
    (ax.mapClasses g f).size ≤ ax.size :=
  Nat.le_trans (Nat.le_add_right _ _) (size_mapClasses_add_le (w := fun _ => 0) h)

end Axiom

end OntoFold
