import OntoFold.Proofs.Rewriting.Axioms

/-!
# What a rewriting leaves

After a rewriting every position holds a part of a replacement, or what an expression has become
that was kept: neither it nor anything around it had a replacement. An expression that is kept
somewhere occurs more often than any replaced expression around it, because every occurrence of the
replaced one brings one of its own and the kept one is not among these.

* `ClassExpression.Kept`: a position that a rewriting passes.
* `ClassExpression.mem_positions_rewrite_cases`: the positions after a rewriting.
* `ClassExpression.count_lt_of_kept`, `Axiom.count_lt_of_kept`: how often kept expressions occur.
-/

namespace OntoFold

/-! ## Counting in concatenations -/

section Counting

variable {α β : Type} [BEq β] {xs : List α} {f : α → List β} {a b : β}

theorem count_flatMap_le (h : ∀ x ∈ xs, (f x).count a ≤ (f x).count b) :
    (xs.flatMap f).count a ≤ (xs.flatMap f).count b := by
  induction xs with
  | nil => exact Nat.le_refl _
  | cons x xs ih =>
    rw [List.forall_mem_cons] at h
    rw [List.flatMap_cons, List.count_append, List.count_append]
    exact Nat.add_le_add h.1 (ih h.2)

theorem count_flatMap_lt (h : ∀ x ∈ xs, (f x).count a ≤ (f x).count b) {x : α} (hx : x ∈ xs)
    (hLt : (f x).count a < (f x).count b) : (xs.flatMap f).count a < (xs.flatMap f).count b := by
  induction xs with
  | nil => cases hx
  | cons y xs ih =>
    rw [List.forall_mem_cons] at h
    rw [List.flatMap_cons, List.count_append, List.count_append]
    rcases List.mem_cons.1 hx with rfl | hx
    · exact Nat.add_lt_add_of_lt_of_le hLt (count_flatMap_le h.2)
    · exact Nat.add_lt_add_of_le_of_lt h.1 (ih h.2 hx)

end Counting

/-! ## Kept expressions -/

namespace ClassExpression

variable {σ : ClassExpression → Option ClassExpression} {e p s t x : ClassExpression}

/-- The first expression stands in the second one where neither it nor anything around it has a
replacement. -/
inductive Kept (σ : ClassExpression → Option ClassExpression) (t : ClassExpression) :
    ClassExpression → Prop
  | here (h : σ t = none) : Kept σ t t
  | inside {x o : ClassExpression} (h : σ x = none) (ho : o ∈ x.operands) (ht : Kept σ t o) :
    Kept σ t x

theorem Kept.mem_positions (h : Kept σ t x) : t ∈ x.positions := by
  induction h with
  | here => exact mem_positions_iff.2 (Or.inl rfl)
  | inside _ ho _ ih => exact mem_positions_iff.2 (Or.inr ⟨_, ho, ih⟩)

/-- After a rewriting every position lies in a replacement or holds what has become of a kept
expression. -/
theorem mem_positions_rewrite_cases (h : s ∈ (x.rewrite σ).positions) :
    (∃ t r, σ t = some r ∧ s ∈ r.positions) ∨ ∃ t, Kept σ t x ∧ s = t.rewrite σ := by
  induction x using operands_induction with
  | step x ih =>
    cases hx : σ x with
    | some r =>
      rw [rewrite_of_eq_some hx] at h
      exact Or.inl ⟨x, r, hx, h⟩
    | none =>
      rcases mem_positions_iff.1 h with rfl | ⟨y, hy, hs⟩
      · exact Or.inr ⟨x, .here hx, rfl⟩
      · rw [rewrite_of_eq_none hx] at hy
        obtain ⟨o, ho, rfl⟩ := mem_operands_mapOperands.1 hy
        refine (ih o ho hs).imp_right ?_
        rintro ⟨t, hKept, rfl⟩
        exact ⟨t, .inside hx ho hKept, rfl⟩

/-! ## Counting kept expressions -/

/-- An expression does not occur inside its operands. -/
theorem not_mem_positions_of_operand {o : ClassExpression} (ho : o ∈ x.operands) :
    x ∉ o.positions := fun h =>
  Nat.lt_irrefl _ (size_lt_of_mem_positions ho h)

/-- An expression holds itself once. -/
theorem count_positions_self (e : ClassExpression) : e.positions.count e = 1 := by
  have hBelow : (e.operands.flatMap positions).count e = 0 := by
    rw [List.count_eq_zero, List.mem_flatMap]
    rintro ⟨o, ho, hInside⟩
    exact not_mem_positions_of_operand ho hInside
  rw [positions_eq, List.count_cons_self, hBelow]

/-- What lies inside an expression occurs at least as often. -/
theorem count_le_of_mem_positions (he : e ∈ p.positions) (x : ClassExpression) :
    x.positions.count p ≤ x.positions.count e := by
  induction x using operands_induction with
  | step x ih =>
    by_cases hx : x = p
    · subst hx
      rw [count_positions_self]
      exact List.count_pos_iff.2 he
    · rw [positions_eq, List.count_cons_of_ne hx]
      exact Nat.le_trans (count_flatMap_le ih) List.count_le_count_cons

/-- What is kept occurs more often than a replaced expression around it. -/
theorem count_lt_of_kept (he : e ∈ p.positions) (hp : σ p ≠ none) (h : Kept σ e x) :
    x.positions.count p < x.positions.count e := by
  induction h with
  | here hNone =>
    have hAbsent : p ∉ e.positions := by
      intro hInside
      rcases mem_positions_iff.1 he with rfl | ⟨o, ho, hSmaller⟩
      · exact hp hNone
      · exact not_mem_positions_of_operand ho (mem_positions_trans hSmaller hInside)
    rw [List.count_eq_zero.2 hAbsent]
    exact List.count_pos_iff.2 (mem_positions_iff.2 (Or.inl rfl))
  | @inside x o hNone ho _ ih =>
    have hx : x ≠ p := by
      rintro rfl
      exact hp hNone
    rw [positions_eq, List.count_cons_of_ne hx]
    have hOperands := count_flatMap_lt (fun o _ => count_le_of_mem_positions he o) ho ih
    exact Nat.lt_of_lt_of_le hOperands List.count_le_count_cons

end ClassExpression

/-! ## Axioms -/

namespace Axiom

variable {ax : Axiom} {σ : ClassExpression → Option ClassExpression} {e p s x : ClassExpression}

/-- The class an axiom defines and its operands. -/
def roots (ax : Axiom) : List ClassExpression :=
  (ax.definedClass?.map .named).toList ++ ax.operands

theorem positions_eq_roots (ax : Axiom) :
    ax.positions = ax.roots.flatMap ClassExpression.positions := by
  rw [positions, roots, List.flatMap_append]
  cases ax.definedClass? <;> rfl

theorem mem_roots :
    x ∈ ax.roots ↔ (∃ d, ax.definedClass? = some d ∧ x = .named d) ∨ x ∈ ax.operands := by
  rw [roots, List.mem_append, Option.mem_toList, Option.map_eq_some_iff]
  simp only [eq_comm]

/-- A rewriting that replaces by names rewrites the class an axiom defines like an operand. -/
theorem named_rewriteDefined (hNames : ∀ t r, σ t = some r → ∃ n, r = .named n) (d : Iri) :
    .named (rewriteDefined σ d) = ClassExpression.rewrite σ (.named d) := by
  cases hr : σ (.named d) with
  | none =>
    rw [rewriteDefined_of_eq_none hr, ClassExpression.rewrite_of_eq_none hr]
    rfl
  | some r =>
    obtain ⟨n, rfl⟩ := hNames _ r hr
    rw [rewriteDefined_of_eq_some hr, ClassExpression.rewrite_of_eq_some hr]
    rfl

theorem exists_root_of_mem_positions_rewrite (hNames : ∀ t r, σ t = some r → ∃ n, r = .named n)
    (h : s ∈ (ax.rewrite σ).positions) : ∃ x ∈ ax.roots, s ∈ (x.rewrite σ).positions := by
  rw [rewrite_eq] at h
  rcases mem_positions_iff.1 h with ⟨k, hk, rfl⟩ | ⟨y, hy, hs⟩
  · obtain ⟨d, hd, rfl⟩ : ∃ d, ax.definedClass? = some d ∧ rewriteDefined σ d = k := by
      cases ax with
      | disjointUnion d disjuncts => exact ⟨d, rfl, Option.some.inj hk⟩
      | _ => cases hk
    refine ⟨.named d, mem_roots.2 (Or.inl ⟨d, hd, rfl⟩), ?_⟩
    rw [← named_rewriteDefined hNames]
    exact ClassExpression.mem_positions_iff.2 (Or.inl rfl)
  · obtain ⟨o, ho, rfl⟩ := mem_operands_mapClasses.1 hy
    exact ⟨o, mem_roots.2 (Or.inr ho), hs⟩

/-- What is kept in an axiom occurs there more often than a replaced expression around it. -/
theorem count_lt_of_kept (he : e ∈ p.positions) (hp : σ p ≠ none) (hx : x ∈ ax.roots)
    (h : ClassExpression.Kept σ e x) : ax.positions.count p < ax.positions.count e := by
  rw [positions_eq_roots]
  exact count_flatMap_lt (fun x _ => ClassExpression.count_le_of_mem_positions he x) hx
    (ClassExpression.count_lt_of_kept he hp h)

theorem count_le_of_mem_positions (he : e ∈ p.positions) (ax : Axiom) :
    ax.positions.count p ≤ ax.positions.count e := by
  rw [positions_eq_roots]
  exact count_flatMap_le fun x _ => ClassExpression.count_le_of_mem_positions he x

end Axiom

end OntoFold
