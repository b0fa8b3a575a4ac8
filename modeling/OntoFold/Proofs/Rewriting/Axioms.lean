import OntoFold.Proofs.Rewriting.Labels
import OntoFold.Proofs.Rewriting.Names

/-!
# Changing the classes of axioms

An axiom is changed by changing its operands, which are collected into a set again, and by
renaming the class that a disjoint union defines. Every rewriting of an axiom is such a change.

* `Axiom.rewrite_eq`: a rewriting by what it does to the operands and to the defined class.
* `Axiom.rewrite_congr`: rewritings that agree on the classes of an axiom.
* `Axiom.rewrite_rewrite_byName`: rewritings that a rewriting by name does not notice.
-/

namespace OntoFold

open ClassExpression (byName)

namespace Axiom

variable {ax : Axiom} {f f' : ClassExpression → ClassExpression} {g g' : Iri → Iri}
  {σ τ : ClassExpression → Option ClassExpression}

/-! ## Operands and defined classes -/

/-- The axiom with its operands changed and the class it defines renamed. -/
def mapClasses (g : Iri → Iri) (f : ClassExpression → ClassExpression) : Axiom → Axiom
  | .subClassOf sub super => .subClassOf (f sub) (f super)
  | .equivalent operands => equate (operands.map f)
  | .disjoint operands => separate (operands.map f)
  | .disjointUnion defined disjuncts => partition (g defined) (disjuncts.map f)

theorem mapClasses_congr (hg : ∀ d, ax.definedClass? = some d → g d = g' d)
    (hf : ∀ o ∈ ax.operands, f o = f' o) : ax.mapClasses g f = ax.mapClasses g' f' := by
  cases ax with
  | subClassOf sub super =>
    exact congrArg₂ subClassOf (hf sub (by simp [operands])) (hf super (by simp [operands]))
  | equivalent operands => exact congrArg equate (List.map_congr_left hf)
  | disjoint operands => exact congrArg separate (List.map_congr_left hf)
  | disjointUnion defined disjuncts =>
    exact congrArg₂ partition (hg defined rfl) (List.map_congr_left hf)

theorem mapClasses_mapClasses :
    (ax.mapClasses g f).mapClasses g' f' =
      ax.mapClasses (fun d => g' (g d)) (fun o => f' (f o)) := by
  have hAscend : ∀ es : List ClassExpression,
      ascend ((ascend (es.map f)).map f') = ascend (es.map fun o => f' (f o)) := fun _ =>
    ClassExpression.ascend_map_ascend_map f f'
  cases ax with
  | subClassOf sub super => rfl
  | equivalent operands => exact congrArg equivalent (hAscend operands)
  | disjoint operands => exact congrArg disjoint (hAscend operands)
  | disjointUnion defined disjuncts =>
    exact congrArg (disjointUnion (g' (g defined))) (hAscend disjuncts)

theorem mapClasses_eq_self (hAx : ax.Canonical) (hg : ∀ d, ax.definedClass? = some d → g d = d)
    (hf : ∀ o ∈ ax.operands, f o = o) : ax.mapClasses g f = ax := by
  have hSame : ax.mapClasses g f = ax.mapClasses id id := mapClasses_congr hg hf
  rw [hSame]
  have hAscend : ∀ es : List ClassExpression,
      (decide (Ascending es) && ClassExpression.allCanonical es) = true →
        ascend (es.map id) = es := by
    intro es hes
    rw [List.map_id, ascend_eq_self (of_decide_eq_true (Bool.and_eq_true_iff.1 hes).1)]
  cases ax with
  | subClassOf sub super => rfl
  | equivalent operands => exact congrArg equivalent (hAscend operands hAx)
  | disjoint operands => exact congrArg disjoint (hAscend operands hAx)
  | disjointUnion defined disjuncts =>
    exact congrArg (disjointUnion defined) (hAscend disjuncts hAx)

theorem mem_operands_mapClasses {x : ClassExpression} :
    x ∈ (ax.mapClasses g f).operands ↔ ∃ o ∈ ax.operands, f o = x := by
  cases ax <;>
    simp [mapClasses, equate, separate, partition, operands, mem_ascend, eq_comm]

theorem canonical_of_operand {o : ClassExpression} (hAx : ax.Canonical) (ho : o ∈ ax.operands) :
    o.Canonical := by
  cases ax with
  | subClassOf sub super =>
    obtain ⟨hSub, hSuper⟩ := Bool.and_eq_true_iff.1 hAx
    rcases List.mem_pair.1 ho with rfl | rfl
    · exact hSub
    · exact hSuper
  | _ => exact ClassExpression.allCanonical_iff.1 (Bool.and_eq_true_iff.1 hAx).2 o ho

theorem mem_positions_iff {t : ClassExpression} :
    t ∈ ax.positions ↔
      (∃ d, ax.definedClass? = some d ∧ t = .named d) ∨ ∃ o ∈ ax.operands, t ∈ o.positions := by
  rw [positions, List.mem_append, List.mem_flatMap, Option.mem_toList,
    Option.map_eq_some_iff]
  simp only [eq_comm]

theorem canonical_of_mem_positions {t : ClassExpression} (hAx : ax.Canonical)
    (h : t ∈ ax.positions) : t.Canonical := by
  rcases mem_positions_iff.1 h with ⟨d, -, rfl⟩ | ⟨o, ho, ht⟩
  · rfl
  · exact ClassExpression.canonical_of_mem_positions (canonical_of_operand hAx ho) ht

theorem mem_positions_trans {s t : ClassExpression} (ht : t ∈ ax.positions)
    (hs : s ∈ t.positions) : s ∈ ax.positions := by
  rcases mem_positions_iff.1 ht with ⟨d, hd, rfl⟩ | ⟨o, ho, ht⟩
  · obtain rfl := List.mem_singleton.1 hs
    exact mem_positions_iff.2 (Or.inl ⟨d, hd, rfl⟩)
  · exact mem_positions_iff.2 (Or.inr ⟨o, ho, ClassExpression.mem_positions_trans ht hs⟩)

/-- The names of what is nested inside an axiom are names of the axiom. -/
theorem mem_names_of_mem_positions {t : ClassExpression} {n : Iri} (h : t ∈ ax.positions)
    (hn : n ∈ t.names) : n ∈ ax.names := by
  apply SortedSet.mem_ofList.2 (ClassExpression.mem_filterMap_name?.2 ?_)
  exact mem_positions_trans h (ClassExpression.mem_names_iff_position.1 hn)

/-! ## Rewritings -/

/-- A rewriting of an axiom rewrites its operands and renames the class it defines. -/
theorem rewrite_eq (σ : ClassExpression → Option ClassExpression) (ax : Axiom) :
    ax.rewrite σ = ax.mapClasses (rewriteDefined σ) (ClassExpression.rewrite σ) := by
  cases ax <;> rfl

theorem rewriteDefined_of_eq_none {d : Iri} (h : σ (.named d) = none) :
    rewriteDefined σ d = d := by
  rw [rewriteDefined, h]
  rfl

theorem rewriteDefined_of_eq_some {d : Iri} {r : ClassExpression} (h : σ (.named d) = some r) :
    rewriteDefined σ d = r.name?.getD d := by
  rw [rewriteDefined, h, Option.bind_some]

/-- Where no replacement is a name, defined classes keep their names. -/
theorem rewrite_eq_of_complex (h : ∀ t r, σ t = some r → r.name? = none) :
    ax.rewrite σ = ax.mapClasses id (ClassExpression.rewrite σ) := by
  rw [rewrite_eq]
  refine mapClasses_congr (fun d _ => ?_) fun _ _ => rfl
  cases hs : σ (.named d) with
  | none => exact rewriteDefined_of_eq_none hs
  | some r => rw [rewriteDefined_of_eq_some hs, h _ r hs, Option.getD_none, id_eq]

/-- Rewritings that agree on all classes of an axiom do the same to it. -/
theorem rewrite_congr (h : ∀ t ∈ ax.positions, σ t = τ t) : ax.rewrite σ = ax.rewrite τ := by
  rw [rewrite_eq, rewrite_eq]
  apply mapClasses_congr
  · intro d hd
    rw [rewriteDefined, rewriteDefined, h (.named d) (mem_positions_iff.2 (Or.inl ⟨d, hd, rfl⟩))]
  · intro o ho
    apply ClassExpression.rewrite_congr
    intro t ht
    exact h t (mem_positions_iff.2 (Or.inr ⟨o, ho, ht⟩))

/-- Nothing happens when no class has a replacement. -/
theorem rewrite_eq_self (hAx : ax.Canonical) (h : ∀ t ∈ ax.positions, σ t = none) :
    ax.rewrite σ = ax := by
  rw [rewrite_eq]
  apply mapClasses_eq_self hAx
  · intro d hd
    exact rewriteDefined_of_eq_none (h _ (mem_positions_iff.2 (Or.inl ⟨d, hd, rfl⟩)))
  · intro o ho
    apply ClassExpression.rewrite_eq_self (canonical_of_operand hAx ho)
    intro t ht
    exact h t (mem_positions_iff.2 (Or.inr ⟨o, ho, ht⟩))

/-! ## Earlier rewritings -/

variable {F : Iri → Option ClassExpression}

/-- A name that a rewriting turns into a name is renamed as a defined class. -/
theorem rewriteDefined_of_rewrite_eq {d k : Iri}
    (h : ClassExpression.rewrite (byName F) (.named d) = .named k) :
    rewriteDefined (byName F) d = k := by
  rw [ClassExpression.rewrite_byName_named] at h
  cases hd : F d with
  | none =>
    rw [hd] at h
    rw [rewriteDefined_of_eq_none (d := d) hd]
    exact ClassExpression.named.inj h
  | some v =>
    rw [hd, Option.getD_some] at h
    rw [rewriteDefined_of_eq_some (d := d) hd, h]
    rfl

/-- A rewriting by name does not notice an earlier rewriting of a defined class, as long as no
name with a value has been replaced by a name with a value. -/
theorem rewriteDefined_rewriteDefined
    (h : ∀ t r, σ t = some r → t.rewrite (byName F) = r.rewrite (byName F))
    (hNames : ∀ n m, σ (.named n) = some (.named m) → F n = none ∨ F m = none) (d : Iri) :
    rewriteDefined (byName F) (rewriteDefined σ d) = rewriteDefined (byName F) d := by
  have hFree : ∀ n, F n = none → ClassExpression.rewrite (byName F) (.named n) = .named n := by
    intro n hn
    rw [ClassExpression.rewrite_byName_named, hn, Option.getD_none]
  cases hr : σ (.named d) with
  | none => rw [rewriteDefined_of_eq_none hr]
  | some r =>
    rw [rewriteDefined_of_eq_some hr]
    cases hName : r.name? with
    | none => rfl
    | some m =>
      obtain rfl := ClassExpression.eq_named_of_name? hName
      rw [Option.getD_some]
      have hSame := h _ _ hr
      -- The name without a value is what both names become.
      rcases hNames d m hr with hd | hm
      · rw [rewriteDefined_of_rewrite_eq (hFree d hd),
          rewriteDefined_of_rewrite_eq (hSame.symm.trans (hFree d hd))]
      · rw [rewriteDefined_of_rewrite_eq (hFree m hm),
          rewriteDefined_of_rewrite_eq (hSame.trans (hFree m hm))]

/-- Nothing happens when no name has a value. -/
theorem rewrite_byName_eq_self (hAx : ax.Canonical) (h : ∀ n ∈ ax.names, F n = none) :
    ax.rewrite (byName F) = ax := by
  apply rewrite_eq_self hAx
  intro t ht
  cases hName : t.name? with
  | none => exact ClassExpression.byName_eq_none hName
  | some n =>
    obtain rfl := ClassExpression.eq_named_of_name? hName
    exact h n (SortedSet.mem_ofList.2 (ClassExpression.mem_filterMap_name?.2 ht))

/-- A rewriting by name does not notice an earlier rewriting of an axiom. -/
theorem rewrite_rewrite_byName
    (h : ∀ t r, σ t = some r → t.rewrite (byName F) = r.rewrite (byName F))
    (hNames : ∀ n m, σ (.named n) = some (.named m) → F n = none ∨ F m = none) :
    (ax.rewrite σ).rewrite (byName F) = ax.rewrite (byName F) := by
  rw [rewrite_eq, rewrite_eq, rewrite_eq, mapClasses_mapClasses]
  apply mapClasses_congr
  · intro d _
    exact rewriteDefined_rewriteDefined h hNames d
  · intro o _
    exact ClassExpression.rewrite_rewrite_byName h

end Axiom

end OntoFold
