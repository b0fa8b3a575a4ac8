import Mathlib.Data.Set.Card
import Mathlib.Order.CompletePartialOrder
import OntoFold.Proofs.Rewriting.Sequences

/-!
# Interpretations

An interpretation reads names as classes and properties over a domain. Class expressions get
extensions by the direct semantics of their constructors, and an axiom is satisfied or not.

* `Interpretation.extension_rewrite`: replacing expressions by others with the same extension
  keeps the extension of the whole.
* `Interpretation.Satisfies.rewrite`: such replacements keep an axiom satisfied.
* `Interpretation.Satisfies.of_rewrite`: the converse, up to operands of a disjointness that
  became equal.
-/

namespace OntoFold

/-- A reading of all names over a domain of individuals and one of data values. Data ranges and
literals have any fixed reading. -/
structure Interpretation (Domain : Type u) (Value : Type v) where
  classes : Iri → Set Domain
  objectProperties : Iri → Domain → Domain → Prop
  dataProperties : Iri → Domain → Value → Prop
  individuals : Individual → Domain
  literals : Literal → Value
  ranges : DataRange → Set Value

/-- Whether a set has a number of members that a cardinality restriction allows. -/
def Bound.Allows {α : Type u} (bound : Bound) (count : Nat) (s : Set α) : Prop :=
  match bound with
  | .min => count ≤ s.encard
  | .max => s.encard ≤ count
  | .exact => s.encard = count

/-- The class expressions that an axiom makes disjoint. -/
def Axiom.disjuncts : Axiom → List ClassExpression
  | .disjoint operands => operands
  | .disjointUnion _ disjuncts => disjuncts
  | _ => []

namespace Interpretation

variable {Domain : Type u} {Value : Type v} (I : Interpretation Domain Value)

/-! ## Extensions -/

def related : ObjectProperty → Domain → Domain → Prop
  | .named iri, x, y => I.objectProperties iri x y
  | .inverse iri, x, y => I.objectProperties iri y x

mutual

/-- The individuals that a class expression holds of. -/
def extension : ClassExpression → Set Domain
  | .named iri => I.classes iri
  | .complement operand => (extension operand)ᶜ
  | .combined .intersection operands => {x | ∀ s ∈ extensions operands, x ∈ s}
  | .combined .union operands => {x | ∃ s ∈ extensions operands, x ∈ s}
  | .oneOf individuals => {x | ∃ i ∈ individuals, I.individuals i = x}
  | .quantified .existential property filler =>
    {x | ∃ y, I.related property x y ∧ y ∈ extension filler}
  | .quantified .universal property filler =>
    {x | ∀ y, I.related property x y → y ∈ extension filler}
  | .hasValue property individual => {x | I.related property x (I.individuals individual)}
  | .hasSelf property => {x | I.related property x x}
  | .cardinality bound count property filler =>
    {x | bound.Allows count {y | I.related property x y ∧ y ∈ fillerExtension filler}}
  | .dataQuantified .existential property range =>
    {x | ∃ y, I.dataProperties property x y ∧ y ∈ I.ranges range}
  | .dataQuantified .universal property range =>
    {x | ∀ y, I.dataProperties property x y → y ∈ I.ranges range}
  | .dataHasValue property value => {x | I.dataProperties property x (I.literals value)}
  | .dataCardinality bound count property range =>
    {x | bound.Allows count {y | I.dataProperties property x y ∧ ∀ r ∈ range, y ∈ I.ranges r}}

def extensions : List ClassExpression → List (Set Domain)
  | [] => []
  | operand :: operands => extension operand :: extensions operands

/-- Without a filler there is no condition. -/
def fillerExtension : Option ClassExpression → Set Domain
  | none => Set.univ
  | some filler => extension filler

end

/-! ## Axioms -/

/-- Every two distinct expressions of a list have disjoint extensions. -/
def Separates (operands : List ClassExpression) : Prop :=
  ∀ x ∈ operands, ∀ y ∈ operands, x ≠ y → Disjoint (I.extension x) (I.extension y)

def Satisfies : Axiom → Prop
  | .subClassOf sub super => I.extension sub ⊆ I.extension super
  | .equivalent operands => ∀ x ∈ operands, ∀ y ∈ operands, I.extension x = I.extension y
  | .disjoint operands => I.Separates operands
  | .disjointUnion defined disjuncts =>
    I.classes defined = {x | ∃ e ∈ disjuncts, x ∈ I.extension e} ∧ I.Separates disjuncts

/-- All axioms of a set are satisfied. -/
def Models (axioms : SortedSet Axiom) : Prop := ∀ ax ∈ axioms, I.Satisfies ax

variable {I} {e : ClassExpression} {ax : Axiom} {σ : ClassExpression → Option ClassExpression}

/-! ## Rewriting expressions -/

theorem extensions_eq (es : List ClassExpression) : I.extensions es = es.map I.extension := by
  induction es with
  | nil => rfl
  | cons e es ih => rw [extensions, ih, List.map_cons]

theorem mem_extension_combined {connective : Connective} {es : List ClassExpression}
    {x : Domain} :
    x ∈ I.extension (.combined connective es) ↔
      match connective with
      | .intersection => ∀ o ∈ es, x ∈ I.extension o
      | .union => ∃ o ∈ es, x ∈ I.extension o := by
  cases connective with
  | intersection =>
    rw [extension, extensions_eq]
    exact List.forall_mem_map
  | union =>
    rw [extension, extensions_eq]
    simp

/-- The extension of an expression is determined by the extensions of its operands. -/
theorem extension_mapOperands {f : ClassExpression → ClassExpression}
    (h : ∀ o ∈ e.operands, I.extension (f o) = I.extension o) :
    I.extension (e.mapOperands f) = I.extension e := by
  cases e with
  | complement operand =>
    rw [ClassExpression.mapOperands, extension, extension, h operand (List.mem_singleton_self _)]
  | combined connective operands =>
    ext x
    rw [ClassExpression.mapOperands, ClassExpression.combine, mem_extension_combined,
      mem_extension_combined]
    cases connective with
    | intersection =>
      simp only [mem_ascend, List.forall_mem_map]
      exact forall₂_congr fun o ho => by rw [h o ho]
    | union =>
      simp only [mem_ascend, List.mem_map]
      constructor
      · rintro ⟨o', ⟨o, ho, rfl⟩, hx⟩
        exact ⟨o, ho, h o ho ▸ hx⟩
      · rintro ⟨o, ho, hx⟩
        exact ⟨f o, ⟨o, ho, rfl⟩, h o ho ▸ hx⟩
  | quantified quantifier property filler =>
    have hFiller := h filler (List.mem_singleton_self _)
    cases quantifier with
    | existential => rw [ClassExpression.mapOperands, extension, extension, hFiller]
    | universal => rw [ClassExpression.mapOperands, extension, extension, hFiller]
  | cardinality bound count property filler =>
    cases filler with
    | none => rfl
    | some filler =>
      rw [ClassExpression.mapOperands, extension, extension, Option.map_some, fillerExtension,
        fillerExtension, h filler (List.mem_singleton_self _)]
  | _ => rfl

/-- Replacing expressions by others with the same extension keeps the extension of the whole. -/
theorem extension_rewrite
    (h : ∀ t ∈ e.positions, ∀ r, σ t = some r → I.extension r = I.extension t) :
    I.extension (e.rewrite σ) = I.extension e := by
  induction e using ClassExpression.operands_induction with
  | step e ih =>
    rw [ClassExpression.positions_eq] at h
    cases hσ : σ e with
    | some r =>
      rw [ClassExpression.rewrite_of_eq_some hσ]
      exact h e List.mem_cons_self r hσ
    | none =>
      rw [ClassExpression.rewrite_of_eq_none hσ]
      apply extension_mapOperands
      intro o ho
      apply ih o ho
      intro t ht
      exact h t (List.mem_cons_of_mem _ (List.mem_flatMap.2 ⟨o, ho, ht⟩))

/-- A sequence of such replacements. -/
theorem extension_rewriteEach {steps : List (ClassExpression × ClassExpression)}
    (h : ∀ step ∈ steps, I.extension step.1 = I.extension step.2) :
    I.extension (e.rewriteEach steps) = I.extension e := by
  induction steps generalizing e with
  | nil => rfl
  | cons step steps ih =>
    show I.extension ((e.rewrite (ClassExpression.replacing step.1 step.2)).rewriteEach steps) = _
    rw [ih fun s hs => h s (List.mem_cons_of_mem _ hs)]
    apply extension_rewrite
    intro t _ r hr
    obtain ⟨rfl, rfl⟩ := ClassExpression.replacing_eq_some.1 hr
    exact (h step List.mem_cons_self).symm

/-! ## Rewriting axioms -/

section Axioms

variable (h : ∀ t r, σ t = some r → I.extension r = I.extension t)

include h

theorem extension_rewrite_of_sound : I.extension (e.rewrite σ) = I.extension e :=
  extension_rewrite fun t _ => h t

theorem classes_rewriteDefined (defined : Iri) :
    I.classes (Axiom.rewriteDefined σ defined) = I.classes defined := by
  unfold Axiom.rewriteDefined
  cases hσ : (σ (.named defined)).bind ClassExpression.name? with
  | none => rfl
  | some n =>
    obtain ⟨r, hr, hName⟩ := Option.bind_eq_some_iff.1 hσ
    have hExtension := h _ r hr
    cases r with
    | named m =>
      obtain rfl := Option.some.inj hName
      exact hExtension
    | _ => cases hName

/-- Distinct operands that come from some operands come from distinct ones. -/
theorem Separates.rewrite {operands : List ClassExpression} (hSeparates : I.Separates operands) :
    I.Separates (ascend (operands.map (ClassExpression.rewrite σ))) := by
  intro x hx y hy hNe
  obtain ⟨a, ha, rfl⟩ := List.mem_map.1 (mem_ascend.1 hx)
  obtain ⟨b, hb, rfl⟩ := List.mem_map.1 (mem_ascend.1 hy)
  rw [extension_rewrite_of_sound h, extension_rewrite_of_sound h]
  apply hSeparates a ha b hb
  rintro rfl
  exact hNe rfl

/-- Operands are disjoint when the rewritten ones are and those that became equal are, too. -/
theorem Separates.of_rewrite {operands : List ClassExpression}
    (hSeparates : I.Separates (ascend (operands.map (ClassExpression.rewrite σ))))
    (hMerged : ∀ x ∈ operands, ∀ y ∈ operands, x ≠ y → x.rewrite σ = y.rewrite σ →
      Disjoint (I.extension x) (I.extension y)) : I.Separates operands := by
  intro x hx y hy hNe
  by_cases hEq : x.rewrite σ = y.rewrite σ
  · exact hMerged x hx y hy hNe hEq
  · rw [← extension_rewrite_of_sound h, ← extension_rewrite_of_sound h (e := y)]
    exact hSeparates _ (mem_ascend.2 (List.mem_map_of_mem hx)) _
      (mem_ascend.2 (List.mem_map_of_mem hy)) hEq

theorem union_rewrite (disjuncts : List ClassExpression) :
    {x | ∃ e ∈ ascend (disjuncts.map (ClassExpression.rewrite σ)), x ∈ I.extension e} =
      {x | ∃ e ∈ disjuncts, x ∈ I.extension e} := by
  ext x
  constructor
  · rintro ⟨e', he', hx⟩
    obtain ⟨e, he, rfl⟩ := List.mem_map.1 (mem_ascend.1 he')
    rw [extension_rewrite_of_sound h] at hx
    exact ⟨e, he, hx⟩
  · rintro ⟨e, he, hx⟩
    refine ⟨e.rewrite σ, mem_ascend.2 (List.mem_map_of_mem he), ?_⟩
    rw [extension_rewrite_of_sound h]
    exact hx

/-- Replacements that keep extensions keep an axiom satisfied. -/
theorem Satisfies.rewrite (hAx : I.Satisfies ax) : I.Satisfies (ax.rewrite σ) := by
  cases ax with
  | subClassOf sub super =>
    show I.extension (sub.rewrite σ) ⊆ I.extension (super.rewrite σ)
    rw [extension_rewrite_of_sound h, extension_rewrite_of_sound h]
    exact hAx
  | equivalent operands =>
    intro x hx y hy
    obtain ⟨a, ha, rfl⟩ := List.mem_map.1 (mem_ascend.1 hx)
    obtain ⟨b, hb, rfl⟩ := List.mem_map.1 (mem_ascend.1 hy)
    rw [extension_rewrite_of_sound h, extension_rewrite_of_sound h]
    exact hAx a ha b hb
  | disjoint operands => exact Separates.rewrite h hAx
  | disjointUnion defined disjuncts =>
    refine ⟨?_, Separates.rewrite h hAx.2⟩
    rw [classes_rewriteDefined h, union_rewrite h]
    exact hAx.1

/-- An axiom is satisfied when the rewritten one is and the expressions it makes disjoint are
disjoint wherever they became equal. -/
theorem Satisfies.of_rewrite (hAx : I.Satisfies (ax.rewrite σ))
    (hMerged : ∀ x ∈ ax.disjuncts, ∀ y ∈ ax.disjuncts, x ≠ y → x.rewrite σ = y.rewrite σ →
      Disjoint (I.extension x) (I.extension y)) : I.Satisfies ax := by
  cases ax with
  | subClassOf sub super =>
    have hSub : I.extension (sub.rewrite σ) ⊆ I.extension (super.rewrite σ) := hAx
    rw [extension_rewrite_of_sound h, extension_rewrite_of_sound h] at hSub
    exact hSub
  | equivalent operands =>
    intro x hx y hy
    rw [← extension_rewrite_of_sound h, ← extension_rewrite_of_sound h (e := y)]
    exact hAx _ (mem_ascend.2 (List.mem_map_of_mem hx)) _
      (mem_ascend.2 (List.mem_map_of_mem hy))
  | disjoint operands => exact Separates.of_rewrite h hAx hMerged
  | disjointUnion defined disjuncts =>
    obtain ⟨hUnion, hSeparates⟩ := hAx
    rw [classes_rewriteDefined h, union_rewrite h] at hUnion
    exact ⟨hUnion, Separates.of_rewrite h hSeparates hMerged⟩

end Axioms

/-- So do sequences of replacements. -/
theorem Satisfies.rewriteEach {steps : List (ClassExpression × ClassExpression)}
    (h : ∀ step ∈ steps, I.extension step.1 = I.extension step.2) (hAx : I.Satisfies ax) :
    I.Satisfies (ax.rewriteEach steps) := by
  induction steps generalizing ax with
  | nil => exact hAx
  | cons step steps ih =>
    apply ih fun s hs => h s (List.mem_cons_of_mem _ hs)
    apply hAx.rewrite
    intro t r hr
    obtain ⟨rfl, rfl⟩ := ClassExpression.replacing_eq_some.1 hr
    exact (h step List.mem_cons_self).symm

/-- A satisfied axiom makes its disjuncts disjoint. -/
theorem Satisfies.disjoint (hAx : I.Satisfies ax) {x y : ClassExpression} (hx : x ∈ ax.disjuncts)
    (hy : y ∈ ax.disjuncts) (hNe : x ≠ y) : Disjoint (I.extension x) (I.extension y) := by
  cases ax with
  | subClassOf sub super => cases hx
  | equivalent operands => cases hx
  | disjoint operands => exact hAx x hx y hy hNe
  | disjointUnion defined disjuncts => exact hAx.2 x hx y hy hNe

end Interpretation

end OntoFold
