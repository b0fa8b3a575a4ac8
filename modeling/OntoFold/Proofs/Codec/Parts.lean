import Mathlib.Data.List.Basic
import OntoFold.Proofs.Forest.Subtrees
import OntoFold.Tree.Decoding

/-!
# The parts of a phrase

The parts of a phrase are the labels of the children of its tree, read off the phrase itself.

* `Phrase.trees_branches`: the children of the tree of a phrase are the trees of its parts.
* `Phrase.size_lt_of_mem_parts`: parts are smaller, which gives induction over parts.
* `Phrase.canonical_of_mem_parts`: the parts of a canonical phrase are canonical.
-/

namespace OntoFold

open Branches (node ofLeaves)

/-! ## Taking phrases apart -/

namespace Label

/-- A phrase without position. -/
abbrev bare (p : Phrase) : Label := ⟨p, none⟩

/-- The tree of the phrase of a label, at its position. -/
def encode (l : Label) : Tree Label := l.phrase.encode l.position

end Label

open Label (bare)

namespace DataRange

def parts : DataRange → List Label
  | .datatype _ => []
  | .oneOf values => values.map fun l => bare (.term (.literal l))
  | .complement range => [bare range.phrase]
  | .combined _ ranges => ranges.map fun range => bare range.phrase
  | .restriction base facets =>
    bare (datatype base).phrase :: facets.map fun f => bare (.term (.facet f))

end DataRange

namespace ClassExpression

def parts : ClassExpression → List Label
  | .named _ => []
  | .complement operand => [bare (.ofClass operand)]
  | .combined _ operands => operands.map fun e => bare (.ofClass e)
  | .oneOf individuals => individuals.map fun i => bare (.term (.individual i))
  | .quantified _ property filler => [bare property.phrase, bare (.ofClass filler)]
  | .hasValue property individual => [bare property.phrase, bare (.term (.individual individual))]
  | .hasSelf property => [bare property.phrase]
  | .cardinality _ count property filler =>
    bare (.count count) :: bare property.phrase :: filler.toList.map fun e => bare (.ofClass e)
  | .dataQuantified _ property range =>
    [bare (.term (.dataProperty property)), bare range.phrase]
  | .dataHasValue property value =>
    [bare (.term (.dataProperty property)), bare (.term (.literal value))]
  | .dataCardinality _ count property range =>
    bare (.count count) :: bare (.term (.dataProperty property)) ::
      range.toList.map fun range => bare range.phrase

end ClassExpression

namespace Term

def parts : Term → List Label
  | .classExpression e => e.parts
  | .objectProperty (.inverse iri) => [bare (ObjectProperty.named iri).phrase]
  | .dataRange range => range.parts
  | .facet f => [bare (.term (.literal f.value))]
  | _ => []

end Term

namespace Axiom

def parts : Axiom → List Label
  | .subClassOf sub super =>
    [⟨.ofClass sub, some .subClass⟩, ⟨.ofClass super, some .superClass⟩]
  | .equivalent operands => operands.map fun e => bare (.ofClass e)
  | .disjoint operands => operands.map fun e => bare (.ofClass e)
  | .disjointUnion defined disjuncts =>
    ⟨.ofClass (.named defined), some .definedClass⟩ :: disjuncts.map fun e => bare (.ofClass e)

end Axiom

/-- The labels of the children of the tree of a phrase. -/
def Phrase.parts : Phrase → List Label
  | .statement ax => ax.parts
  | .term t => t.parts
  | .count _ => []
  | .chain properties => properties.map fun property => bare property.phrase

/-! ## The children of an encoding -/

theorem trees_literals (values : List Literal) :
    (ofLeaves (values.map fun l => .term (.literal l))).trees =
      (values.map fun l => bare (.term (.literal l))).map Label.encode := by
  induction values with
  | nil => rfl
  | cons l values ih => exact congrArg (List.cons _) ih

theorem trees_individuals (individuals : List Individual) :
    (ofLeaves (individuals.map fun i => .term (.individual i))).trees =
      (individuals.map fun i => bare (.term (.individual i))).map Label.encode := by
  induction individuals with
  | nil => rfl
  | cons i individuals ih => exact congrArg (List.cons _) ih

theorem trees_facets (facets : List Facet) :
    (facets.foldr (fun f => node (.term (.facet f)) f.branches) .nil).trees =
      (facets.map fun f => bare (.term (.facet f))).map Label.encode := by
  induction facets with
  | nil => rfl
  | cons f facets ih => exact congrArg (List.cons _) ih

theorem trees_chain (properties : List ObjectProperty) :
    (properties.foldr ObjectProperty.plant .nil).trees =
      (properties.map fun property => bare property.phrase).map Label.encode := by
  induction properties with
  | nil => rfl
  | cons property properties ih => exact congrArg (List.cons _) ih

theorem trees_ranges (ranges : List DataRange) :
    (DataRange.branchesIn ranges).trees =
      (ranges.map fun range => bare range.phrase).map Label.encode := by
  induction ranges with
  | nil => rfl
  | cons range ranges ih =>
    simp only [DataRange.branchesIn, node, Forest.trees, ih, List.map_cons]
    rfl

theorem trees_operands (operands : List ClassExpression) :
    (ClassExpression.branchesIn operands).trees =
      (operands.map fun e => bare (.ofClass e)).map Label.encode := by
  induction operands with
  | nil => rfl
  | cons e operands ih =>
    simp only [ClassExpression.branchesIn, node, Forest.trees, ih, List.map_cons]
    rfl

namespace Phrase

/-- Every child of the tree of a phrase is the tree of a part. -/
theorem trees_branches (p : Phrase) : p.branches.trees = p.parts.map Label.encode := by
  cases p with
  | statement ax =>
    cases ax with
    | subClassOf sub super => rfl
    | equivalent operands => exact trees_operands operands
    | disjoint operands => exact trees_operands operands
    | disjointUnion defined disjuncts => exact congrArg (List.cons _) (trees_operands disjuncts)
  | term t =>
    cases t with
    | classExpression e =>
      cases e with
      | combined connective operands => exact trees_operands operands
      | oneOf individuals => exact trees_individuals individuals
      | cardinality bound count property filler => cases filler <;> rfl
      | dataCardinality bound count property range => cases range <;> rfl
      | _ => rfl
    | objectProperty property => cases property <;> rfl
    | dataRange range =>
      cases range with
      | oneOf values => exact trees_literals values
      | combined connective ranges => exact trees_ranges ranges
      | restriction base facets => exact congrArg (List.cons _) (trees_facets facets)
      | _ => rfl
    | _ => rfl
  | count n => rfl
  | chain properties => exact trees_chain properties

theorem heads_branches (p : Phrase) : p.branches.heads = p.parts := by
  rw [Forest.heads_eq, trees_branches, List.map_map]
  exact List.map_id p.parts

/-- The trees inside the tree of a phrase are those of its parts and what is inside them. -/
theorem mem_subtrees_branches {p : Phrase} {s : Tree Label} :
    s ∈ p.branches.subtrees ↔ ∃ l ∈ p.parts, s ∈ l.encode.subtrees := by
  rw [Forest.mem_subtrees_iff, trees_branches]
  simp [Tree.subtrees]

theorem size_lt_of_mem_parts {p : Phrase} {l : Label} (h : l ∈ p.parts) :
    l.phrase.size < p.size := by
  have hMem : l.encode ∈ p.branches.subtrees :=
    mem_subtrees_branches.2 ⟨l, h, List.mem_cons_self⟩
  have hLe := Forest.size_le_of_mem_subtrees hMem
  have hSize : l.phrase.size = l.encode.size := rfl
  have hWhole : p.size = p.branches.size + 1 := rfl
  omega

/-- Induction over the parts of phrases. -/
theorem parts_induction {motive : Phrase → Prop}
    (step : ∀ p : Phrase, (∀ l ∈ p.parts, motive l.phrase) → motive p) (p : Phrase) :
    motive p := by
  induction hSize : p.size using Nat.strongRecOn generalizing p with
  | ind n ih =>
    refine step p fun l hl => ih l.phrase.size ?_ l.phrase rfl
    rw [← hSize]
    exact size_lt_of_mem_parts hl

/-- Every node of an encoding stands above the encoding of its own phrase. -/
theorem below_eq_branches {p : Phrase} {s : Tree Label} (h : s ∈ p.branches.subtrees) :
    s.below = s.label.phrase.branches := by
  induction p using parts_induction with
  | step p ih =>
    obtain ⟨l, hl, hs⟩ := mem_subtrees_branches.1 h
    rcases List.mem_cons.1 hs with rfl | hs
    · rfl
    · exact ih l hl hs

end Phrase

/-! ## Canonical parts -/

theorem DataRange.canonical_of_mem_parts {range : DataRange} {l : Label} (h : range.Canonical)
    (hl : l ∈ range.parts) : l.phrase.Canonical := by
  cases range with
  | datatype iri => cases hl
  | oneOf values =>
    obtain ⟨l, -, rfl⟩ := List.mem_map.1 hl
    trivial
  | complement range =>
    rw [List.mem_singleton.1 hl]
    exact h
  | combined connective ranges =>
    obtain ⟨range, hRange, rfl⟩ := List.mem_map.1 hl
    exact allCanonical_iff.1 (Bool.and_eq_true_iff.1 h).2 range hRange
  | restriction base facets =>
    rcases List.mem_cons.1 hl with rfl | hl
    · rfl
    · obtain ⟨f, -, rfl⟩ := List.mem_map.1 hl
      trivial

theorem ClassExpression.canonical_of_mem_parts {e : ClassExpression} {l : Label}
    (h : e.Canonical) (hl : l ∈ e.parts) : l.phrase.Canonical := by
  cases e with
  | named iri => cases hl
  | complement operand =>
    rw [List.mem_singleton.1 hl]
    exact h
  | combined connective operands =>
    obtain ⟨e, he, rfl⟩ := List.mem_map.1 hl
    exact allCanonical_iff.1 (Bool.and_eq_true_iff.1 h).2 e he
  | oneOf individuals =>
    obtain ⟨i, -, rfl⟩ := List.mem_map.1 hl
    trivial
  | quantified quantifier property filler =>
    rcases List.mem_pair.1 hl with rfl | rfl
    · trivial
    · exact h
  | hasValue property individual => rcases List.mem_pair.1 hl with rfl | rfl <;> trivial
  | hasSelf property =>
    rw [List.mem_singleton.1 hl]
    trivial
  | cardinality bound count property filler =>
    rcases List.mem_cons.1 hl with rfl | hl
    · trivial
    rcases List.mem_cons.1 hl with rfl | hl
    · trivial
    obtain ⟨e, he, rfl⟩ := List.mem_map.1 hl
    obtain rfl := Option.mem_toList.1 he
    exact h
  | dataQuantified quantifier property range =>
    rcases List.mem_pair.1 hl with rfl | rfl
    · trivial
    · exact h
  | dataHasValue property value => rcases List.mem_pair.1 hl with rfl | rfl <;> trivial
  | dataCardinality bound count property range =>
    rcases List.mem_cons.1 hl with rfl | hl
    · trivial
    rcases List.mem_cons.1 hl with rfl | hl
    · trivial
    obtain ⟨d, hd, rfl⟩ := List.mem_map.1 hl
    obtain rfl := Option.mem_toList.1 hd
    exact h

theorem Term.canonical_of_mem_parts {t : Term} {l : Label} (h : t.Canonical)
    (hl : l ∈ t.parts) : l.phrase.Canonical := by
  cases t with
  | classExpression e => exact ClassExpression.canonical_of_mem_parts h hl
  | dataRange range => exact DataRange.canonical_of_mem_parts h hl
  | objectProperty property =>
    cases property with
    | named iri => cases hl
    | inverse iri =>
      rw [List.mem_singleton.1 hl]
      trivial
  | facet f =>
    rw [List.mem_singleton.1 hl]
    trivial
  | _ => cases hl

theorem ClassExpression.canonical_of_mem_operands {operands : List ClassExpression}
    (h : (decide (Ascending operands) && allCanonical operands) = true) {l : Label}
    (hl : l ∈ operands.map fun e => bare (.ofClass e)) : l.phrase.Canonical := by
  obtain ⟨e, he, rfl⟩ := List.mem_map.1 hl
  exact allCanonical_iff.1 (Bool.and_eq_true_iff.1 h).2 e he

theorem Axiom.canonical_of_mem_parts {ax : Axiom} {l : Label} (h : ax.Canonical)
    (hl : l ∈ ax.parts) : l.phrase.Canonical := by
  cases ax with
  | subClassOf sub super =>
    obtain ⟨hSub, hSuper⟩ := Bool.and_eq_true_iff.1 h
    rcases List.mem_pair.1 hl with rfl | rfl
    · exact hSub
    · exact hSuper
  | equivalent operands => exact ClassExpression.canonical_of_mem_operands h hl
  | disjoint operands => exact ClassExpression.canonical_of_mem_operands h hl
  | disjointUnion defined disjuncts =>
    rcases List.mem_cons.1 hl with rfl | hl
    · rfl
    · exact ClassExpression.canonical_of_mem_operands h hl

theorem Phrase.canonical_of_mem_parts {p : Phrase} {l : Label} (h : p.Canonical)
    (hl : l ∈ p.parts) : l.phrase.Canonical := by
  cases p with
  | statement ax => exact Axiom.canonical_of_mem_parts h hl
  | term t => exact Term.canonical_of_mem_parts h hl
  | count n => cases hl
  | chain properties =>
    obtain ⟨property, -, rfl⟩ := List.mem_map.1 hl
    trivial

end OntoFold
