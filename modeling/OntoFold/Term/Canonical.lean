import OntoFold.Axiom.Basic
import OntoFold.Order.SortedSet

/-!
# Canonical terms

A term is canonical when its operand lists are strictly ascending at every depth, so that
they stand for sets. The constructors `combine`, `enumerate` and `restrict` take operands in
any order and with repetitions.
-/

namespace OntoFold

/-! ## Data ranges -/

namespace DataRange

/-- The connective over a set of ranges. -/
def combine (connective : Connective) (ranges : List DataRange) : DataRange :=
  .combined connective (ascend ranges)

/-- The set of some literals. -/
def enumerate (values : List Literal) : DataRange := .oneOf (ascend values)

/-- The values of a datatype that satisfy a set of facets. -/
def restrict (base : Iri) (facets : List Facet) : DataRange := .restriction base (ascend facets)

mutual

def isCanonical : DataRange → Bool
  | .datatype _ => true
  | .oneOf values => decide (Ascending values)
  | .complement range => isCanonical range
  | .combined _ ranges => decide (Ascending ranges) && allCanonical ranges
  | .restriction _ facets => decide (Ascending facets)

def allCanonical : List DataRange → Bool
  | [] => true
  | range :: ranges => isCanonical range && allCanonical ranges

end

abbrev Canonical (range : DataRange) : Prop := range.isCanonical = true

theorem allCanonical_iff {ranges : List DataRange} :
    allCanonical ranges = true ↔ ∀ range ∈ ranges, range.Canonical := by
  induction ranges with
  | nil => simp [allCanonical]
  | cons range ranges ih => simp [allCanonical, ih]

theorem canonical_combine {connective : Connective} {ranges : List DataRange}
    (h : ∀ range ∈ ranges, range.Canonical) : (combine connective ranges).Canonical := by
  simp only [Canonical, combine, isCanonical, Bool.and_eq_true, decide_eq_true_eq]
  exact ⟨ascending_ascend _, allCanonical_iff.2 fun range hMem => h range (mem_ascend.1 hMem)⟩

theorem canonical_enumerate (values : List Literal) : (enumerate values).Canonical := by
  simp [Canonical, enumerate, isCanonical, ascending_ascend]

theorem canonical_restrict (base : Iri) (facets : List Facet) :
    (restrict base facets).Canonical := by
  simp [Canonical, restrict, isCanonical, ascending_ascend]

end DataRange

/-! ## Class expressions -/

namespace ClassExpression

/-- The connective over a set of classes. -/
def combine (connective : Connective) (operands : List ClassExpression) : ClassExpression :=
  .combined connective (ascend operands)

/-- The class of some individuals. -/
def enumerate (individuals : List Individual) : ClassExpression := .oneOf (ascend individuals)

mutual

def isCanonical : ClassExpression → Bool
  | .complement operand => isCanonical operand
  | .combined _ operands => decide (Ascending operands) && allCanonical operands
  | .oneOf individuals => decide (Ascending individuals)
  | .quantified _ _ filler => isCanonical filler
  | .cardinality _ _ _ filler => isCanonicalFiller filler
  | .dataQuantified _ _ range => range.isCanonical
  | .dataCardinality _ _ _ range => range.all DataRange.isCanonical
  | _ => true

def allCanonical : List ClassExpression → Bool
  | [] => true
  | operand :: operands => isCanonical operand && allCanonical operands

def isCanonicalFiller : Option ClassExpression → Bool
  | none => true
  | some filler => isCanonical filler

end

abbrev Canonical (e : ClassExpression) : Prop := e.isCanonical = true

theorem allCanonical_iff {operands : List ClassExpression} :
    allCanonical operands = true ↔ ∀ operand ∈ operands, operand.Canonical := by
  induction operands with
  | nil => simp [allCanonical]
  | cons operand operands ih => simp [allCanonical, ih]

/-- A set of canonical operands is canonical. -/
theorem canonical_ascend {operands : List ClassExpression}
    (h : ∀ operand ∈ operands, operand.Canonical) :
    (decide (Ascending (ascend operands)) && allCanonical (ascend operands)) = true := by
  simp only [Bool.and_eq_true, decide_eq_true_eq]
  exact ⟨ascending_ascend _, allCanonical_iff.2 fun e hMem => h e (mem_ascend.1 hMem)⟩

theorem canonical_combine {connective : Connective} {operands : List ClassExpression}
    (h : ∀ operand ∈ operands, operand.Canonical) : (combine connective operands).Canonical :=
  canonical_ascend h

theorem canonical_enumerate (individuals : List Individual) :
    (enumerate individuals).Canonical := by
  simp [Canonical, enumerate, isCanonical, ascending_ascend]

end ClassExpression

/-! ## Terms and axioms -/

abbrev Term.Canonical : Term → Prop
  | .classExpression e => e.Canonical
  | .dataRange range => range.Canonical
  | _ => True

namespace Axiom

/-- The equivalence of a set of classes. -/
def equate (operands : List ClassExpression) : Axiom := .equivalent (ascend operands)

/-- The disjointness of a set of classes. -/
def separate (operands : List ClassExpression) : Axiom := .disjoint (ascend operands)

/-- A class as the disjoint union of a set of classes. -/
def partition (defined : Iri) (disjuncts : List ClassExpression) : Axiom :=
  .disjointUnion defined (ascend disjuncts)

def isCanonical : Axiom → Bool
  | .subClassOf sub super => sub.isCanonical && super.isCanonical
  | .equivalent operands => decide (Ascending operands) && ClassExpression.allCanonical operands
  | .disjoint operands => decide (Ascending operands) && ClassExpression.allCanonical operands
  | .disjointUnion _ disjuncts =>
    decide (Ascending disjuncts) && ClassExpression.allCanonical disjuncts

abbrev Canonical (ax : Axiom) : Prop := ax.isCanonical = true

end Axiom

end OntoFold
