import OntoFold.Term.Order

/-!
# Axioms

Statements about class expressions: a subsumption, the equivalence or disjointness of
several classes, and the definition of a class as a disjoint union.
-/

namespace OntoFold

inductive Axiom where
  | subClassOf (sub super : ClassExpression)
  | equivalent (operands : List ClassExpression)
  | disjoint (operands : List ClassExpression)
  /-- The defined class is the union of the disjuncts, which do not overlap. -/
  | disjointUnion (defined : Iri) (disjuncts : List ClassExpression)

namespace Axiom

/-- The keyword of the kind of axiom. -/
def keyword : Axiom → String
  | .subClassOf .. => "SubClassOf"
  | .equivalent _ => "EquivalentClasses"
  | .disjoint _ => "DisjointClasses"
  | .disjointUnion .. => "DisjointUnion"

/-- The class expressions at the top level, apart from the class a disjoint union defines. -/
def operands : Axiom → List ClassExpression
  | .subClassOf sub super => [sub, super]
  | .equivalent operands => operands
  | .disjoint operands => operands
  | .disjointUnion _ disjuncts => disjuncts

/-- The class a disjoint union defines. -/
def definedClass? : Axiom → Option Iri
  | .disjointUnion defined _ => some defined
  | _ => none

def key : Axiom → List Token
  | .subClassOf sub super => .number 0 :: (orderKey sub ++ orderKey super)
  | .equivalent operands => .number 1 :: orderKey operands
  | .disjoint operands => .number 2 :: orderKey operands
  | .disjointUnion defined disjuncts => .number 3 :: (orderKey defined ++ orderKey disjuncts)

instance : Keyed Axiom where
  orderKey := key
  orderKey_append {a b r s} h := by
    cases a <;> cases b <;> simp_all [key, Keyed.orderKey_append_iff]

end Axiom

end OntoFold
