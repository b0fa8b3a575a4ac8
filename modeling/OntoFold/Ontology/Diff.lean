import OntoFold.Ontology.Basic

/-!
# Comparing ontologies

The axioms that only one of two ontologies has, apart from axioms with complements.
-/

namespace OntoFold

structure OntologyDiff where
  onlyLeft : SortedSet Axiom
  onlyRight : SortedSet Axiom

namespace OntologyDiff

def isEqual (d : OntologyDiff) : Bool := d.onlyLeft.isEmpty && d.onlyRight.isEmpty

/-- The lines of some axioms, ordered by their text. -/
def lines (mark : String) (axioms : SortedSet Axiom) : String :=
  let texts := axioms.toList.map Axiom.render
  String.join ((texts.mergeSort fun s t => (compare s t).isLE).map fun text =>
    mark ++ " " ++ text ++ "\n")

def render (d : OntologyDiff) : String :=
  if d.isEqual then "axiom sets are equal" else lines "-" d.onlyLeft ++ lines "+" d.onlyRight

end OntologyDiff

def Ontology.compare (left right : Ontology) : OntologyDiff :=
  ⟨left.withoutComplements \ right.withoutComplements,
    right.withoutComplements \ left.withoutComplements⟩

end OntoFold
