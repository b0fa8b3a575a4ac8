import OntoFold.Order.SortedMap
import OntoFold.Tree.Encoding

/-!
# Class expressions by size

Grouping class expressions by the number of nodes of their trees. An expression is larger than
all that occur inside it, so no expression of a group contains another one of the group.
-/

namespace OntoFold

/-- The given expressions, grouped by size. -/
def sizeBuckets (es : List ClassExpression) : SortedMap Nat (SortedSet ClassExpression) :=
  .groupBy ClassExpression.size es

end OntoFold
