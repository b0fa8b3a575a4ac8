/-!
# Faults

The ways in which an operation can be misused or an internal agreement be broken. Most
faults name a node of an arena; the faults of folding name what was found instead of a class
or an axiom.
-/

namespace OntoFold

/-- The address of a node in an arena. -/
abbrev NodeId : Type := Nat

inductive Fault where
  /-- There is no node at the address. -/
  | missingNode (id : NodeId)
  /-- The parent of the node does not list it. -/
  | missingChild (id : NodeId)
  /-- The node is a root, which has no parent to leave. -/
  | rootDetached (id : NodeId)
  /-- A grafted tree did not become the last child. -/
  | misplacedGraft
  /-- The place of a replaced child is gone. -/
  | missingPlace
  /-- The links between nodes run in a circle. -/
  | endlessLinks
  /-- A tree expected to stand for a class expression stands for something else. -/
  | notAClass
  /-- A tree expected to stand for an axiom stands for something else. -/
  | notAnAxiom
  /-- The symbol has an entry already. -/
  | duplicateSymbol
  /-- An unfolding has more levels than there are symbols. -/
  | unboundedUnfolding
  deriving DecidableEq, Repr

namespace Fault

/-- The explanation of a fault that names a node; the other faults have none. -/
def message? : Fault → Option String
  | .missingNode id => some s!"BUG: node {id} is not part of the tree"
  | .missingChild id => some s!"BUG: node {id} missing from its parent's children"
  | .rootDetached id => some s!"BUG: node {id} is the root and cannot be detached"
  | .notAClass => some "BUG: class expression tree decoded to something else"
  | .notAnAxiom => some "BUG: axiom tree decoded to something else"
  | _ => none

end Fault

end OntoFold
