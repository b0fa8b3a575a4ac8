import OntoFold.Order.SortedMap
import OntoFold.Term.Nested
import OntoFold.Tree.Encoding

/-!
# Censuses of class expressions

How often each class expression occurs in a list of axioms, counted by nodes of their trees,
and which expressions contain which. An expression is dominated when an expression around it
occurs exactly as often, so that one never occurs without the other.
-/

namespace OntoFold

namespace ClassExpression

mutual

/-- The greatest number of class expressions around a class expression inside this one. -/
def level : ClassExpression → Nat
  | .complement operand => level operand + 1
  | .combined _ operands => levelAbove operands
  | .quantified _ _ filler => level filler + 1
  | .cardinality _ _ _ filler => fillerLevel filler
  | _ => 0

/-- The level of an expression with the given operands. -/
def levelAbove : List ClassExpression → Nat
  | [] => 0
  | operand :: operands => max (level operand + 1) (levelAbove operands)

def fillerLevel : Option ClassExpression → Nat
  | none => 0
  | some filler => level filler + 1

end

/-- The expressions inside an expression, itself excluded. -/
def strictlyNested (e : ClassExpression) : SortedSet ClassExpression := e.nested.erase e

end ClassExpression

structure Census where
  /-- How many nodes hold each expression. -/
  counts : SortedMap ClassExpression Nat
  /-- The expressions around each expression that lies inside another one. -/
  containers : SortedMap ClassExpression (SortedSet ClassExpression)
  /-- The expressions by level. -/
  levels : SortedMap Nat (SortedSet ClassExpression)

namespace Census

/-- The class expressions at the nodes of the tree of an axiom. -/
def classNodes (ax : Axiom) : List ClassExpression :=
  ((Phrase.statement ax).encode none).toList.filterMap fun label => label.phrase.class?

def ofList (axioms : List Axiom) : Census :=
  let expressions := SortedSet.ofList (axioms.flatMap fun ax => ax.nested.toList)
  { counts := (axioms.flatMap classNodes).foldl (fun m e => m.alter e fun n => n.getD 0 + 1) ∅
    containers := expressions.toList.foldl
      (fun m e => e.strictlyNested.toList.foldl (fun m inner => m.extend inner [e]) m) ∅
    levels := .groupBy ClassExpression.level expressions.toList }

variable (census : Census)

/-- How often an expression occurs. -/
def occurrences (e : ClassExpression) : Nat := (census.counts.get? e).getD 0

/-- The expressions around an expression, if there are any. -/
def containers? (e : ClassExpression) : Option (SortedSet ClassExpression) :=
  census.containers.get? e

/-- The smallest expression around an expression that occurs as often. -/
def dominating? (e : ClassExpression) : Option ClassExpression :=
  (census.containers? e).bind fun around =>
    around.toList.find? fun outer => census.occurrences outer = census.occurrences e

/-- All expressions, lower levels first. -/
def bottomUp : List ClassExpression := census.levels.values.flatMap SortedSet.toList

/-- The number of expressions. -/
def size : Nat := census.counts.size

end Census

end OntoFold
