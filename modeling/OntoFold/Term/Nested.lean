import OntoFold.Axiom.Basic
import OntoFold.Order.SortedSet

/-!
# Nested class expressions

The class expressions that occur in a class expression or an axiom. The *positions* list
every occurrence, in the order of reading; the nested expressions, the names and the
presence of complements are read off them.
-/

namespace OntoFold

namespace ClassExpression

/-- The class expressions directly beneath. -/
def operands : ClassExpression → List ClassExpression
  | .complement operand => [operand]
  | .combined _ operands => operands
  | .quantified _ _ filler => [filler]
  | .cardinality _ _ _ (some filler) => [filler]
  | _ => []

mutual

/-- The class expressions at all positions, the whole expression first. -/
def positions : ClassExpression → List ClassExpression
  | .complement operand => .complement operand :: positions operand
  | .combined connective operands => .combined connective operands :: positionsIn operands
  | .quantified quantifier property filler =>
    .quantified quantifier property filler :: positions filler
  | .cardinality bound count property filler =>
    .cardinality bound count property filler :: fillerPositions filler
  | e => [e]

def positionsIn : List ClassExpression → List ClassExpression
  | [] => []
  | operand :: operands => positions operand ++ positionsIn operands

def fillerPositions : Option ClassExpression → List ClassExpression
  | none => []
  | some filler => positions filler

end

/-- The expressions occurring in an expression, itself included. -/
def nested (e : ClassExpression) : SortedSet ClassExpression := .ofList e.positions

/-- The names of the atomic classes of an expression. -/
def names (e : ClassExpression) : SortedSet Iri := .ofList (e.positions.filterMap name?)

def isComplement : ClassExpression → Bool
  | .complement _ => true
  | _ => false

def hasComplement (e : ClassExpression) : Bool := e.positions.any isComplement

theorem positionsIn_eq (es : List ClassExpression) : positionsIn es = es.flatMap positions := by
  induction es with
  | nil => rfl
  | cons e es ih => rw [positionsIn, ih, List.flatMap_cons]

theorem positions_eq (e : ClassExpression) : e.positions = e :: e.operands.flatMap positions := by
  cases e with
  | cardinality bound count property filler =>
    cases filler <;> simp [positions, fillerPositions, operands]
  | _ => simp [positions, positionsIn_eq, operands]

end ClassExpression

namespace Axiom

/-- The class expressions at all positions; the class a disjoint union defines is one. -/
def positions (ax : Axiom) : List ClassExpression :=
  (ax.definedClass?.map .named).toList ++ ax.operands.flatMap ClassExpression.positions

/-- The expressions occurring in an axiom. -/
def nested (ax : Axiom) : SortedSet ClassExpression := .ofList ax.positions

/-- The names of the classes of an axiom. -/
def names (ax : Axiom) : SortedSet Iri := .ofList (ax.positions.filterMap ClassExpression.name?)

def hasComplement (ax : Axiom) : Bool := ax.positions.any ClassExpression.isComplement

end Axiom

end OntoFold
