/-!
# Terms

Class expressions and the terms they are made of: property expressions, individuals,
literals, facets and data ranges. Values compare structurally. The operands of a
connective and the members of an enumeration are lists; the canonical ones are those
whose lists are strictly ascending (see `OntoFold.Term.Canonical`), which makes a list
of operands a set.
-/

namespace OntoFold

/-- The name of a class, a property, a datatype, an individual or a facet. -/
structure Iri where
  text : String

/-- An object property, taken as it stands or in reverse. -/
inductive ObjectProperty where
  | named (iri : Iri)
  | inverse (iri : Iri)

/-- The named property underneath. -/
def ObjectProperty.iri : ObjectProperty → Iri
  | .named iri => iri
  | .inverse iri => iri

inductive Individual where
  | named (iri : Iri)
  /-- An individual without a name, known by a local label. -/
  | anonymous (label : String)

inductive Literal where
  | plain (value : String)
  | tagged (value language : String)
  | typed (value : String) (datatype : Iri)

/-- A constraint on the values of a datatype. -/
structure Facet where
  iri : Iri
  value : Literal

/-- The connectives whose operands form a set. -/
inductive Connective where
  | intersection
  | union
  deriving DecidableEq

inductive Quantifier where
  | existential
  | universal
  deriving DecidableEq

/-- The kinds of cardinality restrictions. -/
inductive Bound where
  | min
  | max
  | exact
  deriving DecidableEq

/-- A set of data values. -/
inductive DataRange where
  | datatype (iri : Iri)
  | oneOf (values : List Literal)
  | complement (range : DataRange)
  | combined (connective : Connective) (ranges : List DataRange)
  | restriction (datatype : Iri) (facets : List Facet)

/-- A set of individuals. Cardinality restrictions may leave their filler out. -/
inductive ClassExpression where
  | named (iri : Iri)
  | complement (operand : ClassExpression)
  | combined (connective : Connective) (operands : List ClassExpression)
  | oneOf (individuals : List Individual)
  | quantified (quantifier : Quantifier) (property : ObjectProperty) (filler : ClassExpression)
  | hasValue (property : ObjectProperty) (individual : Individual)
  | hasSelf (property : ObjectProperty)
  | cardinality (bound : Bound) (count : Nat) (property : ObjectProperty)
      (filler : Option ClassExpression)
  | dataQuantified (quantifier : Quantifier) (property : Iri) (range : DataRange)
  | dataHasValue (property : Iri) (value : Literal)
  | dataCardinality (bound : Bound) (count : Nat) (property : Iri) (range : Option DataRange)

/-- Whatever can fill a term position. -/
inductive Term where
  | classExpression (expression : ClassExpression)
  | objectProperty (property : ObjectProperty)
  | dataProperty (iri : Iri)
  | individual (individual : Individual)
  | literal (literal : Literal)
  | dataRange (range : DataRange)
  | facet (facet : Facet)

namespace ClassExpression

/-- The name of an atomic class. -/
def name? : ClassExpression → Option Iri
  | .named iri => some iri
  | _ => none

def isNamed (e : ClassExpression) : Bool := e.name?.isSome

end ClassExpression

namespace Term

def classExpression? : Term → Option ClassExpression
  | .classExpression e => some e
  | _ => none

/-- Whether two terms can stand in the same kind of position. -/
def sameCategory : Term → Term → Bool
  | .classExpression _, .classExpression _ => true
  | .objectProperty _, .objectProperty _ => true
  | .dataProperty _, .dataProperty _ => true
  | .individual _, .individual _ => true
  | .literal _, .literal _ => true
  | .dataRange _, .dataRange _ => true
  | .facet _, .facet _ => true
  | _, _ => false

end Term

end OntoFold
