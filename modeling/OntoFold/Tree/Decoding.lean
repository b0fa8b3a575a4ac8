import OntoFold.Tree.Encoding

/-!
# Decoding trees

A tree is read bottom up: a leaf stands for its own phrase, and any other node for the phrase
that `assemble` puts together from what its children stand for. Children are told apart by
their category and, in axioms, by their position; a part that no child supplies is taken from
the phrase the node holds.

The main definitions are `Phrase.assemble` and `Tree.decode`.
-/

namespace OntoFold

/-- The parts a phrase is put together from. -/
abbrev Parts : Type := List Label

namespace Parts

variable (parts : Parts)

def terms : List Term := parts.filterMap fun l => l.phrase.term?

/-- The class expressions that stand in operand position. -/
def classes : List ClassExpression :=
  (parts.filter fun l => l.position ≠ some .definedClass).filterMap fun l => l.phrase.class?

def class? : Option ClassExpression := parts.findSome? fun l => l.phrase.class?

/-- The first class expression in a given position. -/
def classAt? (position : Position) : Option ClassExpression :=
  (parts.filter fun l => l.position = some position).findSome? fun l => l.phrase.class?

def properties : List ObjectProperty := parts.terms.filterMap fun
  | .objectProperty p => some p
  | _ => none

def property? : Option ObjectProperty := parts.properties.head?

def dataProperty? : Option Iri := parts.terms.findSome? fun
  | .dataProperty p => some p
  | _ => none

def individuals : List Individual := parts.terms.filterMap fun
  | .individual i => some i
  | _ => none

def literals : List Literal := parts.terms.filterMap fun
  | .literal l => some l
  | _ => none

def ranges : List DataRange := parts.terms.filterMap fun
  | .dataRange d => some d
  | _ => none

/-- The first atomic data range. -/
def datatype? : Option Iri := parts.ranges.findSome? fun
  | .datatype iri => some iri
  | _ => none

def facets : List Facet := parts.terms.filterMap fun
  | .facet f => some f
  | _ => none

def count? : Option Nat := parts.findSome? fun l => match l.phrase with
  | .count n => some n
  | _ => none

end Parts

/-! ## Assembling phrases -/

namespace DataRange

def assemble (parts : Parts) : DataRange → DataRange
  | .datatype iri => .datatype iri
  | .oneOf _ => enumerate parts.literals
  | .complement range => .complement (parts.ranges.head?.getD range)
  | .combined connective _ => combine connective parts.ranges
  | .restriction base _ => restrict (parts.datatype?.getD base) parts.facets

end DataRange

namespace ClassExpression

def assemble (parts : Parts) : ClassExpression → ClassExpression
  | .named iri => .named iri
  | .complement operand => .complement (parts.class?.getD operand)
  | .combined connective _ => combine connective parts.classes
  | .oneOf _ => enumerate parts.individuals
  | .quantified quantifier property filler =>
    .quantified quantifier (parts.property?.getD property) (parts.class?.getD filler)
  | .hasValue property individual =>
    .hasValue (parts.property?.getD property) ((ascend parts.individuals).head?.getD individual)
  | .hasSelf property => .hasSelf (parts.property?.getD property)
  | .cardinality bound count property _ =>
    .cardinality bound (parts.count?.getD count) (parts.property?.getD property) parts.class?
  | .dataQuantified quantifier property range =>
    .dataQuantified quantifier (parts.dataProperty?.getD property)
      (parts.ranges.head?.getD range)
  | .dataHasValue property value =>
    .dataHasValue (parts.dataProperty?.getD property) (parts.literals.head?.getD value)
  | .dataCardinality bound count property _ =>
    .dataCardinality bound (parts.count?.getD count) (parts.dataProperty?.getD property)
      parts.ranges.head?

end ClassExpression

namespace Term

def assemble (parts : Parts) : Term → Term
  | .classExpression e => .classExpression (e.assemble parts)
  | .objectProperty (.inverse iri) =>
    .objectProperty (.inverse ((parts.property?.map ObjectProperty.iri).getD iri))
  | .dataRange range => .dataRange (range.assemble parts)
  | .facet f => .facet ⟨f.iri, parts.literals.head?.getD f.value⟩
  | t => t

end Term

namespace Axiom

def assemble (parts : Parts) : Axiom → Axiom
  | .subClassOf sub super =>
    .subClassOf ((parts.classAt? .subClass).getD sub) ((parts.classAt? .superClass).getD super)
  | .equivalent _ => equate parts.classes
  | .disjoint _ => separate parts.classes
  | .disjointUnion defined _ =>
    partition (((parts.classAt? .definedClass).bind ClassExpression.name?).getD defined)
      parts.classes

end Axiom

namespace Phrase

/-- A phrase of the same kind as the given one, put together from parts. -/
def assemble (parts : Parts) : Phrase → Phrase
  | .statement ax => .statement (ax.assemble parts)
  | .term t => .term (t.assemble parts)
  | .count n => .count n
  | .chain _ => .chain parts.properties

/-- Whether the children of a node form a set. -/
def isSetValued : Phrase → Bool
  | .statement (.subClassOf ..) => false
  | .statement _ => true
  | .term (.classExpression (.combined ..)) => true
  | .term (.classExpression (.oneOf _)) => true
  | .term (.dataRange (.oneOf _)) => true
  | .term (.dataRange (.combined ..)) => true
  | .term (.dataRange (.restriction ..)) => true
  | _ => false

end Phrase

/-! ## Reading trees -/

/-- What a node stands for, given what its children stand for. -/
def Label.resolve (label : Label) (children : List Label) : Label :=
  if children.isEmpty then label else { label with phrase := label.phrase.assemble children }

/-- What the trees of a forest stand for. -/
def Forest.decode : Forest Label → List Label
  | .nil => []
  | .cons label below rest => label.resolve below.decode :: rest.decode

/-- The phrase a tree stands for. -/
def Tree.decode (t : Tree Label) : Phrase := (t.label.resolve t.below.decode).phrase

end OntoFold
