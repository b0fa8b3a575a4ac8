import OntoFold.Axiom.Basic
import OntoFold.Text.Quoted

/-!
# Functional style

Terms and axioms as text: a keyword and, in parentheses, the parts with one space between
them. Names stand in angle brackets as they are; the values of literals are quoted.
-/

namespace OntoFold

/-- Texts, each after a space. -/
def spaced (texts : List String) : String := String.join (texts.map (" " ++ ·))

/-- Texts with one space between them. -/
def separated : List String → String
  | [] => ""
  | text :: texts => text ++ spaced texts

namespace Iri

def render (iri : Iri) : String := "<" ++ iri.text ++ ">"

end Iri

namespace ObjectProperty

def render : ObjectProperty → String
  | .named iri => iri.render
  | .inverse iri => "ObjectInverseOf(" ++ iri.render ++ ")"

end ObjectProperty

namespace Individual

def render : Individual → String
  | .named iri => iri.render
  | .anonymous label => "_:" ++ label

end Individual

namespace Literal

def render : Literal → String
  | .plain value => Text.quoted value
  | .tagged value language => Text.quoted value ++ "@" ++ language
  | .typed value datatype => Text.quoted value ++ "^^" ++ datatype.render

end Literal

namespace Facet

def render (f : Facet) : String := f.iri.render ++ " " ++ f.value.render

end Facet

def Connective.keyword : Connective → String
  | .intersection => "IntersectionOf"
  | .union => "UnionOf"

def Quantifier.keyword : Quantifier → String
  | .existential => "SomeValuesFrom"
  | .universal => "AllValuesFrom"

def Bound.keyword : Bound → String
  | .min => "MinCardinality"
  | .max => "MaxCardinality"
  | .exact => "ExactCardinality"

namespace DataRange

mutual

def render : DataRange → String
  | .datatype iri => iri.render
  | .oneOf values => "DataOneOf(" ++ separated (values.map Literal.render) ++ ")"
  | .complement range => "DataComplementOf(" ++ render range ++ ")"
  | .combined connective ranges =>
    "Data" ++ connective.keyword ++ "(" ++ separated (renderAll ranges) ++ ")"
  | .restriction base facets =>
    "DatatypeRestriction(" ++ base.render ++ " " ++ separated (facets.map Facet.render) ++ ")"

def renderAll : List DataRange → List String
  | [] => []
  | range :: ranges => render range :: renderAll ranges

end

end DataRange

namespace ClassExpression

mutual

def render : ClassExpression → String
  | .named iri => iri.render
  | .complement operand => "ObjectComplementOf(" ++ render operand ++ ")"
  | .combined connective operands =>
    "Object" ++ connective.keyword ++ "(" ++ separated (renderAll operands) ++ ")"
  | .oneOf individuals =>
    "ObjectOneOf(" ++ separated (individuals.map Individual.render) ++ ")"
  | .quantified quantifier property filler =>
    "Object" ++ quantifier.keyword ++ "(" ++ property.render ++ " " ++ render filler ++ ")"
  | .hasValue property individual =>
    "ObjectHasValue(" ++ property.render ++ " " ++ individual.render ++ ")"
  | .hasSelf property => "ObjectHasSelf(" ++ property.render ++ ")"
  | .cardinality bound count property filler =>
    "Object" ++ bound.keyword ++ "(" ++ toString count ++ " " ++ property.render ++
      spaced (renderFiller filler) ++ ")"
  | .dataQuantified quantifier property range =>
    "Data" ++ quantifier.keyword ++ "(" ++ property.render ++ " " ++ range.render ++ ")"
  | .dataHasValue property value =>
    "DataHasValue(" ++ property.render ++ " " ++ value.render ++ ")"
  | .dataCardinality bound count property range =>
    "Data" ++ bound.keyword ++ "(" ++ toString count ++ " " ++ property.render ++
      spaced (range.toList.map DataRange.render) ++ ")"

def renderAll : List ClassExpression → List String
  | [] => []
  | operand :: operands => render operand :: renderAll operands

def renderFiller : Option ClassExpression → List String
  | none => []
  | some filler => [render filler]

end

end ClassExpression

namespace Term

def render : Term → String
  | .classExpression e => e.render
  | .objectProperty p => p.render
  | .dataProperty p => p.render
  | .individual i => i.render
  | .literal l => l.render
  | .dataRange d => d.render
  | .facet f => f.render

end Term

namespace Axiom

def render (ax : Axiom) : String :=
  let operands := separated (ax.operands.map ClassExpression.render)
  match ax.definedClass? with
  | none => ax.keyword ++ "(" ++ operands ++ ")"
  | some defined => ax.keyword ++ "(" ++ defined.render ++ " " ++ operands ++ ")"

end Axiom

end OntoFold
