import OntoFold.Tree.Forest
import OntoFold.Tree.Phrase

/-!
# Encoding phrases as trees

A phrase is encoded as a tree with one node for every position of its syntax: every node
holds the phrase of its own subtree.

The children of a node, in order:

* a subsumption: the smaller class, then the larger one, each with its position;
* a disjoint union: the class it defines, with its position, then the disjuncts;
* a restriction: the bound if it has one, the property, and the filler, individual, range or
  value if there is one;
* an inverse property: the named property;
* a restricted datatype: the datatype, then the facets, each over its literal;
* a chain: its properties; other phrases with a set of operands: the operands.

The main definitions are `Phrase.branches`, `Phrase.encode` and `Phrase.size`.
-/

namespace OntoFold

/-- A forest of nodes. -/
abbrev Branches : Type := Forest Label

namespace Branches

/-- A node without position in front of other branches. -/
def node (p : Phrase) (below rest : Branches) : Branches := .cons ⟨p, none⟩ below rest

/-- Nodes without children and without position. -/
def ofLeaves (ps : List Phrase) : Branches := Forest.leaves (ps.map fun p => ⟨p, none⟩)

end Branches

open Branches (node ofLeaves)

/-! ## Terms -/

namespace ObjectProperty

def phrase (p : ObjectProperty) : Phrase := .term (.objectProperty p)

def branches : ObjectProperty → Branches
  | .named _ => .nil
  | .inverse iri => node (phrase (.named iri)) .nil .nil

/-- A property in front of other branches. -/
def plant (p : ObjectProperty) (rest : Branches) : Branches := node p.phrase p.branches rest

end ObjectProperty

namespace Facet

def branches (f : Facet) : Branches := node (.term (.literal f.value)) .nil .nil

end Facet

/-- A data property in front of other branches. -/
def Iri.plant (property : Iri) (rest : Branches) : Branches :=
  node (.term (.dataProperty property)) .nil rest

namespace DataRange

def phrase (range : DataRange) : Phrase := .term (.dataRange range)

mutual

def branches : DataRange → Branches
  | .datatype _ => .nil
  | .oneOf values => ofLeaves (values.map fun l => .term (.literal l))
  | .complement range => node (phrase range) (branches range) .nil
  | .combined _ ranges => branchesIn ranges
  | .restriction base facets =>
    node (phrase (.datatype base)) .nil
      (facets.foldr (fun f => node (.term (.facet f)) f.branches) .nil)

def branchesIn : List DataRange → Branches
  | [] => .nil
  | range :: ranges => node (phrase range) (branches range) (branchesIn ranges)

end

end DataRange

namespace ClassExpression

mutual

def branches : ClassExpression → Branches
  | .named _ => .nil
  | .complement operand => node (.ofClass operand) (branches operand) .nil
  | .combined _ operands => branchesIn operands
  | .oneOf individuals => ofLeaves (individuals.map fun i => .term (.individual i))
  | .quantified _ property filler =>
    property.plant (node (.ofClass filler) (branches filler) .nil)
  | .hasValue property individual =>
    property.plant (node (.term (.individual individual)) .nil .nil)
  | .hasSelf property => property.plant .nil
  | .cardinality _ count property filler =>
    node (.count count) .nil (property.plant (fillerBranches filler))
  | .dataQuantified _ property range =>
    property.plant (node range.phrase range.branches .nil)
  | .dataHasValue property value =>
    property.plant (node (.term (.literal value)) .nil .nil)
  | .dataCardinality _ count property range =>
    node (.count count) .nil
      (property.plant (DataRange.branchesIn range.toList))

def branchesIn : List ClassExpression → Branches
  | [] => .nil
  | operand :: operands => node (.ofClass operand) (branches operand) (branchesIn operands)

def fillerBranches : Option ClassExpression → Branches
  | none => .nil
  | some filler => node (.ofClass filler) (branches filler) .nil

end

end ClassExpression

namespace Term

def branches : Term → Branches
  | .classExpression e => e.branches
  | .objectProperty p => p.branches
  | .dataRange range => range.branches
  | .facet f => f.branches
  | _ => .nil

end Term

/-! ## Axioms and phrases -/

namespace Axiom

def branches : Axiom → Branches
  | .subClassOf sub super =>
    .cons ⟨.ofClass sub, some .subClass⟩ sub.branches
      (.cons ⟨.ofClass super, some .superClass⟩ super.branches .nil)
  | .equivalent operands => ClassExpression.branchesIn operands
  | .disjoint operands => ClassExpression.branchesIn operands
  | .disjointUnion defined disjuncts =>
    .cons ⟨.ofClass (.named defined), some .definedClass⟩ .nil
      (ClassExpression.branchesIn disjuncts)

end Axiom

namespace Phrase

def branches : Phrase → Branches
  | .statement ax => ax.branches
  | .term t => t.branches
  | .count _ => .nil
  | .chain properties => properties.foldr ObjectProperty.plant .nil

/-- The tree of a phrase, whose root fills the given position. -/
def encode (p : Phrase) (position : Option Position) : Tree Label := ⟨⟨p, position⟩, p.branches⟩

/-- The number of nodes of the tree of a phrase. -/
def size (p : Phrase) : Nat := (p.encode none).size

end Phrase

def ClassExpression.size (e : ClassExpression) : Nat := (Phrase.ofClass e).size

def Axiom.size (ax : Axiom) : Nat := (Phrase.statement ax).size

end OntoFold
