import OntoFold.Definition.Kind
import OntoFold.Order.SortedMap

/-!
# The definitions of a list of axioms

An index of the names that equivalence axioms abbreviate or rename: what each name
abbreviates, the axioms that say so, and the synonyms of each name.
-/

namespace OntoFold

structure DefinitionIndex where
  /-- The complex expressions each name abbreviates. -/
  abbreviations : SortedMap Iri (SortedSet ClassExpression) := ∅
  /-- The abbreviation axioms of each name. -/
  definitions : SortedMap Iri (SortedSet Axiom) := ∅
  /-- The names declared equivalent to each name. -/
  synonyms : SortedMap Iri (SortedSet Iri) := ∅
  /-- The axioms that have a kind. -/
  kinds : SortedMap Axiom DefinitionKind := ∅

namespace DefinitionIndex

/-- Indexes an abbreviation axiom of a name. -/
def addAbbreviation (index : DefinitionIndex) (ax : Axiom) (symbol : Iri) : DefinitionIndex :=
  { index with
    abbreviations := index.abbreviations.extend symbol (ax.operands.filter fun e => !e.isNamed)
    definitions := index.definitions.extend symbol [ax] }

/-- Indexes names as synonyms of each other. -/
def addSynonyms (index : DefinitionIndex) (names : List Iri) : DefinitionIndex :=
  { index with
    synonyms := names.foldl (fun m name => m.extend name (names.filter (· ≠ name)))
      index.synonyms }

/-- Indexes an axiom. -/
def add (index : DefinitionIndex) (ax : Axiom) : DefinitionIndex :=
  match DefinitionKind.of? ax with
  | none => index
  | some kind =>
    let index := { index with kinds := index.kinds.insert ax kind }
    let names := ax.operands.filterMap ClassExpression.name?
    if kind.isAbbreviation then
      (names.head?.map (index.addAbbreviation ax)).getD index
    else if kind.isSynonym then
      index.addSynonyms names
    else
      index

def ofList (axioms : List Axiom) : DefinitionIndex := axioms.foldl add {}

/-- Whether an axiom abbreviates some name. -/
def isDefinition (index : DefinitionIndex) (ax : Axiom) : Bool :=
  (index.kinds.get? ax).any DefinitionKind.isAbbreviation

/-- The number of axioms of a kind. -/
def count (index : DefinitionIndex) (kind : DefinitionKind) : Nat :=
  index.kinds.values.countP (· = kind)

end DefinitionIndex

end OntoFold
