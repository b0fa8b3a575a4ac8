import OntoFold.Fault
import OntoFold.Order.SortedMap
import OntoFold.Term.Canonical

/-!
# Glossaries

A glossary gives symbols to class expressions. The *expansion* of a symbol is what its
definition says, its *evaluation* is the expansion with the other symbols unfolded, and its
*definition* is the form that is published: the evaluation with the symbols nested inside it
folded again.
-/

namespace OntoFold

/-- A symbol with what it stands for. -/
structure Entry where
  symbol : Iri
  expansion : ClassExpression
  evaluation : ClassExpression

structure Glossary where
  entries : SortedMap Iri Entry := ∅
  /-- The published definitions, once they have been folded. -/
  folded : SortedMap Iri ClassExpression := ∅

/-- The equivalence of a symbol with a class expression. -/
def Axiom.define (symbol : Iri) (e : ClassExpression) : Axiom := .equate [.named symbol, e]

namespace Glossary

instance : EmptyCollection Glossary := ⟨{}⟩

variable (g : Glossary)

/-- Adds an entry for a new symbol. -/
def insert (entry : Entry) : Except Fault Glossary :=
  if g.entries.contains entry.symbol then .error .duplicateSymbol
  else .ok { g with entries := g.entries.insert entry.symbol entry }

def get? (symbol : Iri) : Option Entry := g.entries.get? symbol

def contains (symbol : Iri) : Bool := g.entries.contains symbol

def evaluation? (symbol : Iri) : Option ClassExpression := (g.get? symbol).map Entry.evaluation

/-- The entries, in the order of their symbols. -/
def toList : List Entry := g.entries.values

/-- The number of entries. -/
def size : Nat := g.entries.size

def isEmpty : Bool := g.entries.isEmpty

/-- The smallest symbol that evaluates to an expression. -/
def symbolFor? (e : ClassExpression) : Option Iri :=
  (g.toList.find? fun entry => entry.evaluation = e).map Entry.symbol

/-- The published definition of a symbol; its evaluation as long as nothing has been folded. -/
def definition? (symbol : Iri) : Option ClassExpression :=
  (g.folded.get? symbol).or (g.evaluation? symbol)

/-! ## Entries as axioms -/

def evaluationAxioms : List Axiom :=
  g.toList.map fun entry => .define entry.symbol entry.evaluation

def expansionAxioms : List Axiom :=
  g.toList.map fun entry => .define entry.symbol entry.expansion

def definitionAxioms : List Axiom :=
  g.toList.filterMap fun entry => (g.definition? entry.symbol).map (.define entry.symbol)

end Glossary

/-! ## Fresh symbols -/

/-- A supply of numbered symbols: a stem followed by 1, 2, and so on. -/
structure SymbolSupply where
  stem : String
  /-- How many symbols have been taken. -/
  issued : Nat := 0

/-- The next symbol, and the supply without it. -/
def SymbolSupply.fresh (supply : SymbolSupply) : Iri × SymbolSupply :=
  (⟨supply.stem ++ toString (supply.issued + 1)⟩, { supply with issued := supply.issued + 1 })

end OntoFold
