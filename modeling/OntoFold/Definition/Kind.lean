import OntoFold.Axiom.Basic

/-!
# Kinds of definitions

Equivalence axioms sorted by how many of their operands are named. An abbreviation gives one
name to complex expressions, a synonym relates names only, and a compound definition has
several operands of either sort.
-/

namespace OntoFold

inductive DefinitionKind where
  /-- One name for one complex expression. -/
  | simpleAbbreviation
  /-- Two names. -/
  | simpleSynonym
  /-- One name for several complex expressions. -/
  | ambiguousAbbreviation
  /-- More than two operands, all of them names. -/
  | enumerativeSynonym
  /-- At least two names and two complex expressions. -/
  | compoundDefinition
  deriving DecidableEq, Repr

namespace DefinitionKind

def all : List DefinitionKind :=
  [simpleAbbreviation, simpleSynonym, ambiguousAbbreviation, enumerativeSynonym,
    compoundDefinition]

def name : DefinitionKind → String
  | simpleAbbreviation => "simple abbreviation"
  | simpleSynonym => "simple synonym"
  | ambiguousAbbreviation => "ambiguous abbreviation"
  | enumerativeSynonym => "enumerative synonym"
  | compoundDefinition => "compound definition"

/-- The kind of an equivalence with the given numbers of named and of complex operands. -/
def ofCounts (named complex : Nat) : Option DefinitionKind :=
  if named = 1 ∧ complex = 1 then some simpleAbbreviation
  else if named = 2 ∧ complex = 0 then some simpleSynonym
  else if named = 1 ∧ 2 ≤ complex then some ambiguousAbbreviation
  else if 3 ≤ named ∧ complex = 0 then some enumerativeSynonym
  else if 2 ≤ named ∧ 2 ≤ complex then some compoundDefinition
  else none

/-- The kind of an axiom; only equivalences have one. -/
def of? : Axiom → Option DefinitionKind
  | .equivalent operands =>
    ofCounts (operands.countP ClassExpression.isNamed)
      (operands.countP fun e => !e.isNamed)
  | _ => none

def isAbbreviation (kind : DefinitionKind) : Bool :=
  kind = simpleAbbreviation ∨ kind = ambiguousAbbreviation

def isSynonym (kind : DefinitionKind) : Bool :=
  kind = simpleSynonym ∨ kind = enumerativeSynonym

end DefinitionKind

end OntoFold
