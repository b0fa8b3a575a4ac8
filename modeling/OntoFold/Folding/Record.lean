import OntoFold.Axiom.WellFormed
import OntoFold.Glossary.Fold
import OntoFold.Options.Basic

/-!
# Folding single axioms

An axiom is first unfolded and then folded again, as far as it stays well formed. The axioms
that define a symbol are replaced by its published definition instead.

The main definition is `Source.record`.
-/

namespace OntoFold

/-- Where the symbols of a folding come from. -/
structure Source where
  name : String
  glossary : Glossary
  /-- The axioms the symbols were read from, which are never unfolded. -/
  isDefinition : Axiom → Bool
  /-- The axioms that take part in a folding. -/
  covers : Axiom → Bool

/-- The trees of an axiom before unfolding, in between, and after folding. -/
structure Record where
  initial : Arena
  expanded : Arena
  minimized : Arena

/-- Whether folding changed the axiom. -/
def Record.isChanged (r : Record) : Except Fault Bool :=
  return decide ((← r.minimized.decodeAxiom) ≠ (← r.initial.decodeAxiom))

namespace Source

variable (source : Source)

/-- The tree of an axiom with all symbols unfolded. Definitions are left alone, and so is an
axiom that would become ill-formed. -/
def expand (ax : Axiom) : Run Arena := do
  let initial ← Arena.ofPhrase (.statement ax) none
  if source.isDefinition ax then
    return initial
  let (count, a) ← source.glossary.unfold initial ax.names
  if count = 0 then
    return a
  match (← a.decodeAxiom).flaw? with
  | some flaw =>
    .report .debug ("keeping " ++ ax.render ++ " unexpanded: " ++ flaw.message)
    return initial
  | none =>
    .report .debug ("unfolded " ++ toString count ++ " macro symbols in " ++ ax.render)
    return a

/-- An unfolded tree with all evaluations above a threshold folded, unless the axiom would
become ill-formed. -/
def contract (threshold : Nat) (expanded : Arena) : Run Arena := do
  let ax ← expanded.decodeAxiom
  let (_, a) ← source.glossary.fold expanded ax.nested threshold
  match (← a.decodeAxiom).flaw? with
  | some flaw =>
    .report .debug ("keeping " ++ ax.render ++ " uncontracted: " ++ flaw.message)
    return expanded
  | none => return a

/-- The published definition of the symbol that an axiom defines. -/
def definitionFor? (ax : Axiom) : Option Axiom :=
  match ax with
  | .equivalent operands =>
    if source.isDefinition ax then do
      let symbol ← (operands.filterMap ClassExpression.name?).find? source.glossary.contains
      let definition ← source.glossary.definition? symbol
      return .define symbol definition
    else none
  | _ => none

/-- Unfolds and folds an axiom. -/
def record (options : Options) (ax : Axiom) : Run Record := do
  let initial ← Arena.ofPhrase (.statement ax) none
  let expanded ← source.expand ax
  let minimized ← match source.definitionFor? ax with
    | some definition => liftM (Arena.ofPhrase (.statement definition) none)
    | none => source.contract options.contraction expanded
  let r : Record := ⟨initial, expanded, minimized⟩
  if ← r.isChanged then
    .report .debug (ax.render ++ " -> " ++ (← minimized.decodeAxiom).render ++ " (size " ++
      toString initial.size ++ " -> " ++ toString minimized.size ++ ")")
  return r

/-- Unfolds and folds the axioms of a list that take part. -/
def records (options : Options) (axioms : List Axiom) : Run (List Record) :=
  (axioms.filter source.covers).mapM (source.record options)

end Source

end OntoFold
