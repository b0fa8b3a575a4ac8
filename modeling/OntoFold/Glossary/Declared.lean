import OntoFold.Definition.Index
import OntoFold.Dependency.Graph
import OntoFold.Glossary.Fold
import OntoFold.Options.Basic

/-!
# Glossaries declared by an ontology

The names that axioms abbreviate are candidates. A candidate becomes a symbol when it has one
expansion only and following its dependencies comes to an end. Its evaluation unfolds the
symbols its expansion mentions, level by level, until none is left.
-/

namespace OntoFold

structure Declared where
  index : DefinitionIndex
  dependencies : DependencyGraph
  /-- The candidates with several expansions. -/
  ambiguous : SortedSet Iri
  /-- The candidates in, or depending on, a circle of definitions. -/
  cyclic : SortedSet Iri
  glossary : Glossary

namespace Declared

/-- Unfolds, in an arena, the names of a frontier, then the names these depend on, and so on.
The levels are limited by the fuel. -/
def unfoldLevels (expansions : SortedMap Iri ClassExpression) (graph : DependencyGraph) :
    Nat → SortedSet Iri → Arena → Run Arena
  | fuel, frontier, a =>
    if frontier.isEmpty then
      return a
    else
      match fuel with
      | 0 => liftM (Except.error (ε := Fault) Fault.unboundedUnfolding)
      | fuel + 1 => do
        let pairs := frontier.toList.filterMap fun name =>
          (expansions.get? name).map fun expansion => (.named name, expansion)
        let (_, a) ← a.substituteClasses pairs 0
        unfoldLevels expansions graph fuel (.unions (frontier.toList.map graph.direct)) a

/-- What an expansion stands for. There are no more levels than candidates, since what is below
a symbol has no circles. -/
def evaluate (expansions : SortedMap Iri ClassExpression) (graph : DependencyGraph)
    (symbol : Iri) (expansion : ClassExpression) : Run ClassExpression := do
  let a ← Arena.ofPhrase (.ofClass expansion) none
  let a ← unfoldLevels expansions graph graph.size (graph.direct symbol) a
  a.decodeClass

/-- The only expansions of the candidates that become symbols. -/
def validExpansions (index : DefinitionIndex) (ambiguous cyclic : SortedSet Iri) :
    SortedMap Iri ClassExpression :=
  (index.abbreviations.filter fun symbol _ => symbol ∉ ambiguous && symbol ∉ cyclic).toList.foldl
    (fun m (symbol, expansions) =>
      match expansions.toList.head? with
      | some expansion => m.insert symbol expansion
      | none => m) ∅

def ofList (axioms : List Axiom) (options : Options) : Run Declared := do
  let index := DefinitionIndex.ofList axioms
  let graph := DependencyGraph.ofCandidates index.abbreviations
  let ambiguous := (index.abbreviations.filter fun _ expansions => 1 < expansions.size).keys
  let cyclic ← graph.reportCyclic
  let expansions := validExpansions index ambiguous cyclic
  let glossary ← expansions.toList.foldlM
    (fun (g : Glossary) (symbol, expansion) => do
      let evaluation ← evaluate expansions graph symbol expansion
      .report .debug ("macro " ++ symbol.render ++ " evaluates to " ++ evaluation.render)
      g.insert ⟨symbol, expansion, evaluation⟩) ∅
  let glossary ← glossary.foldDefinitions options.declaredDefinition
  .report .info (toString index.abbreviations.size ++ " abbreviated classes: " ++
    toString ambiguous.size ++ " ambiguous, " ++ toString cyclic.size ++ " cyclic, " ++
    toString glossary.size ++ " macros")
  return ⟨index, graph, ambiguous, cyclic, glossary⟩

variable (d : Declared)

/-- The abbreviation axioms of the candidates that are neither ambiguous nor cyclic. -/
def validDefinitions : SortedSet Axiom :=
  .unions (d.index.definitions.filter fun symbol _ =>
    symbol ∉ d.ambiguous && symbol ∉ d.cyclic).values

end Declared

end OntoFold
