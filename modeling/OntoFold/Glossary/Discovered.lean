import OntoFold.Glossary.Fold
import OntoFold.Ontology.Census
import OntoFold.Options.Basic

/-!
# Glossaries discovered in a corpus

Repeated class expressions get symbols of their own: those that are large enough, occur often
enough and are not dominated. Axioms with complements are left out of the corpus. Symbols are
given from the lower levels upwards.
-/

namespace OntoFold

structure Discovered where
  /-- The axioms that were searched. -/
  corpus : SortedSet Axiom
  /-- The axioms left out for their complements. -/
  excluded : SortedSet Axiom
  census : Census
  glossary : Glossary

/-- Whether an expression deserves a symbol. -/
def Census.isCandidate (census : Census) (options : Options) (e : ClassExpression) : Bool :=
  options.symbolSize < e.size && options.symbolOccurrences < census.occurrences e &&
    (census.dominating? e).isNone

namespace Discovered

/-- Gives symbols to some expressions. -/
def assign (census : Census) (supply : SymbolSupply) (es : List ClassExpression) : Run Glossary := do
  let (g, _) ← es.foldlM
    (fun ((g, supply) : Glossary × SymbolSupply) e => do
      let (symbol, supply) := supply.fresh
      .report .debug (symbol.render ++ " stands for " ++ e.render ++ " (" ++
        toString (census.occurrences e) ++ " occurrences, size " ++ toString e.size ++ ")")
      return (← g.insert ⟨symbol, e, e⟩, supply)) (∅, supply)
  return g

/-- The glossary of the repeated expressions of some axioms, with symbols from a supply. -/
def search (axioms : List Axiom) (options : Options) (supply : SymbolSupply) : Run Discovered := do
  let corpus := SortedSet.ofList (axioms.filter fun ax => !ax.hasComplement)
  let excluded := SortedSet.ofList (axioms.filter Axiom.hasComplement)
  let census := Census.ofList corpus.toList
  let glossary ← assign census supply (census.bottomUp.filter (census.isCandidate options))
  let glossary ← glossary.foldDefinitions options.discoveredDefinition
  .report .info ("discovered " ++ toString glossary.size ++ " macros among " ++
    toString census.size ++ " expressions of " ++ toString corpus.size ++ " axioms (" ++
    toString excluded.size ++ " with complements skipped)")
  return ⟨corpus, excluded, census, glossary⟩

def ofList (axioms : List Axiom) (options : Options) : Run Discovered :=
  search axioms options ⟨options.stem, 0⟩

end Discovered

end OntoFold
