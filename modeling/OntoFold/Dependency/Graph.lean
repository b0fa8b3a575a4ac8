import OntoFold.Journal
import OntoFold.Order.SortedMap
import OntoFold.Term.Nested

/-!
# Dependencies between candidates

A candidate is a name with some expansions. It depends directly on the candidates that its
expansions mention, and transitively on all that can be reached from it. A candidate that
reaches itself is self-dependent, and whatever reaches such a candidate is cyclic: following
its dependencies may never end.
-/

namespace OntoFold

/-- Names with their expansions. -/
abbrev Candidates : Type := SortedMap Iri (SortedSet ClassExpression)

namespace Candidates

/-- The candidates that some expansions mention, in the order in which they are met. -/
def mentioned (candidates : Candidates) (expansions : SortedSet ClassExpression) : List Iri :=
  ((expansions.toList.flatMap fun e => e.names.toList).filter (candidates.contains ·)).eraseDups

/-- The direct dependencies of a name. -/
def dependencies (candidates : Candidates) (symbol : Iri) : SortedSet Iri :=
  .ofList (((candidates.get? symbol).map candidates.mentioned).getD [])

end Candidates

structure DependencyGraph where
  candidates : Candidates
  /-- The transitive dependencies of each candidate. -/
  transitive : SortedMap Iri (SortedSet Iri)

namespace DependencyGraph

/-- Everything reached from a frontier, given what is collected already. Every round but the
last collects a new candidate, which bounds the rounds. -/
def close (direct : Iri → SortedSet Iri) : Nat → SortedSet Iri → SortedSet Iri → SortedSet Iri
  | 0, collected, _ => collected
  | fuel + 1, collected, frontier =>
    let fresh := frontier \ collected
    if fresh.isEmpty then collected
    else close direct fuel (collected ∪ fresh) (.unions (fresh.toList.map direct))

def ofCandidates (candidates : Candidates) : DependencyGraph where
  candidates := candidates
  transitive := candidates.mapValues fun symbol _ =>
    close candidates.dependencies (candidates.size + 1) ∅ (candidates.dependencies symbol)

variable (graph : DependencyGraph)

def contains (symbol : Iri) : Bool := graph.candidates.contains symbol

/-- The number of candidates. -/
def size : Nat := graph.candidates.size

/-- The candidates mentioned by the expansions of a name. -/
def direct (symbol : Iri) : SortedSet Iri := graph.candidates.dependencies symbol

/-- The candidates reached from a candidate. -/
def transitive? (symbol : Iri) : Option (SortedSet Iri) := graph.transitive.get? symbol

def dependsOn (symbol dependency : Iri) : Bool :=
  (graph.transitive? symbol).any (decide <| dependency ∈ ·)

/-- The candidates that reach themselves. -/
def selfDependent : SortedSet Iri :=
  (graph.transitive.filter fun symbol reached => symbol ∈ reached).keys

/-- The candidates that are self-dependent or reach a self-dependent one. -/
def cyclic : SortedSet Iri :=
  let selfDependent := graph.selfDependent
  (graph.transitive.filter fun symbol reached =>
    symbol ∈ selfDependent || reached.toList.any (decide <| · ∈ selfDependent)).keys

/-- The cyclic candidates, with a message that counts them. -/
def reportCyclic : Run (SortedSet Iri) := do
  let cyclic := graph.cyclic
  .report .debug (toString graph.selfDependent.size ++ " self-dependent and " ++
    toString cyclic.size ++ " cyclic candidates out of " ++ toString graph.size)
  return cyclic

end DependencyGraph

end OntoFold
