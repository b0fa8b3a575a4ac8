import OntoFold.Dependency.Graph
import OntoFold.Term.Render

/-!
# Dependency graphs as drawings

A dependency graph in the language of graph drawing tools: candidates are numbered in their
order, every candidate is a node labelled with its name, and every direct dependency is an
edge.
-/

namespace OntoFold

namespace DependencyGraph

/-- How a character is written inside a label. -/
def labelChar (c : Char) : List Char :=
  if c = '"' ∨ c = '\\' then ['\\', c]
  else if c = '\n' then ['\\', 'l']
  else [c]

def dotLabel (text : String) : String := String.ofList (text.toList.flatMap labelChar)

/-- The line of a candidate. -/
def dotNode (number : Nat) (symbol : Iri) : String :=
  "    " ++ toString number ++ " [ label = \"" ++ dotLabel symbol.render ++ "\" ]\n"

/-- The line of a dependency. -/
def dotEdge (source target : Nat) : String :=
  "    " ++ toString source ++ " -> " ++ toString target ++ " [ ]\n"

def toDot (graph : DependencyGraph) : String :=
  let symbols := graph.candidates.keys.toList
  let nodes := symbols.mapIdx dotNode
  let edges := graph.candidates.toList.flatMap fun (symbol, expansions) =>
    (graph.candidates.mentioned expansions).map fun target =>
      dotEdge (symbols.idxOf symbol) (symbols.idxOf target)
  "digraph \x7b\n" ++ String.join nodes ++ String.join edges ++ "\x7d\n"

end DependencyGraph

end OntoFold
