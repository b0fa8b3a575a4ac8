import OntoFold.Folding.Record

/-!
# Foldings and their summaries

A folding keeps the records of all axioms together with the source of its symbols; a summary
counts them.
-/

namespace OntoFold

structure Folding where
  source : Source
  records : List Record

structure Summary where
  source : String
  axioms : Nat
  changedAxioms : Nat
  initialSize : Nat
  expandedSize : Nat
  minimizedSize : Nat
  symbols : Nat
  /-- The total size of the published definitions. -/
  definitionSize : Nat

/-- The summary in lines of text. -/
def Summary.render (s : Summary) : String :=
  s.source ++ " macrofication of " ++ toString s.axioms ++ " axioms\n" ++
  "  changed axioms:  " ++ toString s.changedAxioms ++ "\n" ++
  "  macros:          " ++ toString s.symbols ++ "\n" ++
  "  original size:   " ++ toString s.initialSize ++ "\n" ++
  "  expanded size:   " ++ toString s.expandedSize ++ "\n" ++
  "  minimized size:  " ++ toString s.minimizedSize ++ "\n" ++
  "  definition size: " ++ toString s.definitionSize

namespace Folding

variable (f : Folding)

def definitionAxioms : List Axiom := f.source.glossary.definitionAxioms

/-- The sum of a measure over all records. -/
def total (measure : Record → Nat) : Nat := f.records.foldr (fun r total => measure r + total) 0

def summary : Except Fault Summary := do
  let changed ← f.records.mapM Record.isChanged
  return {
    source := f.source.name
    axioms := f.records.length
    changedAxioms := changed.count true
    initialSize := f.total fun r => r.initial.size
    expandedSize := f.total fun r => r.expanded.size
    minimizedSize := f.total fun r => r.minimized.size
    symbols := f.source.glossary.size
    definitionSize := f.definitionAxioms.foldr (fun ax total => ax.size + total) 0 }

/-- The axioms after unfolding. -/
def expandedAxioms : Except Fault (SortedSet Axiom) :=
  return .ofList (← f.records.mapM fun r => r.expanded.decodeAxiom)

/-- The axioms after folding. -/
def minimizedAxioms : Except Fault (SortedSet Axiom) :=
  return .ofList (← f.records.mapM fun r => r.minimized.decodeAxiom)

end Folding

end OntoFold
