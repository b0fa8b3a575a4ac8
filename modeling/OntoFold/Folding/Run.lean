import OntoFold.Folding.Summary
import OntoFold.Glossary.Declared
import OntoFold.Glossary.Discovered
import OntoFold.Ontology.Basic

/-!
# Folding ontologies

An ontology is folded with the symbols that its own axioms declare or with symbols for the
expressions that it repeats.
-/

namespace OntoFold

/-- Declared symbols as a source. -/
def Declared.source (d : Declared) : Source where
  name := "explicit"
  glossary := d.glossary
  isDefinition := d.index.isDefinition
  covers _ := true

/-- Discovered symbols as a source; axioms with complements take no part. -/
def Discovered.source (d : Discovered) : Source where
  name := "implicit"
  glossary := d.glossary
  isDefinition _ := false
  covers ax := !ax.hasComplement

namespace Ontology

/-- Folds an ontology with the symbols of a source. -/
def fold (o : Ontology) (source : Source) (options : Options) : Run Folding := do
  let f : Folding := ⟨source, ← source.records options o.axioms.toList⟩
  .report .info (← f.summary).render
  return f

/-- Folds an ontology with the symbols it declares. -/
def foldDeclared (o : Ontology) (options : Options) : Run (Declared × Folding) := do
  let d ← Declared.ofList o.axioms.toList options
  return (d, ← o.fold d.source options)

/-- Folds an ontology with the symbols discovered in it. -/
def foldDiscovered (o : Ontology) (options : Options) : Run (Discovered × Folding) := do
  let d ← Discovered.ofList o.axioms.toList options
  return (d, ← o.fold d.source options)

end Ontology

end OntoFold
