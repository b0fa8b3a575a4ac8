import OntoFold.Axiom.WellFormed
import OntoFold.Journal
import OntoFold.Tree.Encoding

/-!
# Ontologies

Finite sets of well-formed axioms. An axiom with a flaw is refused on entry, so nothing that
works on an ontology has to check its axioms again.
-/

namespace OntoFold

structure Ontology where
  axioms : SortedSet Axiom
  wellFormed : ∀ ax ∈ axioms, ax.WellFormed

namespace Ontology

def empty : Ontology := ⟨∅, fun _ h => absurd h SortedSet.not_mem_empty⟩

instance : EmptyCollection Ontology := ⟨empty⟩

instance : DecidableEq Ontology := fun o p =>
  decidable_of_iff (o.axioms = p.axioms)
    ⟨fun h => by cases o; cases p; cases h; rfl, fun h => h ▸ rfl⟩

/-- Adds an axiom, and tells whether it is new. -/
def insert (o : Ontology) (ax : Axiom) : Except Flaw (Bool × Ontology) :=
  match h : ax.flaw? with
  | some flaw => .error flaw
  | none => .ok (decide (ax ∉ o.axioms), ⟨o.axioms.insert ax, by
      intro ax' hMem
      rcases SortedSet.mem_insert.1 hMem with rfl | hMem
      · exact h
      · exact o.wellFormed ax' hMem⟩)

/-- The well-formed axioms of a list; the others are reported and dropped. -/
def ofList (axioms : List Axiom) : Run Ontology :=
  axioms.foldlM (fun o ax =>
    match o.insert ax with
    | .ok (_, o) => pure o
    | .error flaw => do
      .report .warn ("discarding axiom: " ++ flaw.message)
      return o) ∅

variable (o : Ontology)

/-- The names of the classes of all axioms. -/
def names : SortedSet Iri := .unions (o.axioms.toList.map Axiom.names)

/-- The axioms without complements. -/
def withoutComplements : SortedSet Axiom := o.axioms.filter fun ax => !ax.hasComplement

/-- The number of axioms with complements. -/
def complementCount : Nat := o.axioms.toList.countP Axiom.hasComplement

/-- The number of nodes of the trees of all axioms. -/
def size : Nat := o.axioms.toList.foldr (fun ax total => ax.size + total) 0

end Ontology

end OntoFold
