import OntoFold.Arena.Substitution
import OntoFold.Glossary.Basic
import OntoFold.Term.Nested
import OntoFold.Tree.Buckets

/-!
# Folding and unfolding

Folding replaces evaluations by their symbols, the largest expressions first, so that an
expression disappears together with what is nested inside it. Unfolding replaces symbols by
their evaluations. Both give the number of replaced positions.
-/

namespace OntoFold

namespace Arena

/-- The class expression a tree stands for. -/
def decodeClass (a : Arena) : Except Fault ClassExpression := do
  match ← a.decode with
  | .term (.classExpression e) => return e
  | _ => .error .notAClass

/-- The axiom a tree stands for. -/
def decodeAxiom (a : Arena) : Except Fault Axiom := do
  match ← a.decode with
  | .statement ax => return ax
  | _ => .error .notAnAxiom

/-- Replaces class expressions by others, one pair after another. -/
def substituteClasses : List (ClassExpression × ClassExpression) → Nat → Arena → Run (Nat × Arena)
  | [], count, a => return (count, a)
  | (target, replacement) :: rest, count, a => do
    let (n, a) ← a.substitute (.classExpression target) (.classExpression replacement)
    substituteClasses rest (count + n) a

end Arena

namespace Glossary

variable (g : Glossary)

/-- Class expressions larger than a threshold, largest first. -/
def foldOrder (es : SortedSet ClassExpression) (threshold : Nat) : List ClassExpression :=
  ((sizeBuckets es.toList).toList.reverse.takeWhile fun (size, _) => threshold < size).flatMap
    fun (_, bucket) => bucket.toList

/-- Replaces those of the given expressions that are evaluations and larger than a threshold by
their symbols. -/
def fold (a : Arena) (es : SortedSet ClassExpression) (threshold : Nat) : Run (Nat × Arena) :=
  a.substituteClasses
    ((foldOrder es threshold).filterMap fun e =>
      (g.symbolFor? e).map fun symbol => (e, .named symbol)) 0

/-- Replaces those of the given names that are symbols by their evaluations. -/
def unfold (a : Arena) (names : SortedSet Iri) : Run (Nat × Arena) :=
  a.substituteClasses
    (names.toList.filterMap fun name =>
      (g.evaluation? name).map fun evaluation => (.named name, evaluation)) 0

/-- The evaluation of an entry with the symbols nested inside it folded. -/
def foldEntry (threshold : Nat) (entry : Entry) : Run (Iri × ClassExpression) := do
  let a ← Arena.ofPhrase (.ofClass entry.evaluation) none
  let (count, a) ← g.fold a (entry.evaluation.nested.erase entry.evaluation) threshold
  .report .debug ("minimal definition of " ++ entry.symbol.render ++ " folds " ++
    toString count ++ " sub-expressions")
  return (entry.symbol, ← a.decodeClass)

/-- Folds the definitions of all entries with the symbols of the glossary. -/
def foldDefinitions (threshold : Nat) : Run Glossary := do
  let definitions ← g.toList.mapM (g.foldEntry threshold)
  return { g with folded := definitions.foldl (fun m (symbol, e) => m.insert symbol e) ∅ }

end Glossary

end OntoFold
