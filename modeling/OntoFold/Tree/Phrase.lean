import OntoFold.Term.Canonical

/-!
# Phrases and labels

A phrase is what a node of a syntax tree stands for: an axiom, a term, the bound of a
cardinality restriction, or a chain of properties. The label of a node is its phrase together
with the position it fills where the phrase alone does not tell.
-/

namespace OntoFold

inductive Phrase where
  | statement (ax : Axiom)
  | term (term : Term)
  | count (n : Nat)
  | chain (properties : List ObjectProperty)

/-- Positions that the value of a node does not determine. -/
inductive Position where
  | subClass
  | superClass
  /-- The class a disjoint union defines. -/
  | definedClass
  deriving DecidableEq, Repr

/-- What a node of a syntax tree holds. -/
structure Label where
  phrase : Phrase
  position : Option Position := none

namespace Phrase

/-- The phrase of a class expression. -/
abbrev ofClass (e : ClassExpression) : Phrase := .term (.classExpression e)

def term? : Phrase → Option Term
  | .term t => some t
  | _ => none

def class? (p : Phrase) : Option ClassExpression := p.term?.bind Term.classExpression?

def statement? : Phrase → Option Axiom
  | .statement ax => some ax
  | _ => none

def key : Phrase → List Token
  | .statement ax => .number 0 :: orderKey ax
  | .term t => .number 1 :: orderKey t
  | .count n => .number 2 :: orderKey n
  | .chain properties => .number 3 :: orderKey properties

instance : Keyed Phrase where
  orderKey := key
  orderKey_append {a b r s} h := by
    cases a <;> cases b <;> simp_all [key, Keyed.orderKey_append_iff]

abbrev Canonical : Phrase → Prop
  | .statement ax => ax.Canonical
  | .term t => t.Canonical
  | _ => True

end Phrase

instance : Keyed Position where
  orderKey
    | .subClass => [.number 0]
    | .superClass => [.number 1]
    | .definedClass => [.number 2]
  orderKey_append {a b r s} h := by
    cases a <;> cases b <;> simp_all

instance : Keyed Label where
  orderKey label := orderKey label.position ++ orderKey label.phrase
  orderKey_append {a b r s} h := by
    cases a; cases b; simp_all [Keyed.orderKey_append_iff]

end OntoFold
