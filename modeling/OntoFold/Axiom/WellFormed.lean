import OntoFold.Term.Nested
import OntoFold.Term.Render

/-!
# Well-formed axioms

Connectives, equivalences, disjointness statements and disjoint unions need two operands,
and enumerations need a member. A check reports the first flaw met from the outside
inwards.

* `Axiom.flaw?`: the first flaw of an axiom.
* `Axiom.WellFormed`: an axiom without a flaw.
-/

namespace OntoFold

/-- What can be wrong with an axiom. -/
inductive Flaw where
  | fewClasses (e : ClassExpression)
  | noIndividuals
  | fewRanges (range : DataRange)
  | noLiterals
  | fewOperands (keyword : String) (found : Nat)
  | fewDisjuncts (defined : Iri) (found : Nat)

namespace Flaw

def message : Flaw → String
  | .fewClasses e => "`" ++ e.render ++ "` needs at least two operands"
  | .noIndividuals => "empty individual enumeration"
  | .fewRanges range => "`" ++ range.render ++ "` needs at least two operands"
  | .noLiterals => "empty literal enumeration"
  | .fewOperands keyword found =>
    keyword ++ " needs at least two distinct operands, found " ++ toString found
  | .fewDisjuncts defined found =>
    "disjoint union of " ++ defined.render ++ " needs at least two disjuncts, found " ++
      toString found

end Flaw

/-- The given flaw, unless a condition holds. -/
def Flaw.unless (ok : Bool) (flaw : Flaw) : Option Flaw := if ok then none else some flaw

namespace DataRange

mutual

def flaw? : DataRange → Option Flaw
  | .oneOf values => Flaw.unless (!values.isEmpty) .noLiterals
  | .complement range => flaw? range
  | .combined connective ranges =>
    (Flaw.unless (2 ≤ ranges.length) (.fewRanges (.combined connective ranges))).or
      (firstFlaw? ranges)
  | _ => none

def firstFlaw? : List DataRange → Option Flaw
  | [] => none
  | range :: ranges => (flaw? range).or (firstFlaw? ranges)

end

end DataRange

namespace ClassExpression

mutual

def flaw? : ClassExpression → Option Flaw
  | .complement operand => flaw? operand
  | .combined connective operands =>
    (Flaw.unless (2 ≤ operands.length) (.fewClasses (.combined connective operands))).or
      (firstFlaw? operands)
  | .oneOf individuals => Flaw.unless (!individuals.isEmpty) .noIndividuals
  | .quantified _ _ filler => flaw? filler
  | .cardinality _ _ _ filler => fillerFlaw? filler
  | .dataQuantified _ _ range => range.flaw?
  | .dataCardinality _ _ _ range => range.bind DataRange.flaw?
  | _ => none

def firstFlaw? : List ClassExpression → Option Flaw
  | [] => none
  | operand :: operands => (flaw? operand).or (firstFlaw? operands)

def fillerFlaw? : Option ClassExpression → Option Flaw
  | none => none
  | some filler => flaw? filler

end

end ClassExpression

namespace Axiom

/-- The flaw of the top level. -/
def topFlaw? : Axiom → Option Flaw
  | .subClassOf .. => none
  | .equivalent operands =>
    Flaw.unless (2 ≤ operands.length) (.fewOperands (keyword (.equivalent operands)) operands.length)
  | .disjoint operands =>
    Flaw.unless (2 ≤ operands.length) (.fewOperands (keyword (.disjoint operands)) operands.length)
  | .disjointUnion defined disjuncts =>
    Flaw.unless (2 ≤ disjuncts.length) (.fewDisjuncts defined disjuncts.length)

def flaw? (ax : Axiom) : Option Flaw := ax.topFlaw?.or (ClassExpression.firstFlaw? ax.operands)

def WellFormed (ax : Axiom) : Prop := ax.flaw? = none

instance (ax : Axiom) : Decidable ax.WellFormed :=
  decidable_of_iff (ax.flaw?.isNone = true) Option.isNone_iff_eq_none

end Axiom

end OntoFold
