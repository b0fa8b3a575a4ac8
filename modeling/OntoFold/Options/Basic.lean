/-!
# Options of a folding

Thresholds are exclusive: only expressions of a greater size or number of occurrences count.
-/

namespace OntoFold

structure Options where
  /-- What is folded in axioms is larger than this. -/
  contraction : Nat := 1
  /-- What is folded in the definitions of declared symbols is larger than this. -/
  declaredDefinition : Nat := 1
  /-- What is folded in the definitions of discovered symbols is larger than this. -/
  discoveredDefinition : Nat := 2
  /-- What is given a symbol is larger than this. -/
  symbolSize : Nat := 2
  /-- What is given a symbol occurs more often than this. -/
  symbolOccurrences : Nat := 1
  /-- What the names of discovered symbols begin with. -/
  stem : String := "http://owl.generated.macro#m_"
  deriving DecidableEq

end OntoFold
