import TemporalCheck.Property.State

namespace TemporalCheck

structure ProductState (S : Type) where
  program : S
  property : PropertyState
deriving DecidableEq

/-- A path from the start and a cycle from its end back to one of its states. -/
structure Counterexample (S : Type) where
  path : List (ProductState S)
  cycle : List (ProductState S)
deriving DecidableEq

inductive Verdict (S : Type) where
  | pass
  | violation (c : Counterexample S)
  | cancelled
deriving DecidableEq

structure SearchStats where
  productNodes : Nat := 0
  visitedNodes : Nat := 0
  programStates : Nat := 0
  propertyStates : Nat := 0
  evaluatedStates : Nat := 0
  transitions : Nat := 0
  innerSearches : Nat := 0
  reducedNodes : Nat := 0
  collisions : Nat := 0
  maxDepth : Nat := 0
deriving DecidableEq

end TemporalCheck
