import TemporalCheck.OrderedSet

namespace TemporalCheck

/-- Settings of one run. An ample set size of `0` sets no bound. -/
structure Directives where
  onTheFlyProgram : Bool := true
  onTheFlyProperty : Bool := true
  partialOrderReduction : Bool := false
  slicing : Bool := false
  printSearchTree : Bool := false
  ampleSetSize : Nat := 0
deriving DecidableEq

structure ProgramOptions where
  partialOrderReduction : Bool := false
  slicing : Bool := false
  ampleSetSize : Nat := 0
  visible : OrderedSet String := ∅
deriving DecidableEq

def Directives.programOptions (d : Directives) (visible : OrderedSet String) : ProgramOptions :=
  ⟨d.partialOrderReduction, d.slicing, d.ampleSetSize, visible⟩

end TemporalCheck
