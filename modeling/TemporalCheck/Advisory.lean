import TemporalCheck.Formula.Normal
import TemporalCheck.Program

namespace TemporalCheck

inductive Concern where
  | notEvaluated
  | breaksReduction
  | breaksSlicing
deriving DecidableEq

inductive Advisory where
  | notStutterInvariant
  | notSafety
  | unsupported (construct : Construct) (concern : Concern)
deriving DecidableEq

namespace Advisory

def text : Advisory → String
  | notStutterInvariant =>
    "the property uses X and is not stutter invariant, partial order reduction may hide violations"
  | notSafety => "the property is not a safety property, slicing may hide violations"
  | unsupported construct concern =>
    construct.text ++ match concern with
      | .notEvaluated => " is not modelled by the evaluator"
      | .breaksReduction => " is not supported by partial order reduction"
      | .breaksSlicing => " is not supported by slicing"

def concerns (d : Directives) : ConstructKind → List Concern
  | .communication => .notEvaluated :: (if d.partialOrderReduction then [.breaksReduction] else [])
  | .perceptRule => [.notEvaluated]
  | .nestedModule =>
    (if d.partialOrderReduction then [.breaksReduction] else []) ++
      (if d.slicing then [.breaksSlicing] else [])

/-- The advice for checking a property on a program with the given constructs. -/
def precheck (property : Formula) (d : Directives) (constructs : List Construct) : List Advisory :=
  (if d.partialOrderReduction && !property.isStutterInvariant then [notStutterInvariant] else []) ++
  (if d.slicing && !property.isSyntacticSafety then [notSafety] else []) ++
  constructs.flatMap fun c => (concerns d c.kind).map (unsupported c)

end Advisory

end TemporalCheck
