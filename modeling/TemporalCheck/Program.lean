import TemporalCheck.Directives
import TemporalCheck.Formula.Operators
import TemporalCheck.Formula.Printer
import TemporalCheck.Task

namespace TemporalCheck

inductive ConstructKind where
  | communication
  | perceptRule
  | nestedModule
deriving DecidableEq

structure Construct where
  kind : ConstructKind
  location : String
deriving DecidableEq

def Construct.text (c : Construct) : String :=
  let kind := match c.kind with
    | .communication => "communication primitive"
    | .perceptRule => "percept rule"
    | .nestedModule => "nested module"
  kind ++ " at " ++ c.location

/-- A program with states in `S`, together with the reading of propositions in its states.
`W` is what it remembers between calls. -/
structure Program (W S : Type) where
  configure : ProgramOptions → Task W Unit
  initial : Task W S
  successors : S → Task W (List S)
  /-- A set of successors that may stand for all of them, if there is one. -/
  ample : S → Task W (Option (List S))
  holds : S → String → Task W Bool
  constructs : W → List Construct
  dispose : Task W Unit
  /-- A state as a line of the search tree shows it. -/
  describe : S → String

namespace Program

variable {W S : Type}

def notLiteral (f : Formula) : CheckError := .evaluation ("`" ++ f.text ++ "` is not a literal")

/-- Does a literal, or a constant, hold in a state? -/
def entails (p : Program W S) (s : S) : Formula → Task W Bool
  | .prop name => p.holds s name
  | .neg (.prop name) => do
    let b ← p.holds s name
    return !b
  | .top => return true
  | .bot => return false
  | f => Task.fail (notLiteral f)

def entailsAll (p : Program W S) (s : S) : List Formula → Task W Bool
  | [] => return true
  | f :: fs => do
    let b ← p.entails s f
    if b then p.entailsAll s fs else return false

end Program

end TemporalCheck
