import TemporalCheck.Advisory
import TemporalCheck.Binary64
import TemporalCheck.Binary64.Shortest
import TemporalCheck.CheckError
import TemporalCheck.Digest
import TemporalCheck.Directives
import TemporalCheck.Formula.Basic
import TemporalCheck.Formula.Hash
import TemporalCheck.Formula.Json
import TemporalCheck.Formula.Normal
import TemporalCheck.Formula.Operators
import TemporalCheck.Formula.Parser
import TemporalCheck.Formula.Printer
import TemporalCheck.Formula.Semantics
import TemporalCheck.Grammar.Parser
import TemporalCheck.Grammar.Precedence
import TemporalCheck.Graph
import TemporalCheck.Json.Basic
import TemporalCheck.Json.Numeral
import TemporalCheck.Json.Quoted
import TemporalCheck.Json.Reader
import TemporalCheck.Json.Shape
import TemporalCheck.Model.Action
import TemporalCheck.Model.Basic
import TemporalCheck.Model.Json
import TemporalCheck.Model.Parser
import TemporalCheck.Model.Predicate
import TemporalCheck.Model.Transition
import TemporalCheck.Model.Value
import TemporalCheck.OrderedSet
import TemporalCheck.Product.Run
import TemporalCheck.Product.Search
import TemporalCheck.Product.Verdict
import TemporalCheck.Program
import TemporalCheck.Program.Faulty
import TemporalCheck.Proofs.AmpleSets
import TemporalCheck.Proofs.Canonical
import TemporalCheck.Proofs.Commutation
import TemporalCheck.Proofs.Cone
import TemporalCheck.Proofs.Consultation
import TemporalCheck.Proofs.Counterexample
import TemporalCheck.Proofs.Cover
import TemporalCheck.Proofs.CycleProviso
import TemporalCheck.Proofs.FiniteAutomaton
import TemporalCheck.Proofs.Firing
import TemporalCheck.Proofs.FormulaText
import TemporalCheck.Proofs.Frame
import TemporalCheck.Proofs.Grammar
import TemporalCheck.Proofs.Independence
import TemporalCheck.Proofs.InnerSearch
import TemporalCheck.Proofs.LastingAnswers
import TemporalCheck.Proofs.LeastCone
import TemporalCheck.Proofs.Lookup3
import TemporalCheck.Proofs.Memo
import TemporalCheck.Proofs.ModelStep
import TemporalCheck.Proofs.Negation
import TemporalCheck.Proofs.NestedSearch
import TemporalCheck.Proofs.NormalForm
import TemporalCheck.Proofs.OperatorTable
import TemporalCheck.Proofs.PassVerdict
import TemporalCheck.Proofs.Phases
import TemporalCheck.Proofs.PredicateText
import TemporalCheck.Proofs.Preparation
import TemporalCheck.Proofs.Product
import TemporalCheck.Proofs.ProductPaths
import TemporalCheck.Proofs.PropertyAutomaton
import TemporalCheck.Proofs.PropertyRun
import TemporalCheck.Proofs.RecordedGraph
import TemporalCheck.Proofs.ReducedCycles
import TemporalCheck.Proofs.ReducedSearch
import TemporalCheck.Proofs.Reduction
import TemporalCheck.Proofs.Release
import TemporalCheck.Proofs.Renumbering
import TemporalCheck.Proofs.Replay
import TemporalCheck.Proofs.Reuse
import TemporalCheck.Proofs.Safety
import TemporalCheck.Proofs.SearchPath
import TemporalCheck.Proofs.SearchRun
import TemporalCheck.Proofs.SearchSteps
import TemporalCheck.Proofs.SearchTotality
import TemporalCheck.Proofs.Sequence
import TemporalCheck.Proofs.SingleRun
import TemporalCheck.Proofs.SlicedSteps
import TemporalCheck.Proofs.Slicing
import TemporalCheck.Proofs.StateSpace
import TemporalCheck.Proofs.StateTable
import TemporalCheck.Proofs.Stutter
import TemporalCheck.Proofs.StutterEquivalence
import TemporalCheck.Proofs.SuccessorOrder
import TemporalCheck.Proofs.TableHistory
import TemporalCheck.Proofs.Task
import TemporalCheck.Proofs.Termination
import TemporalCheck.Proofs.Totality
import TemporalCheck.Proofs.Visibility
import TemporalCheck.Proofs.WellFormedStates
import TemporalCheck.Proofs.WorkerProtocol
import TemporalCheck.Property.Automaton
import TemporalCheck.Property.Cover
import TemporalCheck.Property.State
import TemporalCheck.Run.Json
import TemporalCheck.Run.Report
import TemporalCheck.Run.Session
import TemporalCheck.Run.Stamp
import TemporalCheck.Run.Verification
import TemporalCheck.StateSpace
import TemporalCheck.StateTable
import TemporalCheck.Sweep
import TemporalCheck.Task
import TemporalCheck.Text
