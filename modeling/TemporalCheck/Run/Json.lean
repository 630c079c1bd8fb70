import TemporalCheck.Formula.Json
import TemporalCheck.Run.Report

namespace TemporalCheck

open Json (Shape Variant Fields)

namespace Directives

def shape : Shape Directives :=
  Fields.shape "struct Directives"
    (((((((Fields.none mk).and (.withDefault "on_the_fly_program" true .boolean)).and
      (.withDefault "on_the_fly_property" true .boolean)).and
      (.withDefault "partial_order_reduction" false .boolean)).and
      (.withDefault "slicing" false .boolean)).and
      (.withDefault "print_search_tree" false .boolean)).and
      (.withDefault "ample_set_size" 0 .natural))

def toJson (d : Directives) : Json :=
  .obj [
    ("on_the_fly_program", .bool d.onTheFlyProgram),
    ("on_the_fly_property", .bool d.onTheFlyProperty),
    ("partial_order_reduction", .bool d.partialOrderReduction),
    ("slicing", .bool d.slicing),
    ("print_search_tree", .bool d.printSearchTree),
    ("ample_set_size", .ofNat d.ampleSetSize)]

end Directives

namespace ProgramOptions

def shape : Shape ProgramOptions :=
  Fields.shape "struct ProgramOptions"
    (((((Fields.none mk).and (.withDefault "partial_order_reduction" false .boolean)).and
      (.withDefault "slicing" false .boolean)).and
      (.withDefault "ample_set_size" 0 .natural)).and
      (.withDefault "visible" ∅ fun v => OrderedSet.ofList <$> Shape.list .text v))

def toJson (o : ProgramOptions) : Json :=
  .obj [
    ("partial_order_reduction", .bool o.partialOrderReduction),
    ("slicing", .bool o.slicing),
    ("ample_set_size", .ofNat o.ampleSetSize),
    ("visible", .strings o.visible.toList)]

end ProgramOptions

namespace CheckError

def kind : CheckError → String
  | badProperty _ => "Syntax"
  | evaluation _ => "Evaluation"
  | programStep _ => "ProgramStep"
  | badDirectives _ => "Config"
  | cancelled => "Cancelled"
  | other _ => "No"

def shape : Shape CheckError :=
  .choice [
    ("Syntax", .single badProperty .text),
    ("Evaluation", .single evaluation .text),
    ("ProgramStep", .single programStep .text),
    ("Config", .single badDirectives .text),
    ("Cancelled", .bare cancelled),
    ("No", .single other .text)]

def toJson (e : CheckError) : Json :=
  match e with
  | badProperty reason => .tagged e.kind (.str reason)
  | evaluation reason => .tagged e.kind (.str reason)
  | programStep reason => .tagged e.kind (.str reason)
  | badDirectives reason => .tagged e.kind (.str reason)
  | cancelled => .str e.kind
  | other reason => .tagged e.kind (.str reason)

def answer (e : CheckError) : Json := .obj [("error", .str e.kind), ("message", .str e.message)]

def ofShape (e : Json.ShapeError) : CheckError := badDirectives e.message

end CheckError

namespace ConstructKind

def name : ConstructKind → String
  | communication => "Communication"
  | perceptRule => "PerceptRule"
  | nestedModule => "NestedModule"

def all : List ConstructKind := [communication, perceptRule, nestedModule]

def shape : Shape ConstructKind := .choice (all.map fun k => (k.name, .bare k))

end ConstructKind

namespace Construct

def shape : Shape Construct :=
  Fields.shape "struct Construct"
    (((Fields.none mk).and (.required "kind" ConstructKind.shape)).and (.required "location" .text))

def toJson (c : Construct) : Json :=
  .obj [("kind", .str c.kind.name), ("location", .str c.location)]

end Construct

namespace Concern

def name : Concern → String
  | notEvaluated => "NotEvaluated"
  | breaksReduction => "BreaksReduction"
  | breaksSlicing => "BreaksSlicing"

def all : List Concern := [notEvaluated, breaksReduction, breaksSlicing]

def shape : Shape Concern := .choice (all.map fun c => (c.name, .bare c))

end Concern

namespace Advisory

def shape : Shape Advisory :=
  .choice [
    ("NotStutterInvariant", .bare notStutterInvariant),
    ("NotSafety", .bare notSafety),
    ("Unsupported", .fields "Advisory::Unsupported"
      (((Fields.none unsupported).and (.required "construct" Construct.shape)).and
        (.required "concern" Concern.shape)))]

def toJson : Advisory → Json
  | notStutterInvariant => .str "NotStutterInvariant"
  | notSafety => .str "NotSafety"
  | unsupported construct concern =>
    .tagged "Unsupported" (.obj [("construct", construct.toJson), ("concern", .str concern.name)])

end Advisory

variable {S : Type}

namespace ProductState

def shape (state : Shape S) : Shape (ProductState S) :=
  Fields.shape "struct ProductState"
    (((Fields.none mk).and (.required "program" state)).and
      (.required "property" PropertyState.shape))

def toJson (state : S → Json) (s : ProductState S) : Json :=
  .obj [("program", state s.program), ("property", s.property.toJson)]

def brief (state : S → Json) (s : ProductState S) : Json :=
  .arr [state s.program, .str s.property.text]

end ProductState

namespace Counterexample

def shape (state : Shape S) : Shape (Counterexample S) :=
  Fields.shape "struct Counterexample"
    (((Fields.none mk).and (.required "prefix" (.list (ProductState.shape state)))).and
      (.required "cycle" (.list (ProductState.shape state))))

def toJson (f : ProductState S → Json) (c : Counterexample S) : Json :=
  .obj [("prefix", .list f c.path), ("cycle", .list f c.cycle)]

end Counterexample

namespace Verdict

def shape (state : Shape S) : Shape (Verdict S) :=
  .choice [
    ("Pass", .bare pass),
    ("Violation", .single violation (Counterexample.shape state)),
    ("Cancelled", .bare cancelled)]

def toJson (f : ProductState S → Json) : Verdict S → Json
  | pass => .str "Pass"
  | violation c => .tagged "Violation" (c.toJson f)
  | cancelled => .str "Cancelled"

end Verdict

namespace Outcome

def shape (state : Shape S) : Shape (Outcome S) :=
  .choice [
    ("Pass", .bare pass),
    ("Violation", .single violation (Counterexample.shape state)),
    ("Error", .single error CheckError.shape),
    ("Cancelled", .bare cancelled)]

def toJson (f : ProductState S → Json) (e : CheckError → Json) : Outcome S → Json
  | pass => .str "Pass"
  | violation c => .tagged "Violation" (c.toJson f)
  | error cause => .tagged "Error" (e cause)
  | cancelled => .str "Cancelled"

end Outcome

namespace SearchStats

def shape : Shape SearchStats :=
  Fields.shape "struct ExplorationStats"
    (((((((((((Fields.none mk).and (.required "product_nodes" .natural)).and
      (.required "visited_nodes" .natural)).and (.required "program_states" .natural)).and
      (.required "property_states" .natural)).and (.required "evaluated_states" .natural)).and
      (.required "transitions" .natural)).and (.required "inner_searches" .natural)).and
      (.required "reduced_nodes" .natural)).and (.required "collisions" .natural)).and
      (.required "max_depth" .natural))

def toJson (s : SearchStats) : Json :=
  .obj [
    ("product_nodes", .ofNat s.productNodes),
    ("visited_nodes", .ofNat s.visitedNodes),
    ("program_states", .ofNat s.programStates),
    ("property_states", .ofNat s.propertyStates),
    ("evaluated_states", .ofNat s.evaluatedStates),
    ("transitions", .ofNat s.transitions),
    ("inner_searches", .ofNat s.innerSearches),
    ("reduced_nodes", .ofNat s.reducedNodes),
    ("collisions", .ofNat s.collisions),
    ("max_depth", .ofNat s.maxDepth)]

end SearchStats

def RunId.shape : Shape RunId
  | .str s => (RunId.parse s).mapError fun e => .unreadable ("UUID parsing failed: " ++ e.message)
  | v => Shape.mismatch v "a UUID string"

def Timestamp.shape : Shape Timestamp
  | .str s => (Timestamp.parse s).mapError fun e => .unreadable e.message
  | v => Shape.mismatch v "an RFC 3339 formatted date and time string"

namespace Report

def shape (state : Shape S) : Shape (Report S) :=
  let build id property outcome advisories stats started finished : Report S :=
    ⟨id, ⟨property, outcome, advisories, stats⟩, started, finished⟩
  Fields.shape "struct RunReport"
    ((((((((Fields.none build).and (.required "run_id" RunId.shape)).and
      (.required "property" .text)).and (.required "outcome" (Outcome.shape state))).and
      (.required "advisories" (.list Advisory.shape))).and
      (.required "stats" SearchStats.shape)).and (.required "started" Timestamp.shape)).and
      (.required "finished" Timestamp.shape))

def toJson (state : S → Json) (r : Report S) : Json :=
  .obj [
    ("run_id", .str r.runId.text),
    ("property", .str r.summary.property),
    ("outcome", r.summary.outcome.toJson (ProductState.toJson state) CheckError.toJson),
    ("advisories", .list Advisory.toJson r.summary.advisories),
    ("stats", r.summary.stats.toJson),
    ("started", .str r.started.text),
    ("finished", .str r.finished.text)]

end Report

end TemporalCheck
