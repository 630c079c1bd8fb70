import TemporalCheck.Json.Shape
import TemporalCheck.Model.Basic

namespace TemporalCheck

open Json (Shape Variant Fields)

namespace Value

def shape : Shape Value :=
  .choice [("Bool", .single bool .boolean), ("Int", .single int .signed32)]

def toJson : Value → Json
  | bool b => .tagged "Bool" (.bool b)
  | int n => .tagged "Int" (.int n.toInt)

end Value

namespace ModelState

def shape : Shape ModelState := .list Value.shape

def toJson (s : ModelState) : Json := .list Value.toJson s

end ModelState

namespace Term

def shape : Shape Term :=
  .choice [
    ("Value", .single value Value.shape),
    ("Var", .payload "tuple variant" fun v =>
      (fun p => var p.1 p.2) <$>
        Shape.pair "tuple variant PredicateValue::Var" .text (.orNull .natural) v)]

def toJson : Term → Json
  | value v => .tagged "Value" v.toJson
  | var name index => .tagged "Var" (.arr [.str name, .option .ofNat index])

end Term

namespace Predicate

def shapeStep (self : Shape Predicate) : Shape Predicate :=
  .choice [
    ("AND", .single conj (.list self)),
    ("OR", .single disj (.list self)),
    ("NOT", .single neg self),
    ("TRUE", .bare top),
    ("FALSE", .bare bot),
    ("EQ", .double "Predicate::EQ" eq Term.shape),
    ("NEQ", .double "Predicate::NEQ" ne Term.shape)]

def shape : Shape Predicate := .recursive shapeStep

mutual

def toJson : Predicate → Json
  | conj ps => .tagged "AND" (.arr (toJsons ps))
  | disj ps => .tagged "OR" (.arr (toJsons ps))
  | neg p => .tagged "NOT" (toJson p)
  | top => .str "TRUE"
  | bot => .str "FALSE"
  | eq x y => .tagged "EQ" (.arr [x.toJson, y.toJson])
  | ne x y => .tagged "NEQ" (.arr [x.toJson, y.toJson])

def toJsons : List Predicate → List Json
  | [] => []
  | p :: ps => toJson p :: toJsons ps

end

end Predicate

namespace NamedPredicate

def shape : Shape NamedPredicate :=
  Fields.shape "struct NamedPredicate"
    (((Fields.none mk).and (.required "name" .text)).and (.required "predicate" Predicate.shape))

def toJson (p : NamedPredicate) : Json :=
  .obj [("name", .str p.name), ("predicate", p.predicate.toJson)]

end NamedPredicate

namespace Compute

def shape : Shape Compute :=
  .choice [
    ("Value", .single value Term.shape),
    ("Predicate", .single predicate Predicate.shape),
    ("Any", .bare any)]

def toJson : Compute → Json
  | value t => .tagged "Value" t.toJson
  | predicate p => .tagged "Predicate" p.toJson
  | any => .str "Any"

end Compute

namespace Action

def shape : Shape Action :=
  Fields.shape "struct Action"
    (((Fields.none fun var value => { var := var, value := value }).and
      (.required "var" .text)).and (.required "value" Compute.shape))

def toJson (a : Action) : Json := .obj [("var", .str a.var), ("value", a.value.toJson)]

end Action

namespace TransitionKind

def name : TransitionKind → String
  | internal => "Internal"
  | send => "Send"
  | receive => "Receive"
  | percept => "Percept"
  | module => "Module"

def all : List TransitionKind := [internal, send, receive, percept, module]

def shape : Shape TransitionKind := .choice (all.map fun k => (k.name, .bare k))

end TransitionKind

namespace Transition

def shape : Shape Transition :=
  Fields.shape "struct Transition"
    ((((((Fields.none mk).and (.required "name" .text)).and (.required "agent" .text)).and
      (.required "kind" TransitionKind.shape)).and (.required "guard" Predicate.shape)).and
      (.required "actions" (.list Action.shape)))

def toJson (t : Transition) : Json :=
  .obj [
    ("name", .str t.name),
    ("agent", .str t.agent),
    ("kind", .str t.kind.name),
    ("guard", t.guard.toJson),
    ("actions", .list Action.toJson t.actions)]

end Transition

namespace Variable

def shape : Shape Variable :=
  Fields.shape "struct Variable"
    ((((Fields.none mk).and (.required "name" .text)).and
      (.required "domain" (.list Value.shape))).and (.required "initial" Value.shape))

def toJson (v : Variable) : Json :=
  .obj [
    ("name", .str v.name),
    ("domain", .list Value.toJson v.domain),
    ("initial", v.initial.toJson)]

end Variable

namespace Model

def shape : Shape Model :=
  let build name vars predicates transitions invariants : Model :=
    ⟨name, vars, predicates, transitions, invariants, {}⟩
  Fields.shape "struct TransitionSystemModel"
    ((((((Fields.none build).and (.required "name" .text)).and
      (.required "vars" (.list Variable.shape))).and
      (.required "state_predicates" (.list NamedPredicate.shape))).and
      (.required "transitions" (.list Transition.shape))).and
      (.required "invariants" (.list NamedPredicate.shape)))

def toJson (m : Model) : Json :=
  .obj [
    ("name", .str m.name),
    ("vars", .list Variable.toJson m.vars),
    ("state_predicates", .list NamedPredicate.toJson m.predicates),
    ("transitions", .list Transition.toJson m.transitions),
    ("invariants", .list NamedPredicate.toJson m.invariants)]

def agrees (m n : Model) : Bool :=
  let named (ps qs : List NamedPredicate) : Bool :=
    ps.length = qs.length && (ps.zip qs).all fun (p, q) => p.agrees q
  m.name = n.name && m.vars = n.vars && named m.predicates n.predicates &&
    m.transitions.length = n.transitions.length &&
    (m.transitions.zip n.transitions).all (fun (t, u) => t.agrees u) &&
    named m.invariants n.invariants && m.preparation = n.preparation

end Model

end TemporalCheck
