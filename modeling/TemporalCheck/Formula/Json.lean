import TemporalCheck.Json.Shape
import TemporalCheck.Property.State

namespace TemporalCheck

open Json (Shape Variant Fields)

namespace Formula

def shapeStep (self : Shape Formula) : Shape Formula :=
  let arguments : Shape (List Formula) :=
    fun v => (fun fs => (OrderedSet.ofList fs).toList) <$> Shape.list self v
  .choice [
    ("Proposition", .single prop .text),
    ("Negation", .single neg self),
    ("Next", .single next self),
    ("Conjunction", .single conj arguments),
    ("Disjunction", .single disj arguments),
    ("Until", .double "Formula::Until" .until self),
    ("Release", .double "Formula::Release" release self),
    ("True", .bare top),
    ("False", .bare bot)]

def shape : Shape Formula := .recursive shapeStep

mutual

def toJson : Formula → Json
  | prop p => .tagged "Proposition" (.str p)
  | neg f => .tagged "Negation" (toJson f)
  | next f => .tagged "Next" (toJson f)
  | conj fs => .tagged "Conjunction" (.arr (toJsons fs))
  | disj fs => .tagged "Disjunction" (.arr (toJsons fs))
  | .until f g => .tagged "Until" (.arr [toJson f, toJson g])
  | release f g => .tagged "Release" (.arr [toJson f, toJson g])
  | top => .str "True"
  | bot => .str "False"

def toJsons : List Formula → List Json
  | [] => []
  | f :: fs => toJson f :: toJsons fs

end

end Formula

namespace PropertyState

def shape : Shape PropertyState :=
  Fields.shape "struct PropState"
    ((Fields.none OrderedSet.ofList).and (.required "formulas" (.list Formula.shape)))

def toJson (q : PropertyState) : Json := .obj [("formulas", .list Formula.toJson q.toList)]

end PropertyState

end TemporalCheck
