import TemporalCheck.Formula.Basic
import TemporalCheck.Text

namespace TemporalCheck

namespace Formula

mutual

def text : Formula → String
  | prop p => p
  | neg f => "!" ++ text f
  | next f => "X " ++ text f
  | conj [] => "true"
  | conj (f :: fs) => "(" ++ joinWith " && " (text f :: texts fs) ++ ")"
  | disj [] => "false"
  | disj (f :: fs) => "(" ++ joinWith " || " (text f :: texts fs) ++ ")"
  | .until l r => "(" ++ text l ++ " U " ++ text r ++ ")"
  | release l r => "(" ++ text l ++ " R " ++ text r ++ ")"
  | top => "true"
  | bot => "false"

def texts : List Formula → List String
  | [] => []
  | f :: fs => text f :: texts fs

end

end Formula

end TemporalCheck
