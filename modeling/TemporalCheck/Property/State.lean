import TemporalCheck.Digest
import TemporalCheck.Formula.Hash
import TemporalCheck.Formula.Operators
import TemporalCheck.Formula.Printer

namespace TemporalCheck

abbrev PropertyState := OrderedSet Formula

namespace PropertyState

def literals (q : PropertyState) : List Formula := q.toList.filter Formula.isLiteral

/-- What a formula asks of the following step. -/
def obligation : Formula → Option Formula
  | .next f => some f
  | _ => none

def obligations (q : PropertyState) : OrderedSet Formula := .ofList (q.toList.filterMap obligation)

def text (q : PropertyState) : String :=
  "\x7b" ++ joinWith ", " (q.toList.map Formula.text) ++ "\x7d"

instance : HasDigest PropertyState where
  digest q :=
    { seedB := q.toList.foldl (fun sum f => sum + f.hash32) 0
      seedC := q.size.toUInt32 }

end PropertyState

end TemporalCheck
