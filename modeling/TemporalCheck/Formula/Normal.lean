import TemporalCheck.Formula.Operators

namespace TemporalCheck

namespace Formula

mutual

/-- The normal form of a formula (`positive`) or of its negation. -/
def signed (positive : Bool) : Formula → Formula
  | prop p => if positive then prop p else neg (prop p)
  | neg f => signed (!positive) f
  | next f => next (signed positive f)
  | conj fs => if positive then .and (signedAll positive fs) else .or (signedAll positive fs)
  | disj fs => if positive then .or (signedAll positive fs) else .and (signedAll positive fs)
  | .until l r =>
    if positive then .until (signed positive l) (signed positive r)
    else release (signed positive l) (signed positive r)
  | release l r =>
    if positive then release (signed positive l) (signed positive r)
    else .until (signed positive l) (signed positive r)
  | top => if positive then top else bot
  | bot => if positive then bot else top

def signedAll (positive : Bool) : List Formula → List Formula
  | [] => []
  | f :: fs => signed positive f :: signedAll positive fs

end

def nnf (f : Formula) : Formula := f.signed true

def negate (f : Formula) : Formula := f.signed false

mutual

def isNnf : Formula → Bool
  | prop _ => true
  | neg f => (neg f).isLiteral
  | next f => isNnf f
  | conj fs => allNnf fs
  | disj fs => allNnf fs
  | .until l r => isNnf l && isNnf r
  | release l r => isNnf l && isNnf r
  | top => true
  | bot => true

def allNnf : List Formula → Bool
  | [] => true
  | f :: fs => isNnf f && allNnf fs

end

/-- The normal form has no `until`, so every violation shows after finitely many steps. -/
def isSyntacticSafety (f : Formula) : Bool := f.nnf.untils.isEmpty

end Formula

end TemporalCheck
