import TemporalCheck.Formula.Basic

namespace TemporalCheck

namespace Formula

def conjuncts : Formula → List Formula
  | conj fs => fs
  | f => [f]

def disjuncts : Formula → List Formula
  | disj fs => fs
  | f => [f]

/-- The conjunction of the given formulas; none give `top` and one is taken as it is. -/
protected def and (fs : List Formula) : Formula :=
  match (OrderedSet.ofList (fs.flatMap conjuncts)).toList with
  | [] => top
  | [f] => f
  | fs => conj fs

protected def or (fs : List Formula) : Formula :=
  match (OrderedSet.ofList (fs.flatMap disjuncts)).toList with
  | [] => bot
  | [f] => f
  | fs => disj fs

def implies (f g : Formula) : Formula := .or [neg f, g]

def iff (f g : Formula) : Formula := .and [f.implies g, g.implies f]

def eventually (f : Formula) : Formula := .until top f

def always (f : Formula) : Formula := .release bot f

def weakUntil (f g : Formula) : Formula := .release g (.or [f, g])

def isLiteral : Formula → Bool
  | prop _ => true
  | neg (prop _) => true
  | _ => false

def isElementary : Formula → Bool
  | conj _ => false
  | disj _ => false
  | .until _ _ => false
  | release _ _ => false
  | _ => true

mutual

def occurrences : Formula → List String
  | prop p => [p]
  | neg f => occurrences f
  | next f => occurrences f
  | conj fs => occurrencesAll fs
  | disj fs => occurrencesAll fs
  | .until l r => occurrences l ++ occurrences r
  | release l r => occurrences l ++ occurrences r
  | top => []
  | bot => []

def occurrencesAll : List Formula → List String
  | [] => []
  | f :: fs => occurrences f ++ occurrencesAll fs

end

def propositions (f : Formula) : OrderedSet String := .ofList f.occurrences

mutual

def untilParts : Formula → List Formula
  | prop _ => []
  | neg f => untilParts f
  | next f => untilParts f
  | conj fs => untilPartsAll fs
  | disj fs => untilPartsAll fs
  | .until l r => .until l r :: (untilParts l ++ untilParts r)
  | release l r => untilParts l ++ untilParts r
  | top => []
  | bot => []

def untilPartsAll : List Formula → List Formula
  | [] => []
  | f :: fs => untilParts f ++ untilPartsAll fs

end

def untils (f : Formula) : OrderedSet Formula := .ofList f.untilParts

mutual

def hasNext : Formula → Bool
  | prop _ => false
  | neg f => hasNext f
  | next _ => true
  | conj fs => anyHasNext fs
  | disj fs => anyHasNext fs
  | .until l r => hasNext l || hasNext r
  | release l r => hasNext l || hasNext r
  | top => false
  | bot => false

def anyHasNext : List Formula → Bool
  | [] => false
  | f :: fs => hasNext f || anyHasNext fs

end

/-- A formula without `next` cannot tell a state from its repetition. -/
def isStutterInvariant (f : Formula) : Bool := !f.hasNext

end Formula

end TemporalCheck
