import TemporalCheck.Formula.Normal
import TemporalCheck.Property.State

namespace TemporalCheck

namespace Formula

def branches : Formula → List (OrderedSet Formula)
  | conj fs => [.ofList fs]
  | disj fs => fs.map fun f => .ofList [f]
  | .until l r => [.ofList [r], .ofList [l, next (.until l r)]]
  | release l r => [.ofList [l, r], .ofList [r, next (release l r)]]
  | f => [.ofList [f]]

mutual

/-- Does a formula follow from a set by taking it apart? An elementary formula does if it is a
member, a compound one if all members of one of its branches do. -/
def derivable (set : OrderedSet Formula) : Formula → Bool
  | conj fs => derivableAll set fs
  | disj fs => derivableAny set fs
  | .until l r => derivable set r || (derivable set l && next (.until l r) ∈ set)
  | release l r => derivable set r && (derivable set l || next (release l r) ∈ set)
  | f => f ∈ set

def derivableAll (set : OrderedSet Formula) : List Formula → Bool
  | [] => true
  | f :: fs => derivable set f && derivableAll set fs

def derivableAny (set : OrderedSet Formula) : List Formula → Bool
  | [] => false
  | f :: fs => derivable set f || derivableAny set fs

end

mutual

def weight : Formula → Nat
  | conj fs => weightOfAll fs + 1
  | disj fs => weightOfAll fs + 1
  | .until l r => weight l + weight r + 2
  | release l r => weight l + weight r + 2
  | _ => 1

def weightOfAll : List Formula → Nat
  | [] => 0
  | f :: fs => weight f + weightOfAll fs

end

end Formula

namespace PropertyState

open Formula

/-- A formula that follows already need not be covered; of `l U r` also `r` has to follow. -/
def redundant (context : OrderedSet Formula) : Formula → Bool
  | .until l r => derivable context (.until l r) && derivable context r
  | f => derivable context f

def coverFrom : Nat → OrderedSet Formula → OrderedSet Formula → List PropertyState
  | 0, _, _ => []
  | n + 1, pending, current =>
    match pending.takeLeast with
    | none => if bot ∈ current then [] else [current]
    | some (f, rest) =>
      let context := (rest.union current).insert top
      if derivable context f.negate then []
      else if redundant context f then coverFrom n rest current
      else if f.isElementary then coverFrom n rest (if f = top then current else current.insert f)
      else f.branches.flatMap fun branch =>
        coverFrom n (rest.union (branch.filter fun g => g ∉ current)) current

/-- The cover of a set. Each step takes a formula apart or puts it away, so the weight of the
set bounds the steps. -/
def cover (set : OrderedSet Formula) : OrderedSet PropertyState :=
  .ofList (coverFrom (weightOfAll set.toList + 1) set ∅)

end PropertyState

end TemporalCheck
