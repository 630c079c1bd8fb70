import TemporalCheck.Advisory
import TemporalCheck.Product.Run
import TemporalCheck.Run.Stamp

namespace TemporalCheck

inductive Outcome (S : Type) where
  | pass
  | violation (c : Counterexample S)
  | error (e : CheckError)
  | cancelled
deriving DecidableEq

namespace Outcome

variable {S : Type}

/-- The outcome of a search; one that was cancelled by the code under check counts as
cancelled. -/
def ofSearch : Except CheckError (Verdict S) → Outcome S
  | .ok .pass => pass
  | .ok (.violation c) => violation c
  | .ok .cancelled => cancelled
  | .error .cancelled => cancelled
  | .error e => error e

def text : Outcome S → String
  | pass => "pass"
  | violation c =>
    "violation (" ++ toString c.path.length ++ " prefix states, " ++ toString c.cycle.length ++
      " cycle states)"
  | error e => "error: " ++ e.message
  | cancelled => "cancelled"

def isPass : Outcome S → Bool
  | pass => true
  | _ => false

def isViolation : Outcome S → Bool
  | violation _ => true
  | _ => false

def counterexample? : Outcome S → Option (Counterexample S)
  | violation c => some c
  | _ => none

end Outcome

structure Summary (S : Type) where
  property : String
  outcome : Outcome S
  advisories : List Advisory
  stats : SearchStats
deriving DecidableEq

structure Report (S : Type) where
  runId : RunId
  summary : Summary S
  started : Timestamp
  finished : Timestamp

def Report.elapsedMillis {S : Type} (r : Report S) : Int :=
  (r.finished.nanosSince r.started).tdiv 1000000

end TemporalCheck
