import TemporalCheck.Run.Verification

/-!
A run on a worker. Those outside can raise a flag that cancels the run and send queries; the
worker answers the queries between two steps of the search, before it looks at the flag. When
the run is over it takes no more queries, answers those that are left, and tells a listener.
-/

namespace TemporalCheck

inductive Query where
  | path
  | stats
deriving DecidableEq

inductive Answer (S : Type) where
  | path (states : List (ProductState S))
  | stats (s : SearchStats)

inductive WorkerPhase (S : Type) where
  | starting
  | answering
  | looking
  | stepping
  | closing (s : Summary S)
  | draining (s : Summary S)
  | telling (s : Summary S)
  | over (s : Summary S)

/-- A worker with its queue of numbered queries, oldest first, and its answers, newest first.
`heard` is what the listener was told, each time with the memory of the program then. -/
structure Session (W S : Type) where
  verification : Verification W S
  run : Run W S
  phase : WorkerPhase S := .starting
  cancelled : Bool := false
  closed : Bool := false
  asked : Nat := 0
  queue : List (Nat × Query) := []
  answers : List (Nat × Answer S) := []
  heard : List (Summary S × W) := []

inductive SessionMove where
  | work
  | dispose
  | ask (q : Query)

namespace Session

variable {W S : Type}

def ofVerification (v : Verification W S) (log : List LogEvent) : Session W S :=
  { verification := v, run := ⟨v.search, log, .ended none⟩ }

def firstPath (s : Search W S) : List (ProductState S) :=
  match Search.pathStates ⟨s, []⟩ with
  | .ok states _ => states
  | .error _ _ => []

def answer (s : Search W S) : Query → Answer S
  | .path => .path (firstPath s)
  | .stats => .stats s.stats

def answerNext (s : Session W S) : Session W S :=
  match s.queue with
  | [] => s
  | (number, q) :: rest =>
    { s with queue := rest, answers := (number, answer s.run.search q) :: s.answers }

def dispose (s : Session W S) : Session W S :=
  if s.cancelled then s
  else
    { s with
      cancelled := true
      run := { s.run with log := ⟨.info, "cancelling run"⟩ :: s.run.log } }

/-- Sends a query, which is given a number unless the worker takes no more. -/
def ask (s : Session W S) (q : Query) : Option Nat × Session W S :=
  if s.closed then (none, s)
  else (some s.asked, { s with asked := s.asked + 1, queue := s.queue ++ [(s.asked, q)] })

def answerTo (s : Session W S) (number : Nat) : Option (Answer S) := s.answers.lookup number

section

variable [DecidableEq S] [HasDigest S]

def finishRun (p : Program W S) (runId : String) (s : Session W S) : Session W S :=
  let (summary, ⟨v, log⟩) := s.verification.finish p runId s.run
  { s with
    verification := v
    run := { s.run with search := v.search, log := log }
    phase := .closing summary }

def work (p : Program W S) (runId : String) (s : Session W S) : Session W S :=
  match s.phase with
  | .starting => { s with run := s.verification.begin p runId s.run.log, phase := .answering }
  | .answering =>
    match s.run.status with
    | .going _ _ => if s.queue.isEmpty then { s with phase := .looking } else s.answerNext
    | _ => s.finishRun p runId
  | .looking =>
    if s.cancelled then { s with run := s.run.cancel, phase := .answering }
    else { s with phase := .stepping }
  | .stepping => { s with run := s.run.step p, phase := .answering }
  | .closing summary => { s with closed := true, phase := .draining summary }
  | .draining summary =>
    if s.queue.isEmpty then { s with phase := .telling summary } else s.answerNext
  | .telling summary =>
    { s with
      heard := s.heard ++ [(summary, s.run.search.space.memory)]
      phase := .over summary }
  | .over _ => s

def move (p : Program W S) (runId : String) (s : Session W S) : SessionMove → Session W S
  | .work => s.work p runId
  | .dispose => s.dispose
  | .ask q => (s.ask q).2

/-- The worker goes on, at most `limit` times, until `stop` holds or the run is over. -/
def workUntil (p : Program W S) (runId : String) (stop : Session W S → Bool) :
    Nat → Session W S → Session W S
  | 0, s => s
  | limit + 1, s =>
    if stop s then s
    else
      match s.phase with
      | .over _ => s
      | _ => workUntil p runId stop limit (s.work p runId)

end

/-- What waiting for the worker gives once it is over: the summary, unless the listener
crashed. -/
def wait? (listenerCrashes : Bool) (s : Session W S) : Option (Except CheckError (Summary S)) :=
  match s.phase with
  | .over summary =>
      some (if listenerCrashes then .error (.other "the listener crashed") else .ok summary)
  | _ => none

end Session

end TemporalCheck
