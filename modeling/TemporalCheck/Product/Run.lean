import TemporalCheck.Product.Search

namespace TemporalCheck

inductive Job where
  | expandProgram
  | expandProperty
  | search
deriving DecidableEq

/-- Where a run stands: about to expand a state of the program or of the property automaton
that has just been taken from the stack of a sweep, or somewhere in the search. -/
inductive RunStage where
  | program (id : Nat) (sweep : Sweep)
  | property (id : Nat) (sweep : Sweep)
  | search (stage : Search.Stage)

/-- A run goes on, with jobs left for later, or has ended, without a verdict if there was
nothing to search, or has failed. -/
inductive RunStatus (S : Type) where
  | going (stage : RunStage) (later : List Job)
  | ended (verdict : Option (Verdict S))
  | failed (fault : Fault)

structure Run (W S : Type) where
  search : Search W S
  log : List LogEvent
  status : RunStatus S

namespace Run

variable {W S η : Type}

def settle (search : Search W S) (log : List LogEvent) (t : Task (Search W S) (RunStatus S)) :
    Run W S :=
  match t ⟨search, log⟩ with
  | .ok status ⟨search, log⟩ => ⟨search, log, status⟩
  | .error fault ⟨search, log⟩ => ⟨search, log, .failed fault⟩

section

variable [DecidableEq S] [HasDigest S]

def ofProgress : Search.Progress S → RunStatus S
  | .going stage => .going (.search stage) []
  | .decided verdict => .ended (some verdict)

def nextJob (p : Program W S) : List Job → Task (Search W S) (RunStatus S)
  | [] => return .ended none
  | .expandProgram :: later => do
    let id ← Search.inSpace (StateSpace.initial p)
    return .going (.program id ⟨[], .ofList [id]⟩) later
  | .expandProperty :: later => do
    let id := (← Task.read).property.initial
    return .going (.property id ⟨[], .ofList [id]⟩) later
  | .search :: _ => do
    return .going (.search (← Search.start p)) []

def act (p : Program W S) (later : List Job) : RunStage → Task (Search W S) (RunStatus S)
  | .program id sweep => do
    let sweep := sweep.push (← Search.inSpace (StateSpace.successors p id))
    match sweep.next? with
    | some (id, sweep) => return .going (.program id sweep) later
    | none =>
      Task.emit .debug ("generated " ++ toString sweep.seen.size ++ " program states")
      nextJob p later
  | .property id sweep => do
    let sweep := sweep.push (← Search.inProperty (PropertyAutomaton.successors id))
    match sweep.next? with
    | some (id, sweep) => return .going (.property id sweep) later
    | none =>
      Task.emit .debug ("generated " ++ toString sweep.seen.size ++ " property states")
      nextJob p later
  | .search stage => do
    return ofProgress (← Search.step p stage)

def begin (p : Program W S) (search : Search W S) (log : List LogEvent) (jobs : List Job) :
    Run W S :=
  settle search log (nextJob p jobs)

def step (p : Program W S) (r : Run W S) : Run W S :=
  match r with
  | ⟨search, log, .going stage later⟩ => settle search log (act p later stage)
  | r => r

end

def cancel (r : Run W S) : Run W S :=
  match r.status with
  | .going _ _ => { r with status := .ended (some .cancelled) }
  | _ => r

/-- Steps a run until it is over, at most `limit` times. Before each step `tick` looks at the
search and may stop the run. -/
def drive [DecidableEq S] [HasDigest S] (p : Program W S) (tick : Search W S → η → Bool × η) :
    Nat → Run W S → η → Run W S × η
  | 0, r, h => (r, h)
  | limit + 1, r, h =>
    match r.status with
    | .going _ _ =>
      let (go, h) := tick r.search h
      if go then drive p tick limit (r.step p) h else (r.cancel, h)
    | _ => (r, h)

end Run

end TemporalCheck
