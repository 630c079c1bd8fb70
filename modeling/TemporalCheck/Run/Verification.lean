import TemporalCheck.Formula.Parser
import TemporalCheck.Run.Report

namespace TemporalCheck

structure Verification (W S : Type) where
  property : String
  directives : Directives
  advisories : List Advisory
  search : Search W S

namespace Verification

variable {W S η : Type}

/-- Reads the property and sets the program up for it. A property that cannot be read is rejected
before the program is told anything. -/
def create (p : Program W S) (memory : W) (log : List LogEvent) (property : String)
    (directives : Directives) : Except Fault (Logged (Verification W S)) := do
  let formula ← (Formula.parse property).mapError fun e => .error (.ofSyntax e property)
  let space : StateSpace W S := { memory := memory }
  match StateSpace.configure p (directives.programOptions formula.propositions) ⟨space, log⟩ with
  | .error fault _ => .error fault
  | .ok _ ⟨space, log⟩ =>
    let advisories := Advisory.precheck formula directives (p.constructs space.memory)
    let warnings := advisories.map fun a => LogEvent.mk .warn a.text
    let search : Search W S :=
      { space := space
        property := .ofViolations formula
        reduction := directives.partialOrderReduction
        printTree := directives.printSearchTree }
    .ok ⟨⟨property, directives, advisories, search⟩, warnings.reverse ++ log⟩

def jobs (d : Directives) : List Job :=
  (if d.onTheFlyProgram then [] else [.expandProgram]) ++
    (if d.onTheFlyProperty then [] else [.expandProperty]) ++ [.search]

def isDisposed (v : Verification W S) : Bool := v.search.space.disposed

section

variable [DecidableEq S] [HasDigest S]

/-- Starts a run. After the program has been released it is cancelled at once. -/
def begin (p : Program W S) (runId : String) (v : Verification W S) (log : List LogEvent) :
    Run W S :=
  let log := ⟨.info, "run " ++ runId ++ ": checking `" ++ v.property ++ "`"⟩ :: log
  if v.isDisposed then ⟨v.search, log, .ended (some .cancelled)⟩
  else Run.begin p v.search log (jobs v.directives)

end

def dispose (p : Program W S) (v : Verification W S) (log : List LogEvent) :
    Logged (Verification W S) :=
  match Search.inSpace (StateSpace.dispose p) ⟨v.search, log⟩ with
  | .ok _ ⟨search, log⟩ => ⟨{ v with search := search }, log⟩
  | .error _ ⟨search, log⟩ => ⟨{ v with search := search }, log⟩

def summary (v : Verification W S) (outcome : Outcome S) : Summary S :=
  ⟨v.property, outcome, v.advisories, v.search.stats⟩

def result : RunStatus S → Except (Option String) (Outcome S)
  | .going _ _ => .ok .cancelled
  | .ended none => .ok .pass
  | .ended (some v) => .ok (.ofSearch (.ok v))
  | .failed (.error e) => .ok (.ofSearch (.error e))
  | .failed (.crash text) => .error text

/-- Ends a run with an outcome: the program is released and the outcome logged. -/
def conclude (p : Program W S) (runId : String) (v : Verification W S) (log : List LogEvent)
    (outcome : Outcome S) : Summary S × Logged (Verification W S) :=
  let ⟨v, log⟩ := v.dispose p log
  let event : LogEvent := match outcome with
    | .error e => ⟨.error, "run " ++ runId ++ ": " ++ e.message⟩
    | o => ⟨.info, "run " ++ runId ++ ": " ++ o.text⟩
  (v.summary outcome, ⟨v, event :: log⟩)

def crashCause (text : Option String) : String := text.getD "unknown cause"

def abort (p : Program W S) (runId : String) (v : Verification W S) (log : List LogEvent)
    (text : Option String) : Summary S × Logged (Verification W S) :=
  let ⟨v, log⟩ := v.dispose p log
  let cause := "search panicked: " ++ crashCause text
  (v.summary (.error (.other cause)), ⟨v, ⟨.error, "run " ++ runId ++ ": " ++ cause⟩ :: log⟩)

def finish (p : Program W S) (runId : String) (v : Verification W S) (r : Run W S) :
    Summary S × Logged (Verification W S) :=
  let v := { v with search := r.search }
  match result r.status with
  | .ok outcome => v.conclude p runId r.log outcome
  | .error text => v.abort p runId r.log text

/-- A whole run on the spot, in at most `limit` steps. A crash passes through and leaves the
program as it is. -/
def runWith [DecidableEq S] [HasDigest S] (p : Program W S) (runId : String)
    (tick : Search W S → η → Bool × η) (limit : Nat) (v : Verification W S) (log : List LogEvent)
    (h : η) : Except (Option String) (Summary S) × Logged (Verification W S) × η :=
  let (r, h) := Run.drive p tick limit (v.begin p runId log) h
  let v := { v with search := r.search }
  match result r.status with
  | .ok outcome =>
    let (s, v) := v.conclude p runId r.log outcome
    (.ok s, v, h)
  | .error text => (.error text, ⟨v, r.log⟩, h)

end Verification

end TemporalCheck
