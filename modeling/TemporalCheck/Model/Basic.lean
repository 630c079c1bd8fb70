import TemporalCheck.Model.Transition
import TemporalCheck.Program

namespace TemporalCheck

/-- What a model has prepared for its answers: the numbers of the transitions kept and the
variables that the visible propositions read. -/
structure Preparation where
  ready : Bool := false
  options : ProgramOptions := {}
  active : List Nat := []
  visibleVars : OrderedSet String := ∅
  disposed : Bool := false
deriving DecidableEq

/-- A model. States that violate an invariant are never entered. -/
structure Model where
  name : String
  vars : List Variable := []
  predicates : List NamedPredicate := []
  transitions : List Transition := []
  invariants : List NamedPredicate := []
  preparation : Preparation := {}

/-- The reading of propositions: named conditions first, then boolean variables. -/
structure PropositionReader where
  predicates : List NamedPredicate
  names : List String

namespace PropositionReader

def predicate? (r : PropositionReader) (name : String) : Option Predicate :=
  (r.predicates.reverse.find? (·.name = name)).map (·.predicate)

def holds (r : PropositionReader) (s : ModelState) (p : String) : Except CheckError Bool :=
  match r.predicate? p with
  | some condition => condition.eval s
  | none =>
    match (placeOf r.names p).bind fun i => s[i]? with
    | some (.bool b) => .ok b
    | some v => .error (.evaluation ("`" ++ p ++ "` is " ++ v.text ++ ", not a boolean"))
    | none => .error (.evaluation ("unknown proposition `" ++ p ++ "`"))

end PropositionReader

namespace Model

def outdated (m : Model) : Model := { m with preparation := { m.preparation with ready := false } }

def addVariable (m : Model) (v : Variable) : Model := { m.outdated with vars := m.vars ++ [v] }

def addTransition (m : Model) (t : Transition) : Model :=
  { m.outdated with transitions := m.transitions ++ [t] }

def addPredicate (m : Model) (name : String) (p : Predicate) : Model :=
  { m.outdated with predicates := m.predicates ++ [⟨name, p⟩] }

def addInvariant (m : Model) (name : String) (p : Predicate) : Model :=
  { m.outdated with invariants := m.invariants ++ [⟨name, p⟩] }

def place (m : Model) : String → Option Nat := placeOf (m.vars.map (·.name))

def value? (m : Model) (s : ModelState) (name : String) : Option Value :=
  (m.vars.findIdx? (·.name = name)).bind fun i => s[i]?

def reader (m : Model) : PropositionReader :=
  ⟨m.predicates.map (·.resolve m.place), m.vars.map (·.name)⟩

def visibleVars (m : Model) (visible : OrderedSet String) : OrderedSet String :=
  .ofList (visible.toList.flatMap fun name =>
    match m.predicates.find? (·.name = name) with
    | some p => p.predicate.support.toList
    | none => [name])

/-- One pass over the transitions, each with its number: a transition that writes a relevant
variable is kept, and what it reads becomes relevant. -/
def conePass (kept : OrderedSet Nat) (relevant : OrderedSet String) :
    List (Transition × Nat) → OrderedSet Nat × OrderedSet String
  | [] => (kept, relevant)
  | (t, i) :: rest =>
    if i ∉ kept && !disjointNames t.modifies relevant then
      conePass (kept.insert i) (relevant.union t.reads) rest
    else conePass kept relevant rest

def coneLoop (ts : List (Transition × Nat)) :
    Nat → OrderedSet Nat → OrderedSet String → OrderedSet Nat
  | 0, kept, _ => kept
  | n + 1, kept, relevant =>
    let (kept', relevant') := conePass kept relevant ts
    if kept'.size = kept.size then kept' else coneLoop ts n kept' relevant'

/-- The transitions that may influence the given variables or an invariant. Every pass but the
last keeps a transition, so their number bounds the passes. -/
def coneOfInfluence (m : Model) (vars : OrderedSet String) : List Nat :=
  let relevant := vars.insertAll (m.invariants.flatMap fun i => i.predicate.support.toList)
  (coneLoop m.transitions.zipIdx (m.transitions.length + 1) ∅ relevant).toList

def prepared (m : Model) : Model :=
  let visible := m.visibleVars m.preparation.options.visible
  let active :=
    if m.preparation.options.slicing then m.coneOfInfluence visible
    else List.range m.transitions.length
  { m with
    transitions := m.transitions.map (·.resolve m.place)
    invariants := m.invariants.map (·.resolve m.place)
    predicates := m.predicates.map (·.resolve m.place)
    preparation := { m.preparation with ready := true, active := active, visibleVars := visible } }

def prepare : Task Model Unit := do
  let m ← Task.read
  if !m.preparation.ready then
    let m' := m.prepared
    let kept := m'.preparation.active.length
    if kept < m.transitions.length then
      Task.emit .info
        (m.name ++ ": slicing kept " ++ toString kept ++ " of " ++ toString m.transitions.length ++
          " transitions")
    Task.change fun _ => m'

def activeTransitions (m : Model) : List Transition :=
  m.preparation.active.filterMap fun i => m.transitions[i]?

def initialState (m : Model) : ModelState := m.vars.map (·.initial)

def satisfiesAll (s : ModelState) : List NamedPredicate → Except Fault Bool
  | [] => .ok true
  | i :: rest => do
    let b ← (i.predicate.eval s).mapError fun e =>
      .error (.programStep ("invariant " ++ i.name ++ ": " ++ e.message))
    if b then satisfiesAll s rest else .ok false

def enabledAmong (s : ModelState) : List (Transition × Nat) → Except Fault (List (Transition × Nat))
  | [] => .ok []
  | (t, i) :: rest => do
    let b ← t.isEnabled s
    let others ← enabledAmong s rest
    .ok (if b then (t, i) :: others else others)

def active (m : Model) : List (Transition × Nat) :=
  m.preparation.active.filterMap fun i => m.transitions[i]?.map fun t => (t, i)

def enabled (m : Model) (s : ModelState) : Except Fault (List (Transition × Nat)) :=
  enabledAmong s m.active

def collect (invariants : List NamedPredicate) :
    List ModelState → List ModelState → Except Fault (List ModelState)
  | [], found => .ok found
  | s :: rest, found => do
    if s ∈ found then collect invariants rest found
    else
      let b ← satisfiesAll s invariants
      collect invariants rest (if b then found ++ [s] else found)

def fireInto (m : Model) (s : ModelState) :
    List (Transition × Nat) → List ModelState → Except Fault (List ModelState)
  | [], found => .ok found
  | (t, _) :: rest, found => do
    let next ← t.fire s m.vars
    let found ← collect m.invariants next found
    fireInto m s rest found

def fireAll (m : Model) (s : ModelState) (ts : List (Transition × Nat)) :
    Except Fault (List ModelState) :=
  m.fireInto s ts []

/-- May the transitions of an agent stand for all enabled ones? They are fewer but not none, not
more than the bound, take only internal steps that write nothing visible, and are independent of
the transitions of the other agents. -/
def isAmple (m : Model) (enabled : List (Transition × Nat)) (agent : String) : Bool :=
  let own := m.active.filter (·.1.agent = agent)
  let others := m.active.filter (·.1.agent ≠ agent)
  let candidate := enabled.filter (·.1.agent = agent)
  let bound := m.preparation.options.ampleSetSize
  !candidate.isEmpty && candidate.length ≠ enabled.length &&
    (bound = 0 || candidate.length ≤ bound) &&
    own.all (fun t =>
      t.1.kind = .internal && disjointNames t.1.modifies m.preparation.visibleVars) &&
    own.all fun t => others.all fun u => t.1.independentOf u.1

/-- The enabled transitions of the first agent, by name, whose transitions are ample. -/
def ampleTransitions (m : Model) (s : ModelState) :
    Except Fault (Option (List (Transition × Nat))) := do
  let enabled ← m.enabled s
  let agents := OrderedSet.ofList (m.active.map (·.1.agent))
  .ok ((agents.toList.find? (m.isAmple enabled)).map fun agent =>
    enabled.filter (·.1.agent = agent))

def ampleStates (m : Model) (s : ModelState) : Except Fault (Option (List ModelState)) := do
  match ← m.ampleTransitions s with
  | none => .ok none
  | some ts =>
    let next ← m.fireAll s ts
    .ok (if next.isEmpty then none else some next)

def configure (options : ProgramOptions) : Task Model Unit := do
  Task.change fun m =>
    { m with
      preparation := { m.preparation with options := options, ready := false, disposed := false } }
  prepare

def initial : Task Model ModelState := do
  prepare
  let m ← Task.read
  let s := m.initialState
  if ← Task.ofExcept (satisfiesAll s m.invariants) then return s
  else Task.fail (.programStep ("the initial state of " ++ m.name ++ " violates an invariant"))

def successors (s : ModelState) : Task Model (List ModelState) := do
  prepare
  let m ← Task.read
  Task.ofExcept (do m.fireAll s (← m.enabled s))

def ample (s : ModelState) : Task Model (Option (List ModelState)) := do
  prepare
  let m ← Task.read
  if m.preparation.options.partialOrderReduction then Task.ofExcept (m.ampleStates s)
  else return none

def constructOf (t : Transition) : Option Construct :=
  let location := "agent `" ++ t.agent ++ "`, transition `" ++ t.name ++ "`"
  match t.kind with
  | .internal => none
  | .send => some ⟨.communication, location⟩
  | .receive => some ⟨.communication, location⟩
  | .percept => some ⟨.perceptRule, location⟩
  | .module => some ⟨.nestedModule, location⟩

def constructs (m : Model) : List Construct := m.transitions.filterMap constructOf

def dispose : Task Model Unit := do
  let m ← Task.read
  if !m.preparation.disposed then
    Task.emit .debug ("disposing " ++ m.name)
    Task.change fun m => { m with preparation := { m.preparation with disposed := true } }

/-- Visits the states on a stack and what they lead to, at most `limit` of them, the last
successor of a state first. The first error ends the visit. -/
def visit : Nat → List ModelState → OrderedSet ModelState → Task Model (OrderedSet ModelState)
  | 0, _, seen => return seen
  | _ + 1, [], seen => return seen
  | limit + 1, s :: rest, seen => do
    if s ∈ seen then visit limit rest seen
    else
      let next ← successors s
      visit limit (next.reverse ++ rest) (seen.insert s)

def reachable (limit : Nat) : Task Model (OrderedSet ModelState) := do
  let s ← initial
  visit limit [s] ∅

def program (r : PropositionReader) : Program Model ModelState where
  configure := configure
  initial := initial
  successors := successors
  ample := ample
  holds s p := Task.ofExcept ((r.holds s p).mapError .error)
  constructs := constructs
  dispose := dispose
  describe := ModelState.describe

end Model

end TemporalCheck
