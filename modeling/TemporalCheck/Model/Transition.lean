import TemporalCheck.Model.Parser

namespace TemporalCheck

inductive TransitionKind where
  | internal
  | send
  | receive
  | percept
  | module
deriving DecidableEq

structure Transition where
  name : String
  agent : String := ""
  kind : TransitionKind := .internal
  guard : Predicate
  actions : List Action

namespace Transition

def parseActions : List String → Except CheckError (List Action)
  | [] => .ok []
  | text :: rest => do
    let a ← (Action.parse text).mapError fun e => .ofSyntax e text
    let as ← parseActions rest
    .ok (a :: as)

def parse (name guard : String) (actions : List String) : Except CheckError Transition := do
  let actions ← parseActions actions
  let guard' ← (Predicate.parse guard).mapError fun e => .ofSyntax e guard
  .ok { name := name, guard := guard', actions := actions }

def text (t : Transition) : String :=
  t.name ++ ": " ++ t.guard.text ++ " / [" ++ joinWith ", " (t.actions.map Action.text) ++ "]"

def resolve (place : String → Option Nat) (t : Transition) : Transition :=
  { t with guard := t.guard.resolve place, actions := t.actions.map (·.resolve place) }

def agrees (t u : Transition) : Bool :=
  t.name = u.name && t.agent = u.agent && t.kind = u.kind && t.guard.agrees u.guard &&
    t.actions.length = u.actions.length && (t.actions.zip u.actions).all fun (a, b) => a.agrees b

def modifies (t : Transition) : OrderedSet String := .ofList (t.actions.map (·.var))

def reads (t : Transition) : OrderedSet String :=
  t.guard.support.insertAll (t.actions.flatMap fun a => a.support.toList)

end Transition

def disjointNames (s t : OrderedSet String) : Bool := s.toList.all fun a => a ∉ t

namespace Transition

/-- Neither transition writes what the other one reads or writes. -/
def independentOf (t u : Transition) : Bool :=
  disjointNames t.modifies u.modifies && disjointNames t.modifies u.reads &&
    disjointNames u.modifies t.reads

def stepError (reason : String) : Fault := .error (.programStep reason)

def isEnabled (t : Transition) (s : ModelState) : Except Fault Bool :=
  (t.guard.eval s).mapError fun e => stepError ("guard of " ++ t.name ++ ": " ++ e.message)

def target (t : Transition) (vars : List Variable) (a : Action) : Except Fault (Nat × Variable) :=
  match a.index.bind fun i => vars[i]?.map fun v => (i, v) with
  | some r => .ok r
  | none => .error (stepError (t.name ++ " assigns unknown variable `" ++ a.var ++ "`"))

def values (t : Transition) (s : ModelState) (v : Variable) (a : Action) :
    Except Fault (List Value) := do
  let values ← (a.nextValues s v.domain).mapError fun e => stepError (t.name ++ ": " ++ e.message)
  match values.find? (· ∉ v.domain) with
  | none => .ok values
  | some x =>
    .error (stepError
      (t.name ++ " assigns " ++ x.text ++ " outside the domain of `" ++ v.name ++ "`"))

def setValue (s : ModelState) (i : Nat) (x : Value) : Except Fault ModelState :=
  if i < s.length then .ok (s.set i x) else .error (.crash (some "no such variable"))

/-- Every state with every value, state by state. -/
def combine (i : Nat) (values : List Value) : List ModelState → Except Fault (List ModelState)
  | [] => .ok []
  | s :: rest => do
    let here ← values.mapM (setValue s i)
    let there ← combine i values rest
    .ok (here ++ there)

def fireActions (t : Transition) (s : ModelState) (vars : List Variable) :
    List Action → List ModelState → Except Fault (List ModelState)
  | [], next => .ok next
  | a :: rest, next => do
    let (i, v) ← t.target vars a
    let values ← t.values s v a
    let next ← combine i values next
    fireActions t s vars rest next

/-- The states a transition may lead to. All values are computed from `s`; a free variable
branches over its domain. -/
def fire (t : Transition) (s : ModelState) (vars : List Variable) :
    Except Fault (List ModelState) :=
  t.fireActions s vars t.actions [s]

end Transition

end TemporalCheck
