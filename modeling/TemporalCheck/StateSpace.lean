import TemporalCheck.Program
import TemporalCheck.StateTable
import TemporalCheck.Sweep

namespace TemporalCheck

/-- What is known of a state. An ample set that was asked for may turn out not to exist. -/
structure StateFacts where
  successors : Option (List Nat) := none
  ample : Option (Option (List Nat)) := none
  evaluated : Bool := false

instance : Inhabited StateFacts := ⟨{}⟩

structure StateSpace (W S : Type) where
  memory : W
  table : StateTable S StateFacts := .empty
  initial? : Option Nat := none
  expanded : Nat := 0
  evaluated : Nat := 0
  disposed : Bool := false

namespace StateSpace

variable {W S α : Type}

def call (t : Task W α) : Task (StateSpace W S) α := fun ⟨⟨memory, table, initial, n, k, d⟩, log⟩ =>
  match t ⟨memory, log⟩ with
  | .ok a ⟨memory, log⟩ => .ok a ⟨⟨memory, table, initial, n, k, d⟩, log⟩
  | .error e ⟨memory, log⟩ => .error e ⟨⟨memory, table, initial, n, k, d⟩, log⟩

def configure (p : Program W S) (options : ProgramOptions) : Task (StateSpace W S) Unit :=
  call (p.configure options)

def facts (id : Nat) : Task (StateSpace W S) StateFacts := do
  Task.require ((← Task.read).table.info? id)

def state (id : Nat) : Task (StateSpace W S) S := do
  Task.require ((← Task.read).table.get? id)

def isExpanded (id : Nat) : Task (StateSpace W S) Bool := do
  return (← facts id).successors.isSome

def note (id : Nat) (f : StateFacts → StateFacts) : Task (StateSpace W S) Unit :=
  Task.change fun s => { s with table := s.table.modifyInfo id f }

section

variable [DecidableEq S] [HasDigest S]

def store (states : List S) : Task (StateSpace W S) (List Nat) := do
  let s ← Task.read
  let (ids, table) := s.table.insertAll states
  Task.change fun s => { s with table := table }
  return ids

def initial (p : Program W S) : Task (StateSpace W S) Nat := do
  match (← Task.read).initial? with
  | some id => return id
  | none =>
    let first ← call p.initial
    let s ← Task.read
    let (id, table) := s.table.insert first
    Task.change fun s => { s with table := table, initial? := some id }
    return id

def successors (p : Program W S) (id : Nat) : Task (StateSpace W S) (List Nat) := do
  match (← facts id).successors with
  | some ids => return ids
  | none =>
    let next ← call (p.successors (← state id))
    let ids ← if next.isEmpty then pure [id] else store next
    note id fun f => { f with successors := some ids }
    Task.change fun s => { s with expanded := s.expanded + 1 }
    return ids

/-- The ample set of a state, asked for once; an empty one does not count. -/
def ample (p : Program W S) (id : Nat) : Task (StateSpace W S) (Option (List Nat)) := do
  match (← facts id).ample with
  | some ids => return ids
  | none =>
    let reduced ← call (p.ample (← state id))
    let ids ← match reduced.getD [] with
      | [] => pure none
      | states => some <$> store states
    note id fun f => { f with ample := some ids }
    return ids

/-- Do all the literals hold in a state? The state counts as evaluated from then on. -/
def entailsAll (p : Program W S) (id : Nat) (literals : List Formula) :
    Task (StateSpace W S) Bool := do
  if !(← facts id).evaluated then
    note id fun f => { f with evaluated := true }
    Task.change fun s => { s with evaluated := s.evaluated + 1 }
  call (p.entailsAll (← state id) literals)

def generate (p : Program W S) (limit : Nat) : Task (StateSpace W S) (Option Nat) := do
  let id ← initial p
  Sweep.exhaust (successors p) limit { pending := [id] }

end

def dispose (p : Program W S) : Task (StateSpace W S) Unit := do
  if !(← Task.read).disposed then
    Task.change fun s => { s with disposed := true }
    call p.dispose

end StateSpace

end TemporalCheck
