import TemporalCheck.Property.Cover
import TemporalCheck.StateTable
import TemporalCheck.Sweep

namespace TemporalCheck

/-- What an acceptance set watches: a promise `X (l U r)` and the formula `r` that keeps it. -/
structure Promise where
  carried : Formula
  kept : Formula

structure PropertyAutomaton where
  formula : Formula
  table : StateTable PropertyState (Option (List Nat))
  initial : Nat
  promises : List Promise
  expanded : Nat := 0
  coverCalls : Nat := 0

namespace PropertyAutomaton

def promiseOf : Formula → Option Promise
  | .until l r => some ⟨.next (.until l r), r⟩
  | _ => none

def ofFormula (f : Formula) : PropertyAutomaton :=
  let (initial, table) := StateTable.empty.insert (.ofList [.next f] : PropertyState)
  { formula := f
    table := table
    initial := initial
    promises := f.untils.toList.filterMap promiseOf }

def ofViolations (property : Formula) : PropertyAutomaton := ofFormula property.negate

def acceptanceCount (a : PropertyAutomaton) : Nat := a.promises.length

/-- A state is in an acceptance set if it does not carry the promise on, or keeps it. -/
def keeps (q : PropertyState) (p : Promise) : Bool :=
  p.carried ∉ q || Formula.derivable (q.insert .top) p.kept

/-- Is a state in an acceptance set? Sets that do not exist hold everything, and only a set
that exists looks at the state. -/
def accepts? (a : PropertyAutomaton) (id set : Nat) : Option Bool :=
  match a.promises[set]? with
  | none => some true
  | some p => (a.table.get? id).map fun q => keeps q p

def successors (id : Nat) : Task PropertyAutomaton (List Nat) := do
  let a ← Task.read
  let known ← Task.require (a.table.info? id)
  match known with
  | some ids => return ids
  | none =>
    let q ← Task.require (a.table.get? id)
    let (ids, table) := a.table.insertAll (PropertyState.cover q.obligations).toList
    Task.change fun a =>
      { a with
        table := table.modifyInfo id fun _ => some ids
        coverCalls := a.coverCalls + 1
        expanded := a.expanded + 1 }
    return ids

def isExpanded (id : Nat) : Task PropertyAutomaton Bool := do
  let known ← Task.require ((← Task.read).table.info? id)
  return known.isSome

def state (id : Nat) : Task PropertyAutomaton PropertyState := do
  Task.require ((← Task.read).table.get? id)

def generate (limit : Nat) : Task PropertyAutomaton (Option Nat) := do
  let a ← Task.read
  Sweep.exhaust successors limit { pending := [a.initial] }

end PropertyAutomaton

end TemporalCheck
