import TemporalCheck.OrderedSet
import TemporalCheck.Task

namespace TemporalCheck

structure Sweep where
  pending : List Nat
  seen : OrderedSet Nat := ∅

namespace Sweep

def nextUnseen (seen : OrderedSet Nat) : List Nat → Option (Nat × List Nat)
  | [] => none
  | id :: rest => if id ∈ seen then nextUnseen seen rest else some (id, rest)

def next? (s : Sweep) : Option (Nat × Sweep) :=
  (nextUnseen s.seen s.pending).map fun (id, rest) => (id, ⟨rest, s.seen.insert id⟩)

def push (s : Sweep) (successors : List Nat) : Sweep :=
  { s with pending := (successors.filter (· ∉ s.seen)).reverse ++ s.pending }

/-- Visits all that is reachable in at most `limit` steps, and counts what was visited. -/
def exhaust {σ : Type} (expand : Nat → Task σ (List Nat)) : Nat → Sweep → Task σ (Option Nat)
  | 0, _ => return none
  | limit + 1, s =>
    match s.next? with
    | none => return some s.seen.size
    | some (id, s) => do
      let successors ← expand id
      exhaust expand limit (s.push successors)

end Sweep

end TemporalCheck
