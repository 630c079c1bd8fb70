import TemporalCheck.Program

namespace TemporalCheck

inductive Callback where
  | configure
  | initial
  | successors
  | ample
  | holds
  | dispose
deriving DecidableEq

structure CallCounts where
  configure : Nat := 0
  initial : Nat := 0
  successors : Nat := 0
  ample : Nat := 0
  holds : Nat := 0
  dispose : Nat := 0

namespace CallCounts

def get (c : CallCounts) : Callback → Nat
  | .configure => c.configure
  | .initial => c.initial
  | .successors => c.successors
  | .ample => c.ample
  | .holds => c.holds
  | .dispose => c.dispose

def bump (c : CallCounts) : Callback → CallCounts
  | .configure => { c with configure := c.configure + 1 }
  | .initial => { c with initial := c.initial + 1 }
  | .successors => { c with successors := c.successors + 1 }
  | .ample => { c with ample := c.ample + 1 }
  | .holds => { c with holds := c.holds + 1 }
  | .dispose => { c with dispose := c.dispose + 1 }

end CallCounts

structure Counted (W : Type) where
  memory : W
  counts : CallCounts := {}

structure PlannedFault where
  callback : Callback
  number : Nat
  fault : Fault

namespace Program

variable {W S α : Type}

def plannedFor (plan : List PlannedFault) (callback : Callback) (number : Nat) : Option Fault :=
  (plan.find? fun f => f.callback = callback && f.number = number).map (·.fault)

def counted (plan : List PlannedFault) (callback : Callback) (t : Task W α) : Task (Counted W) α :=
  fun ⟨⟨memory, counts⟩, log⟩ =>
    let counts := counts.bump callback
    match plannedFor plan callback (counts.get callback) with
    | some fault => .error fault ⟨⟨memory, counts⟩, log⟩
    | none =>
      match t ⟨memory, log⟩ with
      | .ok a ⟨memory, log⟩ => .ok a ⟨⟨memory, counts⟩, log⟩
      | .error fault ⟨memory, log⟩ => .error fault ⟨⟨memory, counts⟩, log⟩

/-- A program with planned faults. -/
def withFaults (plan : List PlannedFault) (p : Program W S) : Program (Counted W) S where
  configure options := counted plan .configure (p.configure options)
  initial := counted plan .initial p.initial
  successors s := counted plan .successors (p.successors s)
  ample s := counted plan .ample (p.ample s)
  holds s name := counted plan .holds (p.holds s name)
  constructs w := p.constructs w.memory
  dispose := counted plan .dispose p.dispose
  describe := p.describe

end Program

end TemporalCheck
