import TemporalCheck.CheckError

namespace TemporalCheck

inductive LogLevel where
  | debug
  | info
  | warn
  | error
deriving DecidableEq

namespace LogLevel

def ofSeverity : Nat → LogLevel
  | 0 => debug
  | 1 => debug
  | 2 => info
  | 3 => warn
  | _ => error

def name : LogLevel → String
  | debug => "DEBUG"
  | info => "INFO"
  | warn => "WARN"
  | error => "ERROR"

end LogLevel

structure LogEvent where
  level : LogLevel
  message : String
deriving DecidableEq

def LogEvent.text (e : LogEvent) : String := e.level.name ++ " " ++ e.message

/-- A state and what has been logged, the newest event first. -/
structure Logged (σ : Type) where
  state : σ
  log : List LogEvent

abbrev Task (σ α : Type) := EStateM Fault (Logged σ) α

namespace Task

variable {σ α : Type}

def read : Task σ σ := fun l => .ok l.state l

def change (f : σ → σ) : Task σ Unit := fun ⟨s, log⟩ => .ok () ⟨f s, log⟩

def emit (level : LogLevel) (message : String) : Task σ Unit := fun ⟨s, log⟩ =>
  .ok () ⟨s, ⟨level, message⟩ :: log⟩

def fail (e : CheckError) : Task σ α := throw (.error e)

def ofExcept (r : Except Fault α) : Task σ α :=
  match r with
  | .ok a => pure a
  | .error fault => throw fault

/-- The value at hand, or a crash because there is none. -/
def require (a : Option α) : Task σ α :=
  match a with
  | some a => pure a
  | none => throw (.crash (some "no such state"))

end Task

end TemporalCheck
