import TemporalCheck.Model.Predicate

namespace TemporalCheck

/-- How a new value comes about; a free variable takes every value of its domain. -/
inductive Compute where
  | value (t : Term)
  | predicate (p : Predicate)
  | any

structure Action where
  var : String
  value : Compute
  index : Option Nat := none

namespace Compute

def text : Compute → String
  | value t => t.text
  | predicate p => p.text
  | any => "?"

def resolve (place : String → Option Nat) : Compute → Compute
  | value t => value (t.resolve place)
  | predicate p => predicate (p.resolve place)
  | any => any

def agrees : Compute → Compute → Bool
  | value t, value u => t.agrees u
  | predicate p, predicate q => p.agrees q
  | any, any => true
  | _, _ => false

def support : Compute → OrderedSet String
  | value t => .ofList t.support
  | predicate p => p.support
  | any => ∅

end Compute

namespace Action

def assign (var : String) (v : Value) : Action := { var := var, value := .value (.value v) }

def text (a : Action) : String := a.var ++ " := " ++ a.value.text

def resolve (place : String → Option Nat) (a : Action) : Action :=
  ⟨a.var, a.value.resolve place, place a.var⟩

def agrees (a b : Action) : Bool := a.var = b.var && a.value.agrees b.value

def support (a : Action) : OrderedSet String := a.value.support

def nextValues (a : Action) (s : ModelState) (domain : List Value) :
    Except CheckError (List Value) :=
  match a.value with
  | .value t => ([·]) <$> t.eval s
  | .predicate p => (fun b => [.bool b]) <$> p.eval s
  | .any => .ok domain

end Action

end TemporalCheck
