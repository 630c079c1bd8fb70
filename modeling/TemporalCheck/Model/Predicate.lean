import TemporalCheck.CheckError
import TemporalCheck.Model.Value

namespace TemporalCheck

inductive Term where
  | value (v : Value)
  | var (name : String) (index : Option Nat)
deriving DecidableEq

inductive Predicate where
  | conj (ps : List Predicate)
  | disj (ps : List Predicate)
  | neg (p : Predicate)
  | top
  | bot
  | eq (x y : Term)
  | ne (x y : Term)

/-- The place of a variable among the names, the last one of equal names. -/
def placeOf (names : List String) (name : String) : Option Nat :=
  (names.reverse.idxOf? name).map fun i => names.length - 1 - i

def unknownVariable (name : String) : CheckError :=
  .evaluation ("unknown variable `" ++ name ++ "`")

namespace Term

def named (name : String) : Term := var name none

def text : Term → String
  | value v => v.text
  | var name _ => name

def resolve (place : String → Option Nat) : Term → Term
  | value v => value v
  | var name _ => var name (place name)

def agrees : Term → Term → Bool
  | value a, value b => a = b
  | var a _, var b _ => a = b
  | _, _ => false

def support : Term → List String
  | value _ => []
  | var name _ => [name]

def eval (s : ModelState) : Term → Except CheckError Value
  | value v => .ok v
  | var name index =>
    match index.bind fun i => s[i]? with
    | some v => .ok v
    | none => .error (unknownVariable name)

end Term

namespace Predicate

instance : Inhabited Predicate := ⟨top⟩

def isTrue (name : String) : Predicate := eq (.named name) (.value (.bool true))

mutual

def text : Predicate → String
  | conj ps => "(" ++ joinWith " && " (texts ps) ++ ")"
  | disj ps => "(" ++ joinWith " || " (texts ps) ++ ")"
  | neg p => "!(" ++ text p ++ ")"
  | top => "true"
  | bot => "false"
  | eq x y => x.text ++ " == " ++ y.text
  | ne x y => x.text ++ " != " ++ y.text

def texts : List Predicate → List String
  | [] => []
  | p :: ps => text p :: texts ps

end

mutual

def resolve (place : String → Option Nat) : Predicate → Predicate
  | conj ps => conj (resolveAll place ps)
  | disj ps => disj (resolveAll place ps)
  | neg p => neg (resolve place p)
  | top => top
  | bot => bot
  | eq x y => eq (x.resolve place) (y.resolve place)
  | ne x y => ne (x.resolve place) (y.resolve place)

def resolveAll (place : String → Option Nat) : List Predicate → List Predicate
  | [] => []
  | p :: ps => resolve place p :: resolveAll place ps

end

mutual

def agrees : Predicate → Predicate → Bool
  | conj ps, conj qs => agreesAll ps qs
  | disj ps, disj qs => agreesAll ps qs
  | neg p, neg q => agrees p q
  | top, top => true
  | bot, bot => true
  | eq x y, eq x' y' => x.agrees x' && y.agrees y'
  | ne x y, ne x' y' => x.agrees x' && y.agrees y'
  | _, _ => false

def agreesAll : List Predicate → List Predicate → Bool
  | [], [] => true
  | p :: ps, q :: qs => agrees p q && agreesAll ps qs
  | _, _ => false

end

mutual

def occurrences : Predicate → List String
  | conj ps => occurrencesAll ps
  | disj ps => occurrencesAll ps
  | neg p => occurrences p
  | top => []
  | bot => []
  | eq x y => x.support ++ y.support
  | ne x y => x.support ++ y.support

def occurrencesAll : List Predicate → List String
  | [] => []
  | p :: ps => occurrences p ++ occurrencesAll ps

end

def support (p : Predicate) : OrderedSet String := .ofList p.occurrences

mutual

/-- Conditions are evaluated from left to right as far as the result needs it. -/
def eval (s : ModelState) : Predicate → Except CheckError Bool
  | conj ps => evalUntil s false ps
  | disj ps => evalUntil s true ps
  | neg p => (! ·) <$> eval s p
  | top => .ok true
  | bot => .ok false
  | eq x y => do
    let a ← x.eval s
    let b ← y.eval s
    .ok (a = b)
  | ne x y => do
    let a ← x.eval s
    let b ← y.eval s
    .ok (a ≠ b)

def evalUntil (s : ModelState) (decisive : Bool) : List Predicate → Except CheckError Bool
  | [] => .ok !decisive
  | p :: ps => do
    let b ← eval s p
    if b = decisive then .ok decisive else evalUntil s decisive ps

end

end Predicate

structure NamedPredicate where
  name : String
  predicate : Predicate

namespace NamedPredicate

def resolve (place : String → Option Nat) (p : NamedPredicate) : NamedPredicate :=
  { p with predicate := p.predicate.resolve place }

def agrees (p q : NamedPredicate) : Bool := p.name = q.name && p.predicate.agrees q.predicate

end NamedPredicate

end TemporalCheck
