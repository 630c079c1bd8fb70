import TemporalCheck.Json.Reader
import TemporalCheck.Text

namespace TemporalCheck.Json

inductive ShapeError where
  | wrongType (found expected : String)
  | outOfRange (n : Int) (expected : String)
  | missingField (name : String)
  | duplicateField (name : String)
  | unknownVariant (name : String) (known : List String)
  | wrongLength (n : Nat) (expected : String)
  | leftOver
  | noValue
  | tooDeep
  | flaw (f : Flaw)
  | unreadable (reason : String)
deriving DecidableEq

def inTicks (s : String) : String := "`" ++ s ++ "`"

namespace ShapeError

def alternatives : List String → String
  | [] => "there are no variants"
  | [a] => "expected " ++ inTicks a
  | [a, b] => "expected " ++ inTicks a ++ " or " ++ inTicks b
  | names => "expected one of " ++ joinWith ", " (names.map inTicks)

def message : ShapeError → String
  | wrongType found expected => "invalid type: " ++ found ++ ", expected " ++ expected
  | outOfRange n expected => "invalid value: integer `" ++ toString n ++ "`, expected " ++ expected
  | missingField name => "missing field " ++ inTicks name
  | duplicateField name => "duplicate field " ++ inTicks name
  | unknownVariant name known => "unknown variant " ++ inTicks name ++ ", " ++ alternatives known
  | wrongLength n expected => "invalid length " ++ toString n ++ ", expected " ++ expected
  | leftOver => "trailing characters"
  | noValue => "expected value"
  | tooDeep => "recursion limit exceeded"
  | flaw f => f.message
  | unreadable reason => reason

end ShapeError

def hexText (n : Nat) : List Char := Nat.toDigits 16 n

def wordChar (c : Char) : List Char :=
  if c == '"' then ['\\', '"']
  else if c == '\\' then ['\\', '\\']
  else if c == '\n' then ['\\', 'n']
  else if c == '\r' then ['\\', 'r']
  else if c == '\t' then ['\\', 't']
  else if c.toNat == 0 then ['\\', '0']
  else if isHidden c then
    ['\\', 'u', '\x7b'] ++ hexText c.toNat ++ ['\x7d']
  else [c]

def describe : Json → Except Flaw String
  | null => .ok "null"
  | bool b => .ok ("boolean " ++ inTicks (if b then "true" else "false"))
  | int n => .ok ("integer " ++ inTicks (toString n))
  | real negative size => .ok ("floating point " ++ inTicks (realText negative size))
  | str s => .ok ("string " ++ String.ofList ('"' :: s.toList.flatMap wordChar ++ ['"']))
  | arr _ => .ok "sequence"
  | obj _ => .ok "map"
  | flawed f => .error f
  | cut _ _ => .ok "map"
  | buried isObject => .ok (if isObject then "map" else "sequence")

abbrev Shape (α : Type) := Json → Except ShapeError α

namespace Shape

variable {α β : Type}

def mismatch (v : Json) (expected : String) : Except ShapeError α :=
  match v.describe with
  | .ok found => .error (.wrongType found expected)
  | .error f => .error (.flaw f)

def boolean : Shape Bool
  | bool b => .ok b
  | v => mismatch v "a boolean"

def text : Shape String
  | str s => .ok s
  | v => mismatch v "a string"

def integer (name : String) (low high : Int) : Shape Int
  | int n => if low ≤ n && n ≤ high then .ok n else .error (.outOfRange n name)
  | v => mismatch v name

def natural : Shape Nat := fun v => Int.toNat <$> integer "usize" 0 0xffffffffffffffff v

def unsigned32 : Shape UInt32 := fun v =>
  (fun n => n.toNat.toUInt32) <$> integer "u32" 0 0xffffffff v

def signed32 : Shape Int32 := fun v => Int32.ofInt <$> integer "i32" (-0x80000000) 0x7fffffff v

def list (item : Shape α) : Shape (List α)
  | arr vs => vs.mapM item
  | buried false => .error .tooDeep
  | v => mismatch v "a sequence"

def orNull (some : Shape α) : Shape (Option α)
  | null => .ok none
  | v => Option.some <$> some v

def pair (label : String) (first : Shape α) (second : Shape β) : Shape (α × β)
  | arr [] => .error (.wrongLength 0 (label ++ " with 2 elements"))
  | arr [x] => do
    let _ ← first x
    .error (.wrongLength 1 (label ++ " with 2 elements"))
  | arr (x :: y :: rest) => do
    let a ← first x
    let b ← second y
    if rest.isEmpty then .ok (a, b) else .error .leftOver
  | buried false => .error .tooDeep
  | v => mismatch v label

end Shape

/-- The fields of a record in declaration order, and how to gather them one by one. -/
structure Fields (α : Type) where
  Partial : Type
  names : List String
  lenient : Bool
  start : Partial
  isSet : Nat → Partial → Bool
  put : Nat → Json → Partial → Except ShapeError Partial
  finish : Partial → Except ShapeError α

namespace Fields

variable {α β : Type}

def none (a : α) : Fields α :=
  ⟨Unit, [], true, (), fun _ _ => false, fun _ _ u => .ok u, fun _ => .ok a⟩

def required (name : String) (shape : Shape α) : Fields α where
  Partial := Option α
  names := [name]
  lenient := false
  start := Option.none
  isSet _ s := s.isSome
  put _ v _ := some <$> shape v
  finish s := match s with
    | some a => .ok a
    | Option.none => .error (.missingField name)

def withDefault (name : String) (value : α) (shape : Shape α) : Fields α where
  Partial := Option α
  names := [name]
  lenient := true
  start := Option.none
  isSet _ s := s.isSome
  put _ v _ := some <$> shape v
  finish s := .ok (s.getD value)

def and (r : Fields (α → β)) (s : Fields α) : Fields β where
  Partial := r.Partial × s.Partial
  names := r.names ++ s.names
  lenient := r.lenient && s.lenient
  start := (r.start, s.start)
  isSet i p := if i < r.names.length then r.isSet i p.1 else s.isSet (i - r.names.length) p.2
  put i v p :=
    if i < r.names.length then (·, p.2) <$> r.put i v p.1
    else (p.1, ·) <$> s.put (i - r.names.length) v p.2
  finish p := do
    let f ← r.finish p.1
    let a ← s.finish p.2
    .ok (f a)

/-- Members in the order of the text; unknown ones are passed over. -/
def fromMembers (r : Fields α) : List (String × Json) → r.Partial → Except ShapeError r.Partial
  | [], p => .ok p
  | (key, v) :: rest, p =>
    match r.names.idxOf? key with
    | Option.none => fromMembers r rest p
    | some i =>
      if r.isSet i p then .error (.duplicateField key)
      else do
        let p ← r.put i v p
        fromMembers r rest p

def fromItems (r : Fields α) : List Json → Nat → r.Partial → Except ShapeError r.Partial
  | [], _, p => .ok p
  | v :: rest, i, p =>
    if i < r.names.length then do
      let p ← r.put i v p
      fromItems r rest (i + 1) p
    else .error .leftOver

def count (n : Nat) : String := toString n ++ (if n = 1 then " element" else " elements")

def shape (label : String) (r : Fields α) : Shape α
  | obj members => fromMembers r members r.start >>= r.finish
  | arr items =>
    if items.length < r.names.length && !r.lenient then do
      let _ ← fromItems r items 0 r.start
      .error (.wrongLength items.length (label ++ " with " ++ count r.names.length))
    else fromItems r items 0 r.start >>= r.finish
  | cut members f => do
    let _ ← fromMembers r members r.start
    .error (.flaw f)
  | buried _ => .error .tooDeep
  | v => Shape.mismatch v label

end Fields

/-- One alternative of a choice: a bare name, or a name with a payload of some kind. -/
inductive Variant (α : Type) where
  | bare (value : α)
  | payload (kind : String) (shape : Shape α)

namespace Variant

variable {α β : Type}

def single (build : α → β) (shape : Shape α) : Variant β :=
  payload "newtype variant" fun v => build <$> shape v

def double (label : String) (build : α → α → β) (shape : Shape α) : Variant β :=
  payload "tuple variant" fun v =>
    (fun p => build p.1 p.2) <$> Shape.pair ("tuple variant " ++ label) shape shape v

def fields (label : String) (r : Fields α) : Variant α :=
  payload "struct variant" (r.shape ("struct variant " ++ label))

def alone : Variant α → Except ShapeError α
  | bare a => .ok a
  | payload kind _ => .error (.wrongType "unit variant" kind)

def under (v : Json) : Variant α → Except ShapeError α
  | bare a => match v with
    | null => .ok a
    | v => Shape.mismatch v "unit"
  | payload _ shape => shape v

end Variant

def Shape.choice {α : Type} (variants : List (String × Variant α)) : Shape α :=
  let find (name : String) : Except ShapeError (Variant α) :=
    match variants.lookup name with
    | some v => .ok v
    | none => .error (.unknownVariant name (variants.map (·.1)))
  fun
  | str s => find s >>= Variant.alone
  | obj [(key, v)] => find key >>= Variant.under v
  | obj ((key, v) :: _ :: _) | cut ((key, v) :: _) _ => do
    let _ ← find key >>= Variant.under v
    .error .noValue
  | flawed .numberTooLarge => .error .noValue
  | cut [] f | flawed f => .error (.flaw f)
  | buried true => .error .tooDeep
  | _ => .error .noValue

mutual

def depth : Json → Nat
  | arr items => depthOfItems items + 1
  | obj members => depthOfMembers members + 1
  | cut members _ => depthOfMembers members + 1
  | _ => 0

def depthOfItems : List Json → Nat
  | [] => 0
  | v :: vs => max (depth v) (depthOfItems vs)

def depthOfMembers : List (String × Json) → Nat
  | [] => 0
  | (_, v) :: ms => max (depth v) (depthOfMembers ms)

end

def Shape.unfolded {α : Type} (step : Shape α → Shape α) : Nat → Shape α
  | 0 => fun _ => .error .noValue
  | n + 1 => step (unfolded step n)

/-- A shape that refers to itself, followed as deep as the value nests. -/
def Shape.recursive {α : Type} (step : Shape α → Shape α) : Shape α := fun v =>
  unfolded step (v.depth + 1) v

inductive TextError where
  | notJson
  | shape (e : ShapeError)
deriving DecidableEq

def Shape.read {α : Type} (shape : Shape α) (text : String) : Except TextError α :=
  match parse? text with
  | none => .error .notJson
  | some v => (shape v).mapError .shape

end TemporalCheck.Json
