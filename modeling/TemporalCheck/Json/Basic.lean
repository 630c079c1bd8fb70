import TemporalCheck.Binary64.Shortest
import TemporalCheck.OrderedSet
import TemporalCheck.Text

/-!
JSON values. Members of an object keep the order and the repetitions of the text. A text may follow
the grammar and hold parts without a value; these have a place here too, since they matter only to
who looks at them.
-/

namespace TemporalCheck

inductive Json.Flaw where
  | numberTooLarge
  | halfPair
  | brokenPair
deriving DecidableEq

/-- A JSON value. Integers that fit 64 bits are `int`, all other numbers `real`. A number or string
with a flaw is `flawed`, an object up to a key with a flaw is `cut`, and an array or object inside
too many others is `buried`. -/
inductive Json where
  | null
  | bool (b : Bool)
  | int (n : Int)
  | real (negative : Bool) (size : Binary64)
  | str (s : String)
  | arr (items : List Json)
  | obj (members : List (String × Json))
  | flawed (flaw : Json.Flaw)
  | cut (members : List (String × Json)) (flaw : Json.Flaw)
  | buried (isObject : Bool)

namespace Json

def Flaw.message : Flaw → String
  | numberTooLarge => "number out of range"
  | halfPair => "unexpected end of hex escape"
  | brokenPair => "lone leading surrogate in hex escape"

instance : Inhabited Json := ⟨null⟩

def ofNat (n : Nat) : Json := int n

def list {α : Type} (f : α → Json) (items : List α) : Json := arr (items.map f)

def strings (items : List String) : Json := list str items

def option {α : Type} (f : α → Json) : Option α → Json
  | none => null
  | some a => f a

def tagged (tag : String) (value : Json) : Json := obj [(tag, value)]

/-- The member of an object under a key; the last one wins. -/
def get? (key : String) : Json → Option Json
  | obj members => (members.reverse.find? (·.1 == key)).map (·.2)
  | _ => none

def canonicalMembers (members : List (String × Json)) : List (String × Json) :=
  let keys := OrderedSet.ofList (members.map (·.1))
  keys.toList.filterMap fun key => (members.reverse.find? (·.1 == key)).map fun m => (key, m.2)

def hexDigit (n : Nat) : Char := (Nat.digitChar n)

def escapeChar (c : Char) : List Char :=
  if c == '"' then ['\\', '"']
  else if c == '\\' then ['\\', '\\']
  else if c.toNat < 32 then ['\\', 'u', '0', '0', hexDigit (c.toNat / 16), hexDigit (c.toNat % 16)]
  else [c]

def quoted (s : String) : String :=
  String.ofList ('"' :: s.toList.flatMap escapeChar ++ ['"'])

def realText (negative : Bool) (size : Binary64) : String :=
  (if negative then "-" else "") ++ size.text

mutual

/-- The text of a value without blanks. Parts without a value leave `null` or an empty bracket. -/
def render : Json → String
  | null => "null"
  | bool b => if b then "true" else "false"
  | int n => toString n
  | real negative size => realText negative size
  | str s => quoted s
  | arr items => "[" ++ joinWith "," (renderItems items) ++ "]"
  | obj members => "\x7b" ++ joinWith "," (renderMembers members) ++ "\x7d"
  | flawed _ => "null"
  | cut members _ => "\x7b" ++ joinWith "," (renderMembers members) ++ "\x7d"
  | buried isObject => if isObject then "\x7b\x7d" else "[]"

def renderItems : List Json → List String
  | [] => []
  | v :: vs => render v :: renderItems vs

def renderMembers : List (String × Json) → List String
  | [] => []
  | (k, v) :: ms => (quoted k ++ ":" ++ render v) :: renderMembers ms

end

end Json

end TemporalCheck
