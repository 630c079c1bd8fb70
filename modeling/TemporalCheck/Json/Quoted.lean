import TemporalCheck.Json.Basic

namespace TemporalCheck.Json

def hexValue? (c : Char) : Option Nat :=
  if '0' ≤ c && c ≤ '9' then some (c.toNat - '0'.toNat)
  else if 'a' ≤ c && c ≤ 'f' then some (c.toNat - 'a'.toNat + 10)
  else if 'A' ≤ c && c ≤ 'F' then some (c.toNat - 'A'.toNat + 10)
  else none

def hexWord? (a b c d : Char) : Option Nat := do
  let a ← hexValue? a
  let b ← hexValue? b
  let c ← hexValue? c
  let d ← hexValue? d
  some (((a * 16 + b) * 16 + c) * 16 + d)

/-- A part of a string: a character, or a number of 16 bits that is one or half of one. -/
inductive Piece where
  | plain (c : Char)
  | code (n : Nat)

def escape? : Char → Option Char
  | '"' => some '"'
  | '\\' => some '\\'
  | '/' => some '/'
  | 'b' => some '\x08'
  | 'f' => some '\x0c'
  | 'n' => some '\n'
  | 'r' => some '\r'
  | 't' => some '\t'
  | _ => none

def pieces? (done : List Piece) : List Char → Option (List Piece × List Char)
  | '"' :: rest => some (done.reverse, rest)
  | '\\' :: 'u' :: a :: b :: c :: d :: rest =>
    match hexWord? a b c d with
    | some n => pieces? (.code n :: done) rest
    | none => none
  | '\\' :: e :: rest =>
    match escape? e with
    | some c => pieces? (.plain c :: done) rest
    | none => none
  | c :: rest => if c.toNat < 32 then none else pieces? (.plain c :: done) rest
  | [] => none

def isLeadingHalf (n : Nat) : Bool := 0xD800 ≤ n && n < 0xDC00

def isTrailingHalf (n : Nat) : Bool := 0xDC00 ≤ n && n < 0xE000

/-- The characters of a string. A character beyond 16 bits is written in two halves, which must
stand together. -/
def characters (done : List Char) : List Piece → Except Flaw (List Char)
  | [] => .ok done.reverse
  | .plain c :: rest => characters (c :: done) rest
  | .code n :: rest =>
    if isTrailingHalf n then .error .brokenPair
    else if isLeadingHalf n then
      match rest with
      | .code low :: rest =>
        if isTrailingHalf low then
          characters (Char.ofNat (0x10000 + (n - 0xD800) * 0x400 + (low - 0xDC00)) :: done) rest
        else .error .brokenPair
      | _ => .error .halfPair
    else characters (Char.ofNat n :: done) rest

def string? (cs : List Char) : Option (Except Flaw String × List Char) :=
  (pieces? [] cs).map fun (ps, rest) => ((characters [] ps).map String.ofList, rest)

end TemporalCheck.Json
