import TemporalCheck.Json.Basic

namespace TemporalCheck.Json

def isDigit (c : Char) : Bool := '0' ≤ c && c ≤ '9'

def digitValue (c : Char) : Nat := c.toNat - '0'.toNat

def digitsValue (cs : List Char) : Nat := cs.foldl (fun n c => n * 10 + digitValue c) 0

def digits? (cs : List Char) : Option (List Char × List Char) :=
  let ds := cs.takeWhile isDigit
  if ds.isEmpty then none else some (ds, cs.dropWhile isDigit)

def fraction? : List Char → Option (Option (List Char) × List Char)
  | '.' :: rest => (digits? rest).map fun (ds, rest) => (some ds, rest)
  | rest => some (none, rest)

def exponent? : List Char → Option (Option Int × List Char)
  | c :: rest =>
    if c == 'e' || c == 'E' then
      let (sign, rest) : Int × List Char :=
        match rest with
        | '+' :: rest => (1, rest)
        | '-' :: rest => (-1, rest)
        | rest => (1, rest)
      (digits? rest).map fun (ds, rest) => (some (sign * digitsValue ds), rest)
    else some (none, c :: rest)
  | [] => some (none, [])

structure Numeral where
  negative : Bool
  whole : List Char
  fraction : Option (List Char)
  exponent : Option Int

def numeral? (cs : List Char) : Option (Numeral × List Char) := do
  let (negative, cs) := match cs with
    | '-' :: rest => (true, rest)
    | _ => (false, cs)
  let (whole, rest) ← digits? cs
  if whole.head? == some '0' && 1 < whole.length then none
  else do
    let (fraction, rest) ← fraction? rest
    let (exponent, rest) ← exponent? rest
    some (⟨negative, whole, fraction, exponent⟩, rest)

namespace Numeral

def largest : Nat := 0xffffffffffffffff

def wholePart (significand : Nat) : List Char → Nat × Nat
  | [] => (significand, 0)
  | c :: rest =>
    let next := significand * 10 + digitValue c
    if next ≤ largest then wholePart next rest else (significand, rest.length + 1)

def fractionPart (significand : Nat) : List Char → Nat × Nat
  | [] => (significand, 0)
  | c :: rest =>
    let next := significand * 10 + digitValue c
    if next ≤ largest then
      let (n, places) := fractionPart next rest
      (n, places + 1)
    else (significand, 0)

/-- The double precision number next to the digits that fit 64 bits, scaled by the exponent,
`none` where it is too large. A written exponent beyond 32 bits only leaves room for zero. -/
def size? (x : Numeral) : Option Binary64 :=
  let (n, dropped) := wholePart 0 x.whole
  let (n, places) := fractionPart n (x.fraction.getD [])
  let written := x.exponent.getD 0
  if 0x7fffffff < written.natAbs then
    if n = 0 || written < 0 then some .zero else none
  else do
    let s ← Binary64.ofNat n
    s.timesTenPower (dropped - places + written)

/-- An integer if the number is written as one and fits 64 bits, but `-0` is none. -/
def value (x : Numeral) : Json :=
  let n := digitsValue x.whole
  let plain := x.fraction.isNone && x.exponent.isNone
  if plain && !x.negative && n ≤ largest then int n
  else if plain && x.negative && 0 < n && n ≤ 0x8000000000000000 then int (-n)
  else
    match x.size? with
    | some size => real x.negative size
    | none => flawed .numberTooLarge

end Numeral

end TemporalCheck.Json
