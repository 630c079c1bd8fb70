import TemporalCheck.Text

namespace TemporalCheck

structure RunId where
  digits : List Char
deriving DecidableEq

namespace RunId

/-- Why a text is no run identity. Positions and groups count from zero. -/
inductive ParseError where
  | length (found : Nat)
  | character (found : Char) (position : Nat)
  | groupLength (expected found group : Nat)
  | groupCount (found : Nat)
deriving DecidableEq

def ParseError.message : ParseError → String
  | length found => "invalid length: expected one of [36, 32], found " ++ toString found
  | character found position =>
    "invalid character: expected an optional prefix of `urn:uuid:` followed by " ++
      "0123456789abcdefABCDEF-, found " ++ toString found ++ " at " ++ toString position
  | groupLength expected found group =>
    "invalid group length: expected " ++ toString expected ++ ", found " ++ toString found ++
      " in group " ++ toString group
  | groupCount found => "invalid number of groups: expected one of [1, 5], found " ++ toString found

def groupLengths : List Nat := [8, 4, 4, 4, 12]

def digitsBefore (group : Nat) : Nat := (groupLengths.take group).foldl (· + ·) 0

def isHex (c : Char) : Bool :=
  ('0' ≤ c && c ≤ '9') || ('a' ≤ c && c ≤ 'f') || ('A' ≤ c && c ≤ 'F')

/-- Reads digits and the hyphens between groups. `done` holds the digits in reverse, `position`
counts the bytes read. -/
def scan (length : Nat) : List Char → List Char → Nat → Nat → Except ParseError RunId
  | [], done, group, _ =>
    if done.length = 32 then .ok ⟨done.reverse⟩
    else .error (.groupLength 12 (done.length - digitsBefore 4) group)
  | c :: rest, done, group, position =>
    if 32 ≤ done.length && group ≠ 4 then
      .error (if group = 0 then .length length else .groupCount (group + 1))
    else if isHex c then scan length rest (c.toLower :: done) group (position + 1)
    else if c == '-' then
      if done.length = digitsBefore (group + 1) && group < 5 then
        scan length rest done (group + 1) (position + 1)
      else
        .error (.groupLength (groupLengths[group]?.getD 12)
          (done.length - digitsBefore group) group)
    else .error (.character c position)

def parse (text : String) : Except ParseError RunId :=
  let length := text.utf8ByteSize
  let cs := text.toList
  let urn := "urn:uuid:".toList
  if length = 45 && cs.take 9 = urn then scan length (cs.drop 9) [] 0 0
  else if length ≠ 36 && length ≠ 32 then .error (.length length)
  else scan length cs [] 0 0

def text (id : RunId) : String :=
  let part (start n : Nat) : String := String.ofList ((id.digits.drop start).take n)
  joinWith "-" [part 0 8, part 8 4, part 12 4, part 16 4, part 20 12]

end RunId

/-- A point in universal time: the days since the start of 1970, the second of the day, and the
nanoseconds in it. A leap second is the second billion of nanoseconds in the second before it. -/
structure Timestamp where
  day : Int
  second : Nat
  nanos : Nat
deriving DecidableEq

namespace Timestamp

inductive ParseError where
  | outOfRange
  | invalid
  | tooShort
  | tooLong
  | impossible
deriving DecidableEq

def ParseError.message : ParseError → String
  | outOfRange => "input is out of range"
  | invalid => "input contains invalid characters"
  | tooShort => "premature end of input"
  | tooLong => "trailing input"
  | impossible => "no possible date and time matching input"

def spaceRanges : List (Nat × Nat) :=
  [(0x9, 0xd), (0x20, 0x20), (0x85, 0x85), (0xa0, 0xa0), (0x1680, 0x1680), (0x2000, 0x200a),
    (0x2028, 0x2029), (0x202f, 0x202f), (0x205f, 0x205f), (0x3000, 0x3000)]

def isSpace (c : Char) : Bool := spaceRanges.any fun r => r.1 ≤ c.toNat && c.toNat ≤ r.2

def skipSpace : List Char → List Char := List.dropWhile isSpace

def isDigit (c : Char) : Bool := '0' ≤ c && c ≤ '9'

def valueOf (ds : List Char) : Nat := ds.foldl (fun n c => n * 10 + (c.toNat - '0'.toNat)) 0

def number (width : Nat) (cs : List Char) : Except ParseError (Nat × List Char) :=
  match cs with
  | [] => .error .tooShort
  | c :: _ =>
    if isDigit c then
      let ds := (cs.take width).takeWhile isDigit
      .ok (valueOf ds, cs.drop ds.length)
    else .error .invalid

def field (low high : Nat) (cs : List Char) : Except ParseError (Nat × List Char) := do
  let (n, rest) ← number 2 (skipSpace cs)
  if low ≤ n && n ≤ high then .ok (n, rest) else .error .outOfRange

def year (cs : List Char) : Except ParseError (Int × List Char) := do
  let (y, rest) : Int × List Char ← match skipSpace cs with
    | '-' :: rest => do
      let (n, rest) ← number rest.length rest
      .ok (-n, rest)
    | '+' :: rest => do
      let (n, rest) ← number rest.length rest
      .ok (n, rest)
    | cs => do
      let (n, rest) ← number 4 cs
      .ok (n, rest)
  if -0x80000000 ≤ y && y ≤ 0x7fffffff then .ok (y, rest) else .error .outOfRange

def separator (c : Char) (cs : List Char) : Except ParseError (List Char) :=
  match skipSpace cs with
  | [] => .error .tooShort
  | x :: rest => if x == c then .ok rest else .error .invalid

def fraction (cs : List Char) : Except ParseError (Nat × List Char) :=
  match cs with
  | '.' :: rest => do
    let (_, _) ← number 9 rest
    let ds := rest.takeWhile isDigit
    let kept := ds.take 9
    .ok (valueOf kept * Nat.pow 10 (9 - kept.length), rest.drop ds.length)
  | cs => .ok (0, cs)

def twoDigits (cs : List Char) : Except ParseError (Nat × List Char) :=
  match cs with
  | a :: b :: rest => if isDigit a && isDigit b then .ok (valueOf [a, b], rest) else .error .invalid
  | [a] => .error (if a.toNat < 0x80 then .tooShort else .invalid)
  | [] => .error .tooShort

def zone (cs : List Char) : Except ParseError (Int × List Char) :=
  let offset (sign : Int) (rest : List Char) : Except ParseError (Int × List Char) := do
    let (hours, rest) ← twoDigits rest
    let (minutes, rest) ← twoDigits (rest.dropWhile fun c => c == ':' || isSpace c)
    if 60 ≤ minutes then .error .outOfRange else .ok (sign * (hours * 60 + minutes), rest)
  match cs with
  | [] => .error .tooShort
  | c :: rest =>
    if c == 'Z' || c == 'z' then .ok (0, rest)
    else if ((cs.take 3).map Char.toLower) = ['u', 't', 'c'] then .ok (0, cs.drop 3)
    else if c == '+' then offset 1 rest
    else if c == '-' || c.toNat == 0x2212 then offset (-1) rest
    else .error .invalid

def isLeap (y : Int) : Bool := y % 4 = 0 && (y % 100 ≠ 0 || y % 400 = 0)

def daysInMonth (y : Int) (m : Nat) : Nat :=
  if m = 2 then (if isLeap y then 29 else 28)
  else if m = 4 || m = 6 || m = 9 || m = 11 then 30
  else 31

/-- Days from the start of 1970 to a date; a year is taken to start in March. -/
def daysOfDate (y : Int) (m d : Nat) : Int :=
  let y' := if m ≤ 2 then y - 1 else y
  let era := y'.fdiv 400
  let yearOfEra := y' - era * 400
  let month : Int := (m + 9) % 12
  let dayOfYear := (153 * month + 2) / 5 + d - 1
  let dayOfEra := yearOfEra * 365 + yearOfEra / 4 - yearOfEra / 100 + dayOfYear
  era * 146097 + dayOfEra - 719468

def dateOfDays (days : Int) : Int × Nat × Nat :=
  let z := days + 719468
  let era := z.fdiv 146097
  let dayOfEra := z - era * 146097
  let yearOfEra := (dayOfEra - dayOfEra / 1460 + dayOfEra / 36524 - dayOfEra / 146096) / 365
  let dayOfYear := dayOfEra - (365 * yearOfEra + yearOfEra / 4 - yearOfEra / 100)
  let month := (5 * dayOfYear + 2) / 153
  let day := dayOfYear - (153 * month + 2) / 5 + 1
  let m := if month < 10 then month + 3 else month - 9
  let y := yearOfEra + era * 400
  (if m ≤ 2 then y + 1 else y, m.toNat, day.toNat)

def inRange (y : Int) : Bool := -262143 ≤ y && y ≤ 262142

def ofLocal (y : Int) (m d hour minute second nanos : Nat) (offset : Int) :
    Except ParseError Timestamp :=
  if !inRange y || daysInMonth y m < d || 1440 ≤ offset.natAbs then .error .outOfRange
  else
    let (second, nanos) := if second = 60 then (59, nanos + 1000000000) else (second, nanos)
    let seconds : Int := hour * 3600 + minute * 60 + second - offset * 60
    let day := daysOfDate y m d + seconds.fdiv 86400
    if inRange (dateOfDays day).1 then .ok ⟨day, (seconds.fmod 86400).toNat, nanos⟩
    else .error .impossible

def parse (text : String) : Except ParseError Timestamp := do
  let (y, rest) ← year text.toList
  let (m, rest) ← separator '-' rest >>= field 1 12
  let (d, rest) ← separator '-' rest >>= field 1 31
  let rest ← match rest with
    | [] => .error .tooShort
    | c :: rest => if c == 'T' || c == 't' || c == ' ' then .ok rest else .error .invalid
  let (hour, rest) ← field 0 23 rest
  let (minute, rest) ← separator ':' rest >>= field 0 59
  let (second, rest) ← separator ':' rest >>= field 0 60
  let (nanos, rest) ← fraction rest
  let (offset, rest) ← zone (skipSpace rest)
  if !(skipSpace rest).isEmpty then .error .tooLong
  else ofLocal y m d hour minute second nanos offset

def padded (width n : Nat) : String :=
  let ds := Nat.toDigits 10 n
  String.ofList (List.replicate (width - ds.length) '0' ++ ds)

def fractionText (nanos : Nat) : String :=
  if nanos = 0 then ""
  else if nanos % 1000000 = 0 then "." ++ padded 3 (nanos / 1000000)
  else if nanos % 1000 = 0 then "." ++ padded 6 (nanos / 1000)
  else "." ++ padded 9 nanos

def yearText (y : Int) : String :=
  if 0 ≤ y && y ≤ 9999 then padded 4 y.toNat
  else (if y < 0 then "-" else "+") ++ padded 4 y.natAbs

def text (t : Timestamp) : String :=
  let (y, m, d) := dateOfDays t.day
  let leap := 1000000000 ≤ t.nanos
  let second := if leap then t.second % 60 + 1 else t.second % 60
  let nanos := if leap then t.nanos - 1000000000 else t.nanos
  yearText y ++ "-" ++ padded 2 m ++ "-" ++ padded 2 d ++ "T" ++ padded 2 (t.second / 3600) ++
    ":" ++ padded 2 (t.second / 60 % 60) ++ ":" ++ padded 2 second ++ fractionText nanos ++ "Z"

/-- The nanoseconds from one time to another. A leap second at the earlier time of day counts as
one of its own. -/
def nanosSince (t start : Timestamp) : Int :=
  let leap : Int :=
    if start.second < t.second && 1000000000 ≤ start.nanos then 1
    else if t.second < start.second && 1000000000 ≤ t.nanos then -1
    else 0
  ((t.day - start.day) * 86400 + (t.second - start.second) + leap) * 1000000000 +
    (t.nanos - start.nanos)

end Timestamp

end TemporalCheck
