import TemporalCheck.Binary64

namespace TemporalCheck.Binary64

def digitCount (n : Nat) : Nat := (Nat.toDigits 10 n).length

def leadingExponent (num den : Nat) : Int :=
  let guess : Int := digitCount num - digitCount den
  let (a, b) := scaled 1 10 guess
  if num * b < a * den then guess - 1 else guess

/-- The neighbour of a number on the grid of `places` digits that reads back as it, the nearer one
if both do, the even one if both are as near. -/
def onGrid (x : Binary64) (num den : Nat) (lead : Int) (places : Nat) : Option (Nat × Int) :=
  let e := lead - places + 1
  let (a, b) := scaled 1 10 e
  let low := num * b / (den * a)
  let near := roundQuotient (num * b) (den * a)
  let far := if near = low then low + 1 else low
  let reads (n : Nat) : Bool := 0 < n && nearest (n * a) b == some x
  if reads near then some (near, e) else if reads far then some (far, e) else none

def shortest (x : Binary64) : Nat × Int :=
  let (num, den) := scaled x.mantissa 2 x.exponent
  let lead := leadingExponent num den
  ((List.range 17).findSome? fun n => onGrid x num den lead (n + 1)).getD (0, 0)

def positional (digits : List Char) (point : Int) : List Char :=
  if point ≤ 0 then ['0', '.'] ++ List.replicate (-point).toNat '0' ++ digits
  else if digits.length ≤ point.toNat then
    digits ++ List.replicate (point.toNat - digits.length) '0' ++ ['.', '0']
  else digits.take point.toNat ++ ['.'] ++ digits.drop point.toNat

def scientific (digits : List Char) (e : Int) : List Char :=
  let fraction := digits.drop 1
  digits.take 1 ++ (if fraction.isEmpty then [] else '.' :: fraction) ++
    ['e', if e < 0 then '-' else '+'] ++ Nat.toDigits 10 e.natAbs

/-- The fewest digits that read back, positional for leading exponents from -5 to 15. -/
def text (x : Binary64) : String :=
  if x.isZero then "0.0"
  else
    let (n, e) := shortest x
    let written := Nat.toDigits 10 n
    let lead := e + written.length - 1
    let digits := (written.reverse.dropWhile (· == '0')).reverse
    String.ofList
      (if -5 ≤ lead && lead ≤ 15 then positional digits (lead + 1) else scientific digits lead)

end TemporalCheck.Binary64
