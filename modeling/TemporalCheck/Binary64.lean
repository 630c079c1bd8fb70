namespace TemporalCheck

/-- The number `mantissa * 2 ^ exponent` with at most 53 bits in the mantissa. -/
structure Binary64 where
  mantissa : Nat
  exponent : Int
deriving DecidableEq

def scaled (m base : Nat) (e : Int) : Nat × Nat :=
  if 0 ≤ e then (m * Nat.pow base e.toNat, 1) else (m, Nat.pow base (-e).toNat)

def roundQuotient (num den : Nat) : Nat :=
  let q := num / den
  let r := num % den
  if 2 * r < den then q else if den < 2 * r then q + 1 else q + q % 2

namespace Binary64

def zero : Binary64 := ⟨0, 0⟩

def isZero (x : Binary64) : Bool := x.mantissa == 0

def nearest (num den : Nat) : Option Binary64 :=
  let guess : Int := num.log2 - den.log2 - 52
  let units (e : Int) : Nat × Nat :=
    if 0 ≤ e then (num, den * Nat.pow 2 e.toNat) else (num * Nat.pow 2 (-e).toNat, den)
  let guess := if (units guess).1 / (units guess).2 < Nat.pow 2 52 then guess - 1 else guess
  let e := max guess (-1074)
  let m := roundQuotient (units e).1 (units e).2
  let (m, e) := if m = Nat.pow 2 53 then (Nat.pow 2 52, e + 1) else (m, e)
  if 971 < e then none else some ⟨m, e⟩

def ofNat (n : Nat) : Option Binary64 := nearest n 1

def tenPower (n : Nat) : Option Binary64 := nearest (Nat.pow 10 n) 1

def mul (x y : Binary64) : Option Binary64 :=
  let (num, den) := scaled (x.mantissa * y.mantissa) 2 (x.exponent + y.exponent)
  nearest num den

def div (x y : Binary64) : Option Binary64 :=
  let (a, b) := scaled x.mantissa 2 x.exponent
  let (c, d) := scaled y.mantissa 2 y.exponent
  nearest (a * d) (b * c)

/-- A number times `10 ^ e`, by one product, one quotient, or two quotients where the power itself
is beyond the range of numbers. -/
def timesTenPower (x : Binary64) (e : Int) : Option Binary64 :=
  if x.isZero then some x
  else if 308 < e then none
  else if 0 ≤ e then tenPower e.toNat >>= x.mul
  else if -308 ≤ e then tenPower (-e).toNat >>= x.div
  else if -616 ≤ e then do
    let y ← tenPower 308 >>= x.div
    tenPower (-e - 308).toNat >>= y.div
  else some zero

end Binary64

end TemporalCheck
