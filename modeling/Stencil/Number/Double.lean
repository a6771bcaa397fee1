/-
Numbers of binary floating point with 53 bits of precision, by exact arithmetic on natural numbers.
A finite number is `±mantissa · 2^exponent` in its one normal form: the mantissa has 53 bits, or the
exponent is the least one. `round` takes a ratio to the nearest such number, a tie to the even
mantissa.
-/

namespace Stencil

/-- A binary floating point number of double precision. -/
inductive Double
  | nan
  | infinite (negative : Bool)
  | finite (negative : Bool) (mantissa : Nat) (exponent : Int)
deriving DecidableEq, Repr

namespace Double

/-- The exponent of the finest numbers. -/
def leastExponent : Int := -1074

/-- The exponent of the coarsest numbers. -/
def greatestExponent : Int := 971

def zero (negative : Bool) : Double := .finite negative 0 leastExponent

/-! ## Rounding -/

/-- The quotient rounded to the nearest integer, a tie to the even one. -/
def nearest (num den : Nat) : Nat :=
  let q := num / den
  let r := num % den
  if 2 * r < den then q
  else if den < 2 * r then q + 1
  else if q % 2 = 0 then q else q + 1

/-- The ratio `num / den · 2^e` as a numerator and a denominator. -/
def scale (num den : Nat) (e : Int) : Nat × Nat :=
  if 0 ≤ e then (num * Nat.pow 2 e.toNat, den) else (num, den * Nat.pow 2 (-e).toNat)

/-- The exponent at which a positive ratio has 53 bits before the point. -/
def exponentOf (num den : Nat) : Int :=
  let e : Int := num.log2 - den.log2 - 52
  let (n, d) := scale num den (-e)
  if d * Nat.pow 2 52 ≤ n then e else e - 1

/-- The number nearest to `±num / den`, of two the one with the even mantissa; a ratio too large for
the finite numbers becomes infinite. -/
def round (negative : Bool) (num den : Nat) : Double :=
  if num = 0 then zero negative
  else
    let e := max leastExponent (exponentOf num den)
    let (n, d) := scale num den (-e)
    let m := nearest n d
    let (m, e) := if m = Nat.pow 2 53 then (Nat.pow 2 52, e + 1) else (m, e)
    if greatestExponent < e then .infinite negative else .finite negative m e

/-- The number nearest to `±digits · 10^exponent`. Exponents far outside the range are decided by the
count of digits alone. -/
def ofDecimal (negative : Bool) (digits : Nat) (exponent : Int) : Double :=
  if digits = 0 then zero negative
  else if 400 < exponent then .infinite negative
  else if exponent + digits.log2 < -1200 then zero negative
  else if 0 ≤ exponent then round negative (digits * Nat.pow 10 exponent.toNat) 1
  else round negative digits (Nat.pow 10 (-exponent).toNat)

def ofNat (n : Nat) : Double := round false n 1

def ofInt (i : Int) : Double := round (i < 0) i.natAbs 1

/-! ## Integers among the numbers -/

/-- The integer that a finite number is, if it is one. -/
def toInt? : Double → Option Int
  | .finite negative m e =>
    let magnitude : Option Nat :=
      if 0 ≤ e then some (m * Nat.pow 2 e.toNat)
      else if m % Nat.pow 2 (-e).toNat = 0 then some (m / Nat.pow 2 (-e).toNat)
      else none
    magnitude.map fun (n : Nat) => if negative then -(n : Int) else n
  | _ => none

/-- The greatest integer below which every integer is a number of its own. -/
def greatestSafe : Nat := Nat.pow 2 53 - 1

/-- The number is an integer whose neighbours are numbers too. -/
def isSafeInteger (x : Double) : Bool := x.toInt?.any fun i => i.natAbs ≤ greatestSafe

end Double
end Stencil
