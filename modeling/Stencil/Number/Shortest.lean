/-
The shortest decimal of a number: the fewest digits that read back as it, of those the nearest to it,
of two equally near the even one. Candidates are the two neighbours of the number on the grid of one,
two, … seventeen digits; each is accepted only if it reads back, and the exact expansion, which always
reads back, stands behind them.
-/
import Stencil.Number.Double

namespace Stencil

/-- The decimal `digits · 10^exponent`. -/
structure Decimal where
  digits : Nat
  exponent : Int
deriving DecidableEq, Repr

namespace Decimal

/-- The same decimal without zeros at the end of its digits. -/
def normalize (d : Decimal) : Decimal :=
  if h : d.digits ≠ 0 ∧ d.digits % 10 = 0 then normalize ⟨d.digits / 10, d.exponent + 1⟩ else d
termination_by d.digits
decreasing_by exact Nat.div_lt_self (Nat.pos_of_ne_zero h.1) (by decide)

def toDouble (d : Decimal) : Double := .ofDecimal false d.digits d.exponent

end Decimal

namespace Double

/-- The ratio of a mantissa with its exponent. -/
def ratio (m : Nat) (e : Int) : Nat × Nat := scale m 1 e

/-- The ratio `num / den · 10^e`. -/
def scaleTen (num den : Nat) (e : Int) : Nat × Nat :=
  if 0 ≤ e then (num * Nat.pow 10 e.toNat, den) else (num, den * Nat.pow 10 (-e).toNat)

/-- The number of digits before the point of a positive ratio; zero and below count zeros after it. -/
def decimalPlace (num den : Nat) : Int :=
  let guess : Int := (((num.log2 : Int) - den.log2) * 30103) / 100000
  let reaches (p : Int) : Bool :=
    let (n, d) := scaleTen num den (-p)
    n < d
  (([-1, 0, 1, 2] : List Int).map (guess + ·)).find? reaches |>.getD (guess + 3)

/-- The neighbours of a ratio on the grid of multiples of `10^p`, the nearer one first. -/
def neighbours (num den : Nat) (p : Int) : List Decimal :=
  let (n, d) := scaleTen num den (-p)
  let q := n / d
  let below : Decimal := ⟨q, p⟩
  let above : Decimal := ⟨q + 1, p⟩
  if nearest n d = q then [below, above] else [above, below]

/-- The decimal that a positive finite number is, digit by digit. -/
def expansion (m : Nat) (e : Int) : Decimal :=
  if 0 ≤ e then ⟨m * Nat.pow 2 e.toNat, 0⟩ else ⟨m * Nat.pow 5 (-e).toNat, e⟩

/-- The shortest decimal of a positive finite number. -/
def shortest (m : Nat) (e : Int) : Decimal :=
  let (num, den) := ratio m e
  let place := decimalPlace num den
  let grids := (List.range 17).map fun (k : Nat) => neighbours num den (place - (k + 1))
  let reads (d : Decimal) : Bool := d.toDouble == .finite false m e
  ((grids.findSome? (·.find? reads)).getD (expansion m e)).normalize

end Double
end Stencil
