/-
Positional numerals: the digits of a natural number in a base up to sixteen, and the number that a
run of digits denotes.
-/
import Stencil.Text.Unit

namespace Stencil.Text

/-- The unit of a digit below sixteen. -/
def digitUnit (d : Nat) : CodeUnit :=
  if d < 10 then unit '0' + d.toUInt16 else unit 'a' + (d - 10).toUInt16

/-- The digits of `n`, the last one first; zero has none. -/
def digitsReversed (base : Nat) (h : 1 < base) (n : Nat) : List Nat :=
  if _h0 : n = 0 then [] else n % base :: digitsReversed base h (n / base)
termination_by n
decreasing_by exact Nat.div_lt_self (Nat.pos_of_ne_zero _h0) h

/-- The decimal numeral of a natural number. -/
def ofNat (n : Nat) : Text :=
  if n = 0 then [unit '0'] else (digitsReversed 10 (by decide) n).reverse.map digitUnit

/-- The decimal numeral of an integer, with `-` before a negative one. -/
def ofInt (i : Int) : Text := if i < 0 then unit '-' :: ofNat i.natAbs else ofNat i.natAbs

/-- The four hexadecimal digits of a unit, in lower case. -/
def hex4 (c : CodeUnit) : Text :=
  [c.toNat / 4096, c.toNat / 256 % 16, c.toNat / 16 % 16, c.toNat % 16].map digitUnit

/-- The value of a digit, which letters continue after nine. -/
def digitValue? (c : CodeUnit) : Option Nat :=
  if isDigit c then some (c.toNat - 48)
  else if unit 'a' ≤ c && c ≤ unit 'f' then some (c.toNat - 87)
  else if unit 'A' ≤ c && c ≤ unit 'F' then some (c.toNat - 55)
  else none

def isDigitOf (base : Nat) (c : CodeUnit) : Bool := (digitValue? c).any (· < base)

/-- The number denoted by a run of digits in `base`; other units count as zero. -/
def value (base : Nat) (t : Text) : Nat :=
  t.foldl (fun n c => n * base + (digitValue? c).getD 0) 0

/-- The number denoted by a non-empty run of digits in `base`. -/
def value? (base : Nat) (t : Text) : Option Nat :=
  if t ≠ [] ∧ t.all (isDigitOf base) then some (value base t) else none

end Stencil.Text
