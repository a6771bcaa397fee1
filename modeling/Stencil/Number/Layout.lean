/-
The written form of a number: the shortest decimal, laid out positionally where its point falls
within bounds and with an exponent elsewhere. The bounds are one record, `Layout.plain`.
-/
import Stencil.Number.Shortest
import Stencil.Text.Numeral

namespace Stencil

/-- Where numbers are written positionally, and the texts of the numbers without digits. -/
structure Layout where
  /-- At most this many digits stand before the point. -/
  wholeDigits : Int
  /-- At most this many zeros, less one, stand between the point and the first digit. -/
  leadingZeros : Int
  nan : Text
  infinity : Text

namespace Layout

/-- Up to 21 digits before the point, up to five zeros after it, an exponent with its sign elsewhere. -/
def plain : Layout := ⟨21, 6, "NaN", "Infinity"⟩

def zeros (n : Int) : Text := List.replicate n.toNat (Text.unit '0')

/-- The digits `s`, the point standing after the first `point` of them. -/
def place (l : Layout) (s : Text) (point : Int) : Text :=
  let count : Int := s.length
  if count ≤ point ∧ point ≤ l.wholeDigits then s ++ zeros (point - count)
  else if 0 < point ∧ point ≤ l.wholeDigits then
    s.take point.toNat ++ "." ++ s.drop point.toNat
  else if -l.leadingZeros < point ∧ point ≤ 0 then "0." ++ zeros (-point) ++ s
  else
    let exponent := point - 1
    let sign : Text := if exponent < 0 then "-" else "+"
    let fraction : Text := if count = 1 then [] else Text.unit '.' :: s.drop 1
    s.take 1 ++ fraction ++ "e" ++ sign ++ Text.ofNat exponent.natAbs

/-- The text of a number; the sign of zero is not written. -/
def write (l : Layout) : Double → Text
  | .nan => l.nan
  | .infinite negative => (if negative then [Text.unit '-'] else []) ++ l.infinity
  | .finite negative m e =>
    if m = 0 then [Text.unit '0']
    else
      let d := Double.shortest m e
      let s := Text.ofNat d.digits
      (if negative then [Text.unit '-'] else []) ++ l.place s (s.length + d.exponent)

end Layout

/-- The text of a number in the plain layout. -/
def Double.toText (x : Double) : Text := Layout.plain.write x

/-- The text of a natural number as a number: a great one is rounded, and the greatest have an exponent. -/
def Double.natText (n : Nat) : Text := (ofNat n).toText

end Stencil
