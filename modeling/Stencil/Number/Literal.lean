/-
Reading numbers from texts that stand alone: blanks around them do not count, the empty text is zero,
and besides decimals there are `Infinity` and the bases sixteen, eight and two. `Double.read` gives the
nearest number, `Text.integer?` the exact integer.
-/
import Stencil.Number.Double
import Stencil.Text.Blank
import Stencil.Text.Numeral
import Stencil.Text.Search

namespace Stencil

namespace Text

/-- The sign before a numeral, and what follows it. -/
def takeSign : Text → Bool × Text
  | [] => (false, [])
  | c :: t => if c = unit '-' then (true, t) else if c = unit '+' then (false, t) else (false, c :: t)

/-- A numeral in base sixteen, eight or two, marked by `0x`, `0o` or `0b`. -/
def basedNatural? : Text → Option Nat
  | z :: b :: t =>
    if z ≠ unit '0' then none
    else if lowerUnit b = unit 'x' then value? 16 t
    else if lowerUnit b = unit 'o' then value? 8 t
    else if lowerUnit b = unit 'b' then value? 2 t
    else none
  | _ => none

/-- The integer that a whole text writes. -/
def integer? (t : Text) : Option Int :=
  let t := trim t
  if t = [] then some 0
  else match basedNatural? t with
    | some n => some n
    | none =>
      let (negative, u) := takeSign t
      (value? 10 u).map fun n => if negative then -(n : Int) else n

/-- The exponent part of a decimal: `e` or `E`, a sign, digits, and nothing else; or nothing at all. -/
def exponentPart? : Text → Option Int
  | [] => some 0
  | c :: t =>
    if lowerUnit c = unit 'e' then
      let (negative, u) := takeSign t
      (value? 10 u).map fun n => if negative then -(n : Int) else n
    else none

end Text

namespace Double

/-- An unsigned decimal with an optional fraction and exponent; one digit at least stands before the
exponent. -/
def unsignedDecimal? (negative : Bool) (t : Text) : Option Double :=
  let whole := t.takeWhile Text.isDigit
  let rest := t.dropWhile Text.isDigit
  let (fraction, rest) := match rest with
    | c :: r =>
      if c = Text.unit '.' then (r.takeWhile Text.isDigit, r.dropWhile Text.isDigit) else ([], rest)
    | [] => ([], [])
  if whole = [] ∧ fraction = [] then none
  else (Text.exponentPart? rest).map fun e =>
    ofDecimal negative (Text.value 10 (whole ++ fraction)) (e - fraction.length)

/-- The number that a whole text writes, if it writes one. -/
def read? (t : Text) : Option Double :=
  let t := Text.trim t
  if t = [] then some (zero false)
  else match Text.basedNatural? t with
    | some n => some (ofNat n)
    | none =>
      let (negative, u) := Text.takeSign t
      if u = Text.ofString "Infinity" then some (.infinite negative) else unsignedDecimal? negative u

/-- The number that a whole text writes; any other text is not a number. -/
def read (t : Text) : Double := (read? t).getD .nan

end Double
end Stencil
