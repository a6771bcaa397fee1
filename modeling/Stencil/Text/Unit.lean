/-
Texts as sequences of UTF-16 code units. Offsets and columns of the whole library count these units,
and a single half of a surrogate pair is a text of its own. `ofString` and `toString` lead from and
to Lean's strings; a half that stands alone becomes U+FFFD on the way back.
-/

namespace Stencil

/-- One UTF-16 code unit. -/
abbrev CodeUnit := UInt16

/-- A text is the sequence of its code units. -/
abbrev Text := List CodeUnit

namespace Text

/-- The unit of a character of the basic plane. -/
def unit (c : Char) : CodeUnit := c.toNat.toUInt16

def singleQuote : CodeUnit := 0x27

def doubleQuote : CodeUnit := 0x22

def backslash : CodeUnit := 0x5C

/-- The one or two units of a code point. -/
def ofCodePoint (n : Nat) : Text :=
  if n < 0x10000 then [n.toUInt16]
  else [(0xD800 + (n - 0x10000) / 0x400).toUInt16, (0xDC00 + (n - 0x10000) % 0x400).toUInt16]

def ofString (s : String) : Text := s.toList.flatMap fun c => ofCodePoint c.toNat

instance : Coe String Text := ⟨ofString⟩

/-! ## Surrogates -/

def isHighHalf (c : CodeUnit) : Bool := 0xD800 ≤ c && c < 0xDC00

def isLowHalf (c : CodeUnit) : Bool := 0xDC00 ≤ c && c < 0xE000

/-- The code point of a pair of halves. -/
def joinHalves (high low : CodeUnit) : Nat :=
  0x10000 + (high.toNat - 0xD800) * 0x400 + (low.toNat - 0xDC00)

/-- The unit that stands for what cannot be decoded. -/
def replacement : CodeUnit := 0xFFFD

/-- The characters of a text, a lone half being read as U+FFFD. -/
def toChars : Text → List Char
  | [] => []
  | [c] => if isHighHalf c || isLowHalf c then [Char.ofNat 0xFFFD] else [Char.ofNat c.toNat]
  | c :: d :: r =>
    if isHighHalf c && isLowHalf d then Char.ofNat (joinHalves c d) :: toChars r
    else if isHighHalf c || isLowHalf c then Char.ofNat 0xFFFD :: toChars (d :: r)
    else Char.ofNat c.toNat :: toChars (d :: r)

def toString (t : Text) : String := String.ofList t.toChars

/-! ## Letters and digits -/

def isDigit (c : CodeUnit) : Bool := unit '0' ≤ c && c ≤ unit '9'

def isLetter (c : CodeUnit) : Bool :=
  (unit 'a' ≤ c && c ≤ unit 'z') || (unit 'A' ≤ c && c ≤ unit 'Z')

/-- The unit in lower case; letters outside `A` to `Z` stay. -/
def lowerUnit (c : CodeUnit) : CodeUnit :=
  if unit 'A' ≤ c && c ≤ unit 'Z' then c + 32 else c

def lower (t : Text) : Text := t.map lowerUnit

/-- The unit in upper case; letters outside `a` to `z` stay. -/
def upperUnit (c : CodeUnit) : CodeUnit :=
  if unit 'a' ≤ c && c ≤ unit 'z' then c - 32 else c

def upper (t : Text) : Text := t.map upperUnit

/-! ## Dictionary order -/

/-- Dictionary order by code units: a proper beginning comes before the whole. -/
def le : Text → Text → Bool
  | [], _ => true
  | _ :: _, [] => false
  | a :: r, b :: s => a < b || (a == b && le r s)

/-- The text lies between two single units in dictionary order, both included. -/
def within (low high : Char) (t : Text) : Bool := le [unit low] t && le t [unit high]

end Text
end Stencil
