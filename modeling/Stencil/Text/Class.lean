/-
The classes a text may belong to when it is compared, as a whole, with the ends of a range. On a
single unit they are the classes of units that the reading of tokens uses.
-/
import Stencil.Text.Blank

namespace Stencil.Text

/-- Letters and `_`, which may begin a name. -/
def isNameStart (c : CodeUnit) : Bool := isLetter c || c == unit '_'

/-- Letters, `_` and digits, of which a name consists. -/
def isNamePart (c : CodeUnit) : Bool := isNameStart c || isDigit c

/-- The classes of a text in dictionary order. -/
structure Classes where
  digit : Bool
  nameStart : Bool
  namePart : Bool
  spacing : Bool
deriving DecidableEq, Repr

def classes (t : Text) : Classes :=
  let digit := t.within '0' '9'
  let start := t.within 'a' 'z' || t.within 'A' 'Z' || t == [unit '_']
  { digit, nameStart := start, namePart := start || digit,
    spacing := match t with
      | [c] => isSpacing c
      | _ => false }

end Stencil.Text
