/-
White space. Inside a tag only space, tab, carriage return and line feed separate tokens; where a raw
block is recognised, and around written numbers, the wider class of Unicode white space and line ends
counts. `isBlank_of_isSpacing` relates the two.
-/
import Stencil.Text.Unit

namespace Stencil.Text

/-- White space between the tokens of a tag. -/
def isSpacing (c : CodeUnit) : Bool :=
  c == unit ' ' || c == unit '\t' || c == unit '\r' || c == unit '\n'

/-- The first and last units of the ranges of Unicode white space and line ends. -/
def blankRanges : List (CodeUnit × CodeUnit) :=
  [(0x9, 0xD), (0x20, 0x20), (0xA0, 0xA0), (0x1680, 0x1680), (0x2000, 0x200A), (0x2028, 0x2029),
    (0x202F, 0x202F), (0x205F, 0x205F), (0x3000, 0x3000), (0xFEFF, 0xFEFF)]

/-- Unicode white space and line ends. -/
def isBlank (c : CodeUnit) : Bool := blankRanges.any fun (low, high) => low ≤ c && c ≤ high

theorem isBlank_of_isSpacing {c : CodeUnit} (h : isSpacing c = true) : isBlank c = true := by
  simp only [isSpacing, Bool.or_eq_true, beq_iff_eq] at h
  rcases h with ((rfl | rfl) | rfl) | rfl <;> decide

/-- The text without blanks at either end. -/
def trim (t : Text) : Text := ((t.dropWhile isBlank).reverse.dropWhile isBlank).reverse

end Stencil.Text
