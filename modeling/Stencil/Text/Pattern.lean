/-
Texts inside search patterns: the units that have a meaning in a pattern get a backslash, so that the
pattern matches the text itself.
-/
import Stencil.Text.Unit

namespace Stencil.Text

/-- The units that have a meaning in a pattern. -/
def patternMarks : Text := ".*+?^$\x7b\x7d()|[]\\"

/-- The pattern that matches a text literally. -/
def escapePattern (t : Text) : Text :=
  t.flatMap fun c => if patternMarks.contains c then [backslash, c] else [c]

end Stencil.Text
