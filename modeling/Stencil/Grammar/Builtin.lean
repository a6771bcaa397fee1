/-
The extensions that come with the library: `do`, which evaluates an expression without printing it, and
`break` and `continue` for loops.
-/
import Stencil.Grammar.Rule

namespace Stencil.Extension

open Stencil.Parser

/-- `do expression`. -/
def doStatement : Extension where
  name := "do"
  tags := ["do"]
  parse := fun g => do
    let start := (← advance).span.start
    let e ← g (.tuple (.expression true))
    return .one (.expr e ⟨start, e.span.finish⟩)

/-- `break` and `continue`; that they stand in a loop is not checked. -/
def loopControls : Extension where
  name := "loopcontrols"
  tags := ["break", "continue"]
  parse := fun _ => do
    let token ← advance
    if token.value = Text.ofString "break" then return .one (.breakLoop token.span)
    else return .one (.continueLoop token.span)

/-- The extensions that configurations may name. -/
def builtin : List Extension := [doStatement, loopControls]

def ofName? (name : Text) : Option Extension := builtin.find? (·.name == name)

/-! ## Tags -/

/-- The tags of extensions with the extension that has each, in order; a tag that is claimed again
stays with the first. -/
def table (xs : List Extension) : List (Text × Extension) :=
  (xs.flatMap fun x => x.tags.map fun t => (t, x)).foldl
    (fun acc (t, x) => if acc.any (·.1 == t) then acc else acc ++ [(t, x)]) []

/-- The extension that claims a tag. -/
def find? (xs : List Extension) (tag : Text) : Option Extension :=
  ((table xs).find? (·.1 == tag)).map (·.2)

end Stencil.Extension
