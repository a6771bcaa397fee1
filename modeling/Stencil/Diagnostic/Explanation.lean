/-
The documentation of a mistake as a text: what it is, its cause, what resolves it, and templates that
show it.
-/
import Stencil.Diagnostic.Catalogue
import Stencil.Text.Blank

namespace Stencil.ErrorId

/-- A part with a title; an absent one is left out. -/
def section? (title : Text) : Option Text → List Text
  | none => []
  | some body => [title ++ ":", "  " ++ body, []]

/-- The lines of one example, its template indented. -/
def exampleLines (x : ErrorExample) : List Text :=
  ["  " ++ x.description, []] ++ (Text.splitOn (Text.unit '\n') x.code).map indent ++ [[]]
where
  indent (line : Text) : Text := "    " ++ line

def examplesLines : List ErrorExample → List Text
  | [] => []
  | xs => Text.ofString "Examples:" :: xs.flatMap exampleLines

/-- The documentation of a mistake. -/
def explanation (e : ErrorId) : Text :=
  let d := e.definition
  Text.dropEndWhile Text.isBlank
    (Text.lines
      ([e.code ++ ": " ++ d.description, []] ++ section? "Cause" d.cause
        ++ section? "Resolution" d.resolution ++ examplesLines d.examples))

/-- The documentation of the mistake with a code. -/
def explain? (code : Text) : Option Text := (ofCode? code).map explanation

end Stencil.ErrorId
