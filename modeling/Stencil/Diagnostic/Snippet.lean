/-
Diagnostics for people: the line of the source with a caret below the column, one line for the list of
a checker, and the whole text with its heading.
-/
import Stencil.Diagnostic.Basic

namespace Stencil

/-! ## Lines of a source -/

/-- The line without the carriage return at its end. -/
def Text.dropReturn (line : Text) : Text :=
  if line.getLast? = some (Text.unit '\r') then line.dropLast else line

/-- The lines of pieces between line feeds; what follows the last line feed keeps its end. -/
def Text.withoutReturns : List Text → List Text
  | [] => []
  | [line] => [line]
  | line :: more => line.dropReturn :: withoutReturns more

/-- The lines of a text, each without its line feed and the carriage return before that. -/
def Text.sourceLines (t : Text) : List Text := withoutReturns (t.splitOn (Text.unit '\n'))

/-! ## Snippets -/

namespace Snippet

def blanks (n : Nat) : Text := List.replicate n (Text.unit ' ')

/-- The three lines that show a line of source with a caret; the caret stands at most one column
behind the line. -/
def frame (line : Nat) (content : Text) (column : Nat) : List Text :=
  let number := Text.ofNat line
  let gutter := blanks number.length
  let bar : Text := " |"
  [" " ++ gutter ++ bar, " " ++ number ++ bar ++ " " ++ content,
    " " ++ gutter ++ bar ++ " " ++ blanks (min column (content.length + 1) - 1) ++ "^"]

/-- The lines that show a place in a source; a source without such a line shows none. -/
def lines (source : Text) (line column : Nat) : List Text :=
  if line = 0 then []
  else match source.sourceLines[line - 1]? with
    | none => []
    | some content => frame line content column

/-- The lines that show a place given by any two numbers. A caret cannot stand before the first
column, and then there is no answer if the source has the line. -/
def lines? (source : Text) (line column : Int) : Option (List Text) :=
  let shown := lines source line.toNat column.toNat
  if shown ≠ [] ∧ column < 1 then none else some shown

end Snippet

/-! ## Texts -/

namespace Diagnostic

/-- The name of the template, or a word for a template without one. -/
def fileText (d : Diagnostic) : Text := d.filename.getD "<template>"

/-- The diagnostic on one line, behind its place. -/
def summary (d : Diagnostic) : Text :=
  let place : Text := match d.location with
    | some l => ":" ++ l.text
    | none => []
  d.fileText ++ place ++ ": error: " ++ d.baseMessage ++ " (" ++ d.id.code ++ ")"

/-- The stage whose mistakes a class reports, in words; the general class has none. -/
def stage? : DiagnosticClass → Option Text
  | .general => none
  | .lexer => some "Lexer"
  | .parse => some "Parse"
  | .assertion => some "Parse"

/-- The diagnostic with a heading and the line of source it is about. -/
def textWith (d : Diagnostic) (place : Location) (source : Text) : Text :=
  Text.lines
    (("error[" ++ d.id.code ++ "]: " ++ d.baseMessage) ::
      ("  --> " ++ d.fileText ++ ":" ++ place.text) ::
      Snippet.lines source place.line place.column)

/-- The diagnostic for people. With its source it has a heading and a snippet, without it one line. -/
def text (d : Diagnostic) (source : Option Text) : Text :=
  match stage? d.kind, d.location with
  | some stage, some place =>
    match source with
    | some s => d.textWith place s
    | none => stage ++ " error at line " ++ Double.natText place.line ++ ": " ++ d.baseMessage
  | _, _ => d.message

end Diagnostic
end Stencil
