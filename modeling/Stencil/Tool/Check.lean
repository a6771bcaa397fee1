/-
The checker of templates. It reports the first mistake of a template, as a line of text or as a JSON
report, and explains mistakes by their codes.
-/
import Stencil.Diagnostic.Explanation
import Stencil.Diagnostic.Snippet
import Stencil.Json.Writer
import Stencil.Tool.Outcome

namespace Stencil.Tool.Check

def usage : Text := Text.lines [
  "Usage:",
  "  kiln-check [options] <file>   Check a template for syntax errors",
  "  kiln-check --help             Show this help message",
  "  kiln-check --version          Show version information",
  "  kiln-check --explain <id>     Show documentation for an error ID",
  "",
  "Options:",
  "  --format <format>   Output format: text, json (default: text)",
  "  --verbose           Show the source line and a suggested fix",
  "",
  "Exit codes:",
  "  0  template is valid",
  "  1  usage or configuration error",
  "  2  file could not be read",
  "  3  template has a syntax error"]

/-- The mistake that reading a template has met, if any. -/
def mistake? : Except Diagnostic Template → Option Diagnostic
  | .ok _ => none
  | .error d => some d

/-- The members that say where a mistake is. -/
def placeMembers : Option Location → Json.Members
  | none => []
  | some l => [("line", .ofNat l.line), ("column", .ofNat l.column), ("offset", .ofNat l.offset)]

def reportItem (d : Diagnostic) : Json :=
  .object ([(Text.ofString "errorId", Json.string d.id.code),
    (Text.ofString "message", Json.string d.baseMessage)] ++ placeMembers d.location)

/-- The report on a file: whether it is valid, and its mistakes. -/
def report (file : Text) (mistake : Option Diagnostic) : Json :=
  .object [("file", .string file), ("valid", .bool mistake.isNone),
    ("errors", .array (mistake.toList.map reportItem))]

/-- What resolves a mistake, as the last line about it. -/
def helpLines (d : Diagnostic) : List Text :=
  d.id.definition.resolution.toList.map fun r => "   = help: " ++ r

/-- What is written about a mistake. -/
def complaint (verbose : Bool) (source : Text) (d : Diagnostic) : List Text :=
  d.summary :: if verbose then d.text (some source) :: helpLines d else []

/-- How a check ends. -/
def ending : Option Diagnostic → Ending
  | none => .done
  | some _ => .mistake

/-- What is written about a template that could be read. -/
def conclude (file : Text) (format : CheckFormat) (verbose : Bool) (source : Text)
    (mistake : Option Diagnostic) : Outcome :=
  match format with
  | .json => ⟨ending mistake, [(report file mistake).pretty], []⟩
  | .text => ⟨ending mistake, [], mistake.toList.flatMap (complaint verbose source)⟩

/-- The explanation of a mistake by its code. -/
def explain (code : Text) : Outcome :=
  match ErrorId.explain? code with
  | some t => .written [t]
  | none => .refused .usage
    ["Unknown error ID: " ++ code, "Error IDs look like KILN-L001 or KILN-P001"]

/-- The run of the checker. -/
def run (host : Host) (args : List Text) (w : Workspace) : Except Fault Outcome :=
  match CheckRequest.ofArguments args with
  | .error f => .ok (.refused .usage [f.message, usage])
  | .ok (.notice n) => .ok (.written [n.text usage])
  | .ok (.explain code) => .ok (explain code)
  | .ok (.check file format verbose) => do
    match ← readFile host w file with
    | .error o => return o
    | .ok r => return conclude file format verbose r.source (mistake? r.result)

end Stencil.Tool.Check
