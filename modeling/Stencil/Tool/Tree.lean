/-
The printer of syntax trees. It writes the tree of a template as JSON text, or as YAML text by a writer of the
platform, or else the first mistake in the template.
-/
import Stencil.Diagnostic.Snippet
import Stencil.Json.Writer
import Stencil.Tool.Outcome
import Stencil.Tree.Record

namespace Stencil.Tool.Tree

def usage : Text := Text.lines [
  "Usage:",
  "  kiln-ast [options] <file>   Print the syntax tree of a template",
  "  kiln-ast --help             Show this help message",
  "  kiln-ast --version          Show version information",
  "",
  "Options:",
  "  --format <format>   Output format: json, yaml (default: json)"]

/-- The text of a tree. -/
def write (host : Host) (t : Template) : TreeFormat → Text
  | .json => t.json.pretty
  | .yaml => host.yaml t

/-- The run of the printer of trees. -/
def run (host : Host) (args : List Text) (w : Workspace) : Except Fault Outcome :=
  match TreeRequest.ofArguments args with
  | .error f => .ok (.refused .usage [f.message, usage])
  | .ok (.notice n) => .ok (.written [n.text usage])
  | .ok (.tree file format) => do
    match ← readFile host w file with
    | .error o => return o
    | .ok r =>
      match r.result with
      | .ok t => return .written [write host t format]
      | .error d => return .refused .mistake [d.text (some r.source)]

end Stencil.Tool.Tree
