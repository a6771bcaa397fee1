/-
The outcome of running a tool: how it ends, and the lines it writes to the two streams. Reading the
configuration and the template is the same for all tools.
-/
import Stencil.Environment.Config
import Stencil.Environment.Read
import Stencil.Tool.Arguments
import Stencil.Tool.Workspace

namespace Stencil.Tool

/-- How a run ends. -/
inductive Ending
  | done
  /-- The arguments or the configuration are unusable. -/
  | usage
  | unreadable
  /-- The template has a mistake. -/
  | mistake
deriving DecidableEq, Repr

/-- The exit code of a run. -/
def Ending.code : Ending → Nat
  | done => 0
  | usage => 1
  | unreadable => 2
  | mistake => 3

/-- What a run leaves behind; an item of a stream is a text that a line end follows. -/
structure Outcome where
  ending : Ending
  output : List Text
  errors : List Text
deriving DecidableEq, Repr

namespace Outcome

/-- The run writes its result. -/
def written (texts : List Text) : Outcome := ⟨.done, texts, []⟩

/-- The run ends with a complaint. -/
def refused (ending : Ending) (texts : List Text) : Outcome := ⟨ending, [], texts⟩

/-- What stands in a stream, given its items. -/
def stream (items : List Text) : Text := items.flatMap fun t => t ++ [Text.unit '\n']

end Outcome

/-- The version of the tools. -/
def version : Text := "0.1.0"

/-- The text of a notice of a tool with a given usage. -/
def Notice.text (usage : Text) : Notice → Text
  | help => usage
  | .version => Tool.version

/-- What the tools leave to the platform they run on. -/
structure Host where
  /-- How its reader of JSON complains about a text that is none. -/
  complaint : Text → Text
  /-- The YAML text of a tree. -/
  yaml : Template → Text

/-! ## What tools read -/

namespace Workspace

/-- The configuration at the home, if there is one. -/
def config (w : Workspace) (host : Host) : Except ConfigFault (Option Config) :=
  match w.entry (w.home.resolve Config.fileName) with
  | .file bytes => (Config.ofText host.complaint (Text.ofUtf8 bytes)).map some
  | .directory => .error (.notJson SystemFault.isDirectory.message)
  | .blocked | .absent => .ok none

/-- The environment that the configuration asks for, or a complaint about it. -/
def environment (w : Workspace) (host : Host) : Except Text Environment :=
  match w.config host with
  | .error f => .error f.message
  | .ok c =>
    match Config.environment? c with
    | .error f => .error f.message
    | .ok env => .ok env

end Workspace

/-- A template as it was read: its source, and its tree or the mistake in it. -/
structure Reading where
  source : Text
  result : Except Diagnostic Template

/-- The template in a file, read as the configuration asks for; or the outcome of a run that cannot
read it. -/
def readFile (host : Host) (w : Workspace) (file : Text) : Except Fault (Except Outcome Reading) :=
  match w.environment host with
  | .error complaint => .ok (.error (.refused .usage [complaint]))
  | .ok env =>
    match w.read file with
    | .error f => .ok (.error (.refused .unreadable [f.text]))
    | .ok source => (env.examine (some file) source).map fun r => .ok ⟨source, r⟩

end Stencil.Tool
