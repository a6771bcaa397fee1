/-
The command line: the first argument chooses the tool, the others are its arguments.
-/
import Stencil.Tool.Check
import Stencil.Tool.Tree

namespace Stencil.Tool

/-- The tool with a name. -/
def named? (name : String) : Option (Host → List Text → Workspace → Except Fault Outcome) :=
  if name = "kiln-check" then some Check.run
  else if name = "kiln-ast" then some Tree.run
  else none

/-- The platform of the command line. JSON text is also YAML text, so that one writer serves both formats. -/
def commandLine : Host where
  complaint _ := "the text cannot be read"
  yaml t := t.json.pretty

/-- What stands at a path of the file system. -/
def entryAt (p : Path) : IO Entry := do
  let place := (← IO.currentDir) / p.text.toString
  if ← place.isDir then return .directory
  try
    return .file (← IO.FS.readBinFile place).toList
  catch
    | .inappropriateType .. => return .blocked
    | _ => return .absent

/-- The current directory, with what stands at the paths that arguments may name. -/
def workspaceOf (args : List Text) : IO Workspace := do
  let home := Path.resolve ⟨[], []⟩ (Text.ofString (← IO.currentDir).toString)
  let table ← (Config.fileName :: args).mapM fun name => do
    let p := home.resolve name
    return (p, ← entryAt p)
  return ⟨home, fun p => (table.lookup p).getD .absent⟩

end Stencil.Tool

open Stencil Stencil.Tool
/-- Runs a tool on the current directory. -/
def main (args : List String) : IO UInt32 := do
  match args with
  | [] => IO.eprintln "Usage: kiln-check|kiln-ast [arguments]"; return 1
  | name :: rest =>
    match named? name with
    | none => IO.eprintln "Usage: kiln-check|kiln-ast [arguments]"; return 1
    | some run =>
      let args := rest.map Text.ofString
      match run commandLine args (← workspaceOf args) with
      | .error f => IO.eprintln f.message.toString; return 1
      | .ok o =>
        IO.print (Outcome.stream o.output).toString
        IO.eprint (Outcome.stream o.errors).toString
        return o.ending.code.toUInt32
