/-
What a tool sees of the file system: the place it runs at, and what stands at each path. A place is
most often given by its files, all else following from their paths.
-/
import Stencil.Text.Utf8
import Stencil.Tool.Path

namespace Stencil.Tool

/-- What stands at a path. -/
inductive Entry
  | file (bytes : List UInt8)
  | directory
  /-- Something on the way to the path is a file. -/
  | blocked
  | absent
deriving DecidableEq, Repr

/-- A place with what can be read from there. -/
structure Workspace where
  home : Path
  entry : Path → Entry

/-- A failure of the system: its message and, as far as they are known, its code and the path that it
is about. -/
structure SystemFault where
  message : Text
  code : Option Text
  path : Option Text
deriving DecidableEq, Repr

namespace SystemFault

def notFoundCode : Text := "ENOENT"

/-- The failure for people; of a file that does not exist they read the path alone. -/
def text (f : SystemFault) : Text :=
  match f.path with
  | some p => if f.code = some notFoundCode then "File not found: " ++ p else f.message
  | none => f.message

/-- There is nothing at a path. -/
def notFound (p : Path) : SystemFault :=
  ⟨"ENOENT: no such file or directory, open '" ++ p.text ++ "'", some notFoundCode, some p.text⟩

/-- A directory has no text. -/
def isDirectory : SystemFault :=
  ⟨"EISDIR: illegal operation on a directory, read", some "EISDIR", none⟩

/-- A file stands where a path goes on. -/
def notDirectory (p : Path) : SystemFault :=
  ⟨"ENOTDIR: not a directory, open '" ++ p.text ++ "'", some "ENOTDIR", some p.text⟩

end SystemFault

namespace Workspace

/-- What follows about a path from the paths of some files. -/
def entryOf (files : List (Path × List UInt8)) (home p : Path) : Entry :=
  match files.lookup p with
  | some bytes => .file bytes
  | none =>
    if p.names = [] ∨ p = home ∨ p.isAbove home ∨ files.any fun f => p.isAbove f.1 then .directory
    else if files.any fun f => f.1.isAbove p then .blocked
    else .absent

/-- The workspace that holds some files, named as seen from its home. -/
def ofFiles (home : Path) (files : List (Text × List UInt8)) : Workspace where
  home := home
  entry := entryOf (files.map fun (name, bytes) => (home.resolve name, bytes)) home

/-- The text of a file, named as seen from the home. -/
def read (w : Workspace) (name : Text) : Except SystemFault Text :=
  let p := w.home.resolve name
  match w.entry p with
  | .file bytes => .ok (Text.ofUtf8 bytes)
  | .directory => .error .isDirectory
  | .blocked => .error (.notDirectory p)
  | .absent => .error (.notFound p)

end Workspace
end Stencil.Tool
