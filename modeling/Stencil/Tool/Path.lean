/-
Absolute paths as a root and the names below it. `Path.resolve` follows a written path from a place:
empty names and `.` stay, `..` goes one name up and never above the root.
-/
import Stencil.Text.Search

namespace Stencil.Tool

/-- An absolute path. -/
structure Path where
  /-- What is written before the first slash: nothing for the root of the file system, or a name that
  stands for a place in it. -/
  root : Text
  names : List Text
deriving DecidableEq, Repr

namespace Path

def slash : Text := "/"

/-- The path as it is written. -/
def text (p : Path) : Text :=
  if p.root = [] ∧ p.names = [] then slash else Text.join slash (p.root :: p.names)

/-- The names after one more step; `above` holds them from the last one on. -/
def step (above : List Text) (name : Text) : List Text :=
  if name = [] ∨ name = Text.ofString "." then above
  else if name = Text.ofString ".." then above.tail
  else name :: above

/-- The names that steps lead to from the given ones. -/
def walk (names steps : List Text) : List Text := (steps.foldl step names.reverse).reverse

/-- The path that a text writes as seen from a place. -/
def resolve (place : Path) (t : Text) : Path :=
  let steps := Text.splitOn (Text.unit '/') t
  if t.startsWith slash then ⟨[], walk [] steps⟩ else ⟨place.root, walk place.names steps⟩

/-- One path leads to the other through further names. -/
def isAbove (p q : Path) : Bool :=
  p.root == q.root && p.names.isPrefixOf q.names && p.names != q.names

end Path
end Stencil.Tool
