/-
Constants of expressions, and the constant that a run of digits denotes: a number where every integer
is a number of its own, and the exact integer beyond.
-/
import Stencil.Number.Literal

namespace Stencil

inductive Constant
  | text (t : Text)
  | number (x : Double)
  | bigint (i : Int)
  | bool (b : Bool)
  | none
deriving DecidableEq, Repr

namespace Constant

/-- The constant of an integer literal; nothing if the text writes no integer. -/
def ofInteger? (t : Text) : Option Constant :=
  let x := Double.read t
  if x.isSafeInteger then some (number x) else t.integer?.map bigint

/-- The constant of a literal with a fraction. -/
def ofFraction (t : Text) : Constant := number (Double.read t)

/-- The names that are constants. -/
def ofName? (name : Text) : Option Constant :=
  if name = Text.ofString "true" then some (bool true)
  else if name = Text.ofString "false" then some (bool false)
  else if name = Text.ofString "none" then some .none
  else Option.none

end Constant
end Stencil
