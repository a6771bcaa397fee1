/-
Message templates. A template names values in braces; `fill` puts their texts in their places, once,
from left to right, and `render` does so with the values of a context. A brace directly followed by
another stands for itself, and a template with a brace that never closes is left as it is.
-/
import Stencil.Json.Value

namespace Stencil

/-- The values that a message is about, by name. -/
abbrev MessageContext := Json.Members

namespace Message

/-- The names that every record answers to without having such a member, with the text of the
answer. -/
def inherited? (name : Text) : Option Text :=
  if name = Text.ofString "__proto__" then some "[object Object]"
  else if name = Text.ofString "constructor" then some (native "Object")
  else if ([Text.ofString "toString", "valueOf", "hasOwnProperty", "isPrototypeOf",
      "propertyIsEnumerable", "toLocaleString", "__defineGetter__", "__defineSetter__",
      "__lookupGetter__", "__lookupSetter__"] : List Text).contains name then some (native name)
  else none
where
  /-- The text of a function that is built in. -/
  native (name : Text) : Text := "function " ++ name ++ "() \x7b [native code] \x7d"

/-- The texts of values, by name; a name may be there without a value. -/
abbrev Texts := List (Text × Option Text)

/-- The text that a name in braces stands for; a name without a value stands for nothing. -/
def textOf (texts : Texts) (name : Text) : Text :=
  match texts.lookup name with
  | some value => value.getD []
  | none => (inherited? name).getD []

/-- What stands at some point of a template. -/
inductive Piece
  | unit (c : CodeUnit)
  | value (name : Text)
deriving DecidableEq, Repr

/-- A template taken apart, `name` being what stands behind a brace that is still open; nothing if that
brace does not close. -/
def piecesFrom? (name : Option Text) : Text → Option (List Piece)
  | [] => if name.isNone then some [] else none
  | c :: r =>
    match name with
    | none =>
      if c = Text.unit '\x7b' ∧ r.head? ≠ some (Text.unit '\x7b') then piecesFrom? (some []) r
      else (piecesFrom? none r).map (.unit c :: ·)
    | some n =>
      if c = Text.unit '\x7d' then (piecesFrom? none r).map (.value n :: ·)
      else piecesFrom? (some (n ++ [c])) r

/-- A template taken apart; nothing if a brace does not close. -/
def pieces? (t : Text) : Option (List Piece) := piecesFrom? none t

def Piece.text (texts : Texts) : Piece → Text
  | .unit c => [c]
  | .value name => textOf texts name

/-- The template with texts put in. -/
def fill (template : Text) (texts : Texts) : Text :=
  match pieces? template with
  | some ps => ps.flatMap (Piece.text texts)
  | none => template

/-- The template with the values of a context put in. -/
def render (template : Text) (context : MessageContext) : Text :=
  fill template (context.map fun (name, value) => (name, some value.display))

end Message
end Stencil
