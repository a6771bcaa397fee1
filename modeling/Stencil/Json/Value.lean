/-
JSON values. The members of an object keep an order: names that are array indices come first, in
increasing order, the others follow in the order of their first appearance, and a repeated name keeps
its place and takes the last value. `Json.display` is the text of a value inside a message.
-/
import Stencil.Number.Layout
import Stencil.Text.Search

namespace Stencil

inductive Json
  | null
  | bool (b : Bool)
  | number (x : Double)
  | string (t : Text)
  | array (items : List Json)
  | object (members : List (Text × Json))
deriving Repr

/-- The members of an object. -/
abbrev Json.Members := List (Text × Json)

namespace Json

def ofNat (n : Nat) : Json := .number (.ofNat n)

def ofInt (i : Int) : Json := .number (.ofInt i)

def ofOption {α : Type} (f : α → Json) : Option α → Json
  | none => .null
  | some a => f a

/-- The index that a name writes: a decimal numeral without leading zeros, below `2^32 - 1`. -/
def index? (name : Text) : Option Nat :=
  if name.length ≤ 10 ∧ name ≠ [] ∧ name.all Text.isDigit then
    let n := Text.value 10 name
    if Text.ofNat n = name ∧ n < 4294967295 then some n else none
  else none

namespace Members

/-- The value of a member. -/
def get? (ms : Members) (name : Text) : Option Json := ms.lookup name

/-- A new member with an index as its name goes before the first greater index. -/
def insertIndex (n : Nat) (name : Text) (v : Json) : Members → Members
  | [] => [(name, v)]
  | (m, w) :: ms =>
    match index? m with
    | some k => if n < k then (name, v) :: (m, w) :: ms else (m, w) :: insertIndex n name v ms
    | none => (name, v) :: (m, w) :: ms

/-- A new value for a member that exists. -/
def replace (name : Text) (v : Json) : Members → Members
  | [] => []
  | (m, w) :: ms => if m = name then (m, v) :: ms else (m, w) :: replace name v ms

/-- The members after a value has been given to a name. -/
def set (ms : Members) (name : Text) (v : Json) : Members :=
  if (ms.get? name).isSome then ms.replace name v
  else match index? name with
    | some n => ms.insertIndex n name v
    | none => ms ++ [(name, v)]

/-- The members written one after another. -/
def ofList (l : List (Text × Json)) : Members := l.foldl (fun ms (m, v) => set ms m v) []

end Members

/-- The members of an object; other values have none. -/
def members : Json → Members
  | .object ms => ms
  | _ => []

def get? (j : Json) (name : Text) : Option Json := Members.get? j.members name

def string? : Json → Option Text
  | .string t => some t
  | _ => none

def items : Json → List Json
  | .array js => js
  | _ => []

mutual

/-- The text of a value inside a message. -/
def display : Json → Text
  | .null => "null"
  | .bool true => "true"
  | .bool false => "false"
  | .number x => x.toText
  | .string t => t
  | .array js => Text.join [Text.unit ','] (displayItems js)
  | .object _ => "[object Object]"

/-- The texts of the items of an array, an absent one being empty. -/
def displayItems : List Json → List Text
  | [] => []
  | .null :: js => [] :: displayItems js
  | j :: js => display j :: displayItems js

end

end Json
end Stencil
