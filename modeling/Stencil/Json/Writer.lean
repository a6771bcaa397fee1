/-
The text of a JSON value, on one line or indented. Only quotes, backslashes, control characters and
lone halves of surrogate pairs are escaped; a number that is not finite is written as `null`.
-/
import Stencil.Json.Value

namespace Stencil.Json

/-- A unit inside quotes; `alone` says whether a half of a surrogate pair lacks its other half. -/
def escapeUnit (alone : Bool) (c : CodeUnit) : Text :=
  if c = Text.doubleQuote then [Text.backslash, Text.doubleQuote]
  else if c = Text.backslash then [Text.backslash, Text.backslash]
  else if c = 8 then [Text.backslash, Text.unit 'b']
  else if c = 9 then [Text.backslash, Text.unit 't']
  else if c = 10 then [Text.backslash, Text.unit 'n']
  else if c = 12 then [Text.backslash, Text.unit 'f']
  else if c = 13 then [Text.backslash, Text.unit 'r']
  else if c < 32 || alone then Text.backslash :: Text.unit 'u' :: Text.hex4 c
  else [c]

/-- The inside of a quoted text. -/
def escape : Text → Text
  | [] => []
  | [c] => escapeUnit (Text.isHighHalf c || Text.isLowHalf c) c
  | c :: d :: r =>
    if Text.isHighHalf c && Text.isLowHalf d then c :: d :: escape r
    else escapeUnit (Text.isHighHalf c || Text.isLowHalf c) c ++ escape (d :: r)

def quote (t : Text) : Text := Text.doubleQuote :: (escape t ++ [Text.doubleQuote])

def writeNumber : Double → Text
  | .nan => "null"
  | .infinite _ => "null"
  | x => x.toText

/-- The line break before a member at a given depth, if the text is indented. -/
def lineBreak (indent : Option Nat) (depth : Nat) : Text :=
  match indent with
  | none => []
  | some n => Text.unit '\n' :: List.replicate (n * depth) (Text.unit ' ')

/-- What stands between a name and its value. -/
def colon (indent : Option Nat) : Text := if indent.isSome then ": " else ":"

mutual

/-- The text of a value at a given depth, with `rest` behind it. -/
def writeOnto (indent : Option Nat) (depth : Nat) (rest : Text) : Json → Text
  | .null => "null" ++ rest
  | .bool true => "true" ++ rest
  | .bool false => "false" ++ rest
  | .number x => writeNumber x ++ rest
  | .string t => quote t ++ rest
  | .array [] => "[]" ++ rest
  | .array (j :: js) =>
    "[" ++ (lineBreak indent (depth + 1) ++
      writeOnto indent (depth + 1)
        (itemsOnto indent (depth + 1) (lineBreak indent depth ++ ("]" ++ rest)) js) j)
  | .object [] => "\x7b\x7d" ++ rest
  | .object ((name, j) :: ms) =>
    "\x7b" ++ (lineBreak indent (depth + 1) ++ (quote name ++ (colon indent ++
      writeOnto indent (depth + 1)
        (membersOnto indent (depth + 1) (lineBreak indent depth ++ ("\x7d" ++ rest)) ms) j)))

/-- The items of an array behind the first one, with `rest` behind them. -/
def itemsOnto (indent : Option Nat) (depth : Nat) (rest : Text) : List Json → Text
  | [] => rest
  | j :: js =>
    "," ++ (lineBreak indent depth ++ writeOnto indent depth (itemsOnto indent depth rest js) j)

/-- The members of an object behind the first one, with `rest` behind them. -/
def membersOnto (indent : Option Nat) (depth : Nat) (rest : Text) : List (Text × Json) → Text
  | [] => rest
  | (name, j) :: ms =>
    "," ++ (lineBreak indent depth ++ (quote name ++ (colon indent ++
      writeOnto indent depth (membersOnto indent depth rest ms) j)))

end

mutual

/-- What stands behind a value does not change how the value is written. -/
theorem writeOnto_append (indent : Option Nat) (depth : Nat) (rest more : Text) (j : Json) :
    writeOnto indent depth (rest ++ more) j = writeOnto indent depth rest j ++ more := by
  match j with
  | .null => simp [writeOnto]
  | .bool true => simp [writeOnto]
  | .bool false => simp [writeOnto]
  | .number _ => simp [writeOnto]
  | .string _ => simp [writeOnto]
  | .array [] => simp [writeOnto]
  | .array (j :: js) =>
    simp only [writeOnto, ← List.append_assoc, itemsOnto_append indent _ _ more js,
      writeOnto_append indent _ _ more j]
  | .object [] => simp [writeOnto]
  | .object ((_, j) :: ms) =>
    simp only [writeOnto, ← List.append_assoc, membersOnto_append indent _ _ more ms,
      writeOnto_append indent _ _ more j]

theorem itemsOnto_append (indent : Option Nat) (depth : Nat) (rest more : Text) (js : List Json) :
    itemsOnto indent depth (rest ++ more) js = itemsOnto indent depth rest js ++ more := by
  match js with
  | [] => simp [itemsOnto]
  | j :: js =>
    simp only [itemsOnto, ← List.append_assoc, itemsOnto_append indent _ _ more js,
      writeOnto_append indent _ _ more j]

theorem membersOnto_append (indent : Option Nat) (depth : Nat) (rest more : Text)
    (ms : List (Text × Json)) :
    membersOnto indent depth (rest ++ more) ms = membersOnto indent depth rest ms ++ more := by
  match ms with
  | [] => simp [membersOnto]
  | (_, j) :: ms =>
    simp only [membersOnto, ← List.append_assoc, membersOnto_append indent _ _ more ms,
      writeOnto_append indent _ _ more j]

end

/-- The value on one line. -/
def compact (j : Json) : Text := writeOnto none 0 [] j

/-- The value on many lines, two spaces deeper at each level. -/
def pretty (j : Json) : Text := writeOnto (some 2) 0 [] j

end Stencil.Json
