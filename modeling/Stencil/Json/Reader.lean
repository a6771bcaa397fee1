/-
Reading JSON text, strictly by its grammar: no trailing commas, no leading zeros, no raw control
characters, nothing before or behind the value but white space. The depth of recursion is bounded by
the length of the text.
-/
import Stencil.Json.Value
import Stencil.Number.Literal

namespace Stencil.Json

/-- White space between the parts of a JSON text. -/
def skipSpace (t : Text) : Text := t.dropWhile Text.isSpacing

/-! ## Strings and numbers -/

/-- The unit behind a backslash that stands for one unit. -/
def readEscape (c : CodeUnit) : Option CodeUnit :=
  if c = Text.doubleQuote || c = Text.backslash || c = Text.unit '/' then some c
  else if c = Text.unit 'b' then some 8
  else if c = Text.unit 'f' then some 12
  else if c = Text.unit 'n' then some 10
  else if c = Text.unit 'r' then some 13
  else if c = Text.unit 't' then some 9
  else none

/-- The rest of a string behind its opening quote, and what follows its closing one. -/
def readString : Text → Option (Text × Text)
  | [] => none
  | c :: t =>
    if c = Text.doubleQuote then some ([], t)
    else if c < 32 then none
    else if c = Text.backslash then
      match t with
      | [] => none
      | e :: t =>
        if e = Text.unit 'u' then
          match t with
          | a :: b :: g :: h :: r =>
            match Text.value? 16 [a, b, g, h] with
            | some n => (readString r).map fun (s, u) => (n.toUInt16 :: s, u)
            | none => none
          | _ => none
        else match readEscape e with
          | some c => (readString t).map fun (s, u) => (c :: s, u)
          | none => none
    else (readString t).map fun (s, u) => (c :: s, u)

/-- The digits at the head of a text; there is one at least. -/
def readDigits (t : Text) : Option (Text × Text) :=
  let ds := t.takeWhile Text.isDigit
  if ds = [] then none else some (ds, t.dropWhile Text.isDigit)

/-- The whole part of a number: zero, or digits that do not begin with zero. -/
def readWhole : Text → Option (Text × Text)
  | [] => none
  | c :: t => if c = Text.unit '0' then some ([c], t) else readDigits (c :: t)

/-- The fraction of a number, point included; it may be absent. -/
def readFraction : Text → Option (Text × Text)
  | [] => some ([], [])
  | c :: t =>
    if c = Text.unit '.' then (readDigits t).map fun (ds, r) => (c :: ds, r) else some ([], c :: t)

/-- The exponent of a number, mark included; it may be absent. -/
def readExponent : Text → Option (Text × Text)
  | [] => some ([], [])
  | c :: t =>
    if Text.lowerUnit c = Text.unit 'e' then
      match t with
      | s :: u =>
        if s = Text.unit '+' || s = Text.unit '-' then
          (readDigits u).map fun (ds, r) => (c :: s :: ds, r)
        else (readDigits t).map fun (ds, r) => (c :: ds, r)
      | [] => none
    else some ([], c :: t)

/-- A number at the head of a text. -/
def readNumber (t : Text) : Option (Double × Text) := do
  let (sign, t) := match t with
    | c :: r => if c = Text.unit '-' then ([c], r) else ([], t)
    | [] => ([], [])
  let (whole, t) ← readWhole t
  let (fraction, t) ← readFraction t
  let (exponent, t) ← readExponent t
  return (Double.read (sign ++ whole ++ fraction ++ exponent), t)

/-! ## Values -/

/-- A word at the head of a text. -/
def readWord (t : Text) : Option (Json × Text) :=
  match Text.after? "null" t, Text.after? "true" t, Text.after? "false" t with
  | some r, _, _ => some (.null, r)
  | _, some r, _ => some (.bool true, r)
  | _, _, some r => some (.bool false, r)
  | _, _, _ => none

mutual

/-- A value at the head of a text, white space before it not counting. -/
def readValue : Nat → Text → Option (Json × Text)
  | 0, _ => none
  | n + 1, t =>
    match skipSpace t with
    | [] => none
    | c :: r =>
      if c = Text.doubleQuote then (readString r).map fun (s, u) => (.string s, u)
      else if c = Text.unit '[' then
        match Text.after? "]" (skipSpace r) with
        | some u => some (.array [], u)
        | none => (readItems n r).map fun (js, u) => (.array js, u)
      else if c = Text.unit '\x7b' then
        match Text.after? "\x7d" (skipSpace r) with
        | some u => some (.object [], u)
        | none => (readMembers n r).map fun (ms, u) => (.object (Members.ofList ms), u)
      else if c = Text.unit '-' || Text.isDigit c then
        (readNumber (c :: r)).map fun (x, u) => (.number x, u)
      else readWord (c :: r)

/-- The items of an array up to its closing bracket; there is one at least. -/
def readItems : Nat → Text → Option (List Json × Text)
  | 0, _ => none
  | n + 1, t => do
    let (j, r) ← readValue n t
    let r := skipSpace r
    match Text.after? "," r with
    | some u => do
      let (js, u) ← readItems n u
      return (j :: js, u)
    | none => do
      let u ← Text.after? "]" r
      return ([j], u)

/-- The members of an object up to its closing brace; there is one at least. -/
def readMembers : Nat → Text → Option (List (Text × Json) × Text)
  | 0, _ => none
  | n + 1, t => do
    let r ← Text.after? [Text.doubleQuote] (skipSpace t)
    let (name, r) ← readString r
    let r ← Text.after? ":" (skipSpace r)
    let (j, r) ← readValue n r
    let r := skipSpace r
    match Text.after? "," r with
    | some u => do
      let (ms, u) ← readMembers n u
      return ((name, j) :: ms, u)
    | none => do
      let u ← Text.after? "\x7d" r
      return ([(name, j)], u)

end

/-- The value that a whole text writes. -/
def read (t : Text) : Option Json :=
  match readValue (2 * t.length + 2) t with
  | some (j, r) => if skipSpace r = [] then some j else none
  | none => none

end Stencil.Json
