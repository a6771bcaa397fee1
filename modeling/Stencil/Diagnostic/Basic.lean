/-
Diagnostics: a mistake with its message, place, context and the name of the template. The full message
ends with the place; `baseMessage` takes such an ending off again, wherever it came from.
-/
import Stencil.Diagnostic.Catalogue
import Stencil.Diagnostic.Message
import Stencil.Location

namespace Stencil

/-- How specific a diagnostic is: about templates in general, about their tokens, about their
structure, or about a structure that a rule of the language forbids. -/
inductive DiagnosticClass
  | general | lexer | parse | assertion
deriving DecidableEq, Repr

namespace DiagnosticClass

/-- The first class includes the second. -/
def includes : DiagnosticClass → DiagnosticClass → Bool
  | general, _ => true
  | parse, assertion => true
  | a, b => a == b

/-- The category whose mistakes a class reports; the general class reports all. -/
def category? : DiagnosticClass → Option Category
  | general => none
  | lexer => some .lexer
  | parse => some .parse
  | assertion => some .parse

end DiagnosticClass

/-- A reported mistake. -/
structure Diagnostic where
  kind : DiagnosticClass
  id : ErrorId
  /-- The whole message, the place included if there is one. -/
  message : Text
  location : Option Location
  context : Option MessageContext
  filename : Option Text
deriving Repr

/-- A code that names no mistake, or not one of the kind asked for. -/
inductive CodeFault
  | missing
  | unknown (code : Text)
  | wrongCategory (expected : Category) (code : Text)
deriving DecidableEq, Repr

def CodeFault.message : CodeFault → Text
  | .missing => "errorId is required"
  | .unknown code => "Unknown error ID: " ++ code
  | .wrongCategory expected code =>
    "Expected " ++ expected.text ++ " error ID, got: " ++ code

namespace Diagnostic

/-- The ending that says where a mistake is. -/
def placeText (l : Location) : Text := " at " ++ l.text

/-- A diagnostic of a given class with a message of its own. -/
def make (kind : DiagnosticClass) (id : ErrorId) (message : Text) (location : Option Location)
    (context : Option MessageContext) (filename : Option Text) : Diagnostic :=
  { kind, id, message := message ++ (location.map placeText).getD [], location, context, filename }

/-- The class that reports a mistake. -/
def classOf (id : ErrorId) : DiagnosticClass :=
  match id with
  | .reservedImport => .assertion
  | _ => match id.category with
    | .lexer => .lexer
    | .parse => .parse

/-- The diagnostic of a mistake, its message rendered from the catalogue. -/
def report (id : ErrorId) (context : MessageContext) (location : Location) (filename : Option Text) :
    Diagnostic :=
  make (classOf id) id (Message.render id.definition.messageTemplate context) (some location)
    (some context) filename

/-- The diagnostic of a mistake given by its code. -/
def reportCode (code : Text) (context : MessageContext) (location : Location)
    (filename : Option Text) : Except CodeFault Diagnostic :=
  match ErrorId.ofCode? code with
  | none => .error (.unknown code)
  | some id => .ok (report id context location filename)

/-- The diagnostic of a mistake in the structure of a template, given by its code. -/
def reportParse (code : Text) (context : MessageContext) (location : Location)
    (filename : Option Text) : Except CodeFault Diagnostic :=
  match ErrorId.ofCode? code with
  | none => .error (.unknown code)
  | some id =>
    if id.category = .parse then .ok (report id context location filename)
    else .error (.wrongCategory .parse code)

/-- A diagnostic of a given class with a message of its own, the mistake given by its code. An
assertion is always about a reserved import, whatever the code. -/
def makeCode (kind : DiagnosticClass) (code : Text) (message : Text) (location : Option Location)
    (context : Option MessageContext) (filename : Option Text) : Except CodeFault Diagnostic :=
  let code := if kind = .assertion then ErrorId.reservedImport.code else code
  match ErrorId.ofCode? code with
  | none => .error (if kind = .general ∧ code = [] then .missing else .unknown code)
  | some id =>
    match kind.category? with
    | some c =>
      if id.category = c then .ok (make kind id message location context filename)
      else .error (.wrongCategory c code)
    | none => .ok (make kind id message location context filename)

/-- The text without an ending ` at line:column`, if it has one. -/
def dropPlace (t : Text) : Text :=
  let r := t.reverse
  let column := r.takeWhile Text.isDigit
  match r.dropWhile Text.isDigit with
  | [] => t
  | c :: r =>
    if column = [] ∨ c ≠ Text.unit ':' then t
    else if r.takeWhile Text.isDigit = [] then t
    else match Text.after? (Text.ofString " at ").reverse (r.dropWhile Text.isDigit) with
      | some rest => rest.reverse
      | none => t

/-- The message without the place. -/
def baseMessage (d : Diagnostic) : Text := dropPlace d.message

def line? (d : Diagnostic) : Option Nat := d.location.map (·.line)

end Diagnostic
end Stencil
