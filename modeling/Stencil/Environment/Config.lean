/-
Configurations: the choice of delimiters and extensions that a project writes down as JSON. `ofJson`
accepts exactly the objects of that shape and names the first fault of any other value; `environment?`
is the environment that a configuration asks for.
-/
import Stencil.Environment.Basic
import Stencil.Json.Reader

namespace Stencil

/-- The choices of a project. -/
structure Config where
  /-- The delimiters that are chosen, in the order in which they are written. -/
  delimiters : List (DelimiterName × Text)
  /-- The names of extensions that come with the library. -/
  extensions : List Text
deriving DecidableEq, Repr

/-- What makes a value no configuration. -/
inductive ConfigFault
  | notJson (complaint : Text)
  | notObject
  | unknownKey (key : Text)
  | delimitersShape
  | unknownDelimiter (key : Text)
  | delimiterShape (name : DelimiterName)
  | extensionsShape
  | unknownExtension (name : Text)
deriving DecidableEq, Repr

namespace Config

/-- The name of the file that holds a configuration. -/
def fileName : Text := ".kiln.json"

end Config

namespace ConfigFault

def reason : ConfigFault → Text
  | notJson complaint => Config.fileName ++ " is not valid JSON (" ++ complaint ++ ")"
  | notObject => "expected an object"
  | unknownKey key => "unknown key '" ++ key ++ "'"
  | delimitersShape => "delimiters must be an object"
  | unknownDelimiter key => "unknown delimiter '" ++ key ++ "'"
  | delimiterShape name => "delimiters." ++ name.text ++ " must be a string"
  | extensionsShape => "extensions must be an array of strings"
  | unknownExtension name => "unknown extension '" ++ name ++ "'"

def message (f : ConfigFault) : Text := "Invalid configuration: " ++ f.reason

end ConfigFault

namespace Config

def delimitersKey : Text := "delimiters"

def extensionsKey : Text := "extensions"

/-! ## From JSON -/

/-- The chosen delimiters among the members of an object. -/
def delimitersOf : Json.Members → Except ConfigFault (List (DelimiterName × Text))
  | [] => .ok []
  | (key, value) :: ms =>
    match DelimiterName.ofText? key, value with
    | none, _ => .error (.unknownDelimiter key)
    | some name, .string t => (delimitersOf ms).map ((name, t) :: ·)
    | some name, _ => .error (.delimiterShape name)

/-- The part of a configuration that chooses delimiters; it may be absent. -/
def readDelimiters : Option Json → Except ConfigFault (List (DelimiterName × Text))
  | none => .ok []
  | some (.object ms) => delimitersOf ms
  | some _ => .error .delimitersShape

/-- The texts that the items of a list are, if all of them are texts. -/
def texts? : List Json → Option (List Text)
  | [] => some []
  | .string t :: js => (texts? js).map (t :: ·)
  | _ :: _ => none

/-- The part of a configuration that chooses extensions; it may be absent. -/
def readExtensions : Option Json → Except ConfigFault (List Text)
  | none => .ok []
  | some (.array js) =>
    match texts? js with
    | none => .error .extensionsShape
    | some names =>
      match names.find? fun n => (Extension.ofName? n).isNone with
      | some n => .error (.unknownExtension n)
      | none => .ok names
  | some _ => .error .extensionsShape

/-- The configuration that a value is, or the first fault of the value. -/
def ofJson : Json → Except ConfigFault Config
  | .object ms =>
    match ms.find? fun m => m.1 != delimitersKey && m.1 != extensionsKey with
    | some m => .error (.unknownKey m.1)
    | none => do
      let delimiters ← readDelimiters (Json.Members.get? ms delimitersKey)
      let extensions ← readExtensions (Json.Members.get? ms extensionsKey)
      return ⟨delimiters, extensions⟩
  | _ => .error .notObject

/-- The configuration that a text writes; what there is to complain about a text that is no JSON comes from
outside. -/
def ofText (complaint : Text → Text) (t : Text) : Except ConfigFault Config :=
  match Json.read t with
  | none => .error (.notJson (complaint t))
  | some j => ofJson j

/-- The JSON value of a configuration. -/
def json (c : Config) : Json :=
  .object [(delimitersKey, .object (c.delimiters.map fun (k, t) => (k.text, .string t))),
    (extensionsKey, .array (c.extensions.map .string))]

/-! ## To an environment -/

/-- The options that a configuration stands for; a name that no extension has counts for nothing. -/
def options (c : Config) : Options where
  delimiter k := match c.delimiters.lookup k with
    | some t => .text t
    | none => .unset
  extensions := c.extensions.filterMap Extension.ofName?

/-- The environment of a project, which need not have a configuration. -/
def environment? : Option Config → Except EnvironmentFault Environment
  | none => .ok .standard
  | some c => Environment.create? c.options

end Config
end Stencil
