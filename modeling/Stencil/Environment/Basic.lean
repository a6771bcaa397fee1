/-
Environments: the delimiters and extensions that a template is read under. An environment is built
from options by `create?`, which fills in what is not given and refuses unusable choices with the
first fault found; what it builds is sound, and that is part of the type.
-/
import Stencil.Grammar.Builtin
import Stencil.Grammar.Run

namespace Stencil

/-- What makes options unusable. -/
inductive EnvironmentFault
  | emptyDelimiter (name : DelimiterName)
  | equalStarts
  | reservedTag (extension tag : Text)
  | claimedTwice (tag first second : Text)
deriving DecidableEq, Repr

def EnvironmentFault.message : EnvironmentFault → Text
  | .emptyDelimiter k => "Invalid environment: " ++ k.text ++ " must be a non-empty string"
  | .equalStarts =>
    "Invalid environment: block, variable and comment start delimiters must differ"
  | .reservedTag x tag =>
    "Invalid environment: extension " ++ x ++ " uses reserved keyword '" ++ tag ++ "' as a tag"
  | .claimedTwice tag a b =>
    "Invalid environment: tag '" ++ tag ++ "' is claimed by both " ++ a ++ " and " ++ b

namespace Extension

/-- The first fault among claims of tags, `claimed` being those before them. -/
def claimFault? (claimed : List (Text × Text)) : List (Text × Text) → Option EnvironmentFault
  | [] => none
  | (tag, owner) :: claims =>
    if (Keyword.ofText? tag).isSome then some (.reservedTag owner tag)
    else match claimed.lookup tag with
      | some first => some (.claimedTwice tag first owner)
      | none => claimFault? ((tag, owner) :: claimed) claims

/-- The claims of extensions: each tag with the name of the extension. -/
def claims (xs : List Extension) : List (Text × Text) :=
  xs.flatMap fun x => x.tags.map fun t => (t, x.name)

/-- The first tag that is a keyword or is claimed a second time. -/
def fault? (xs : List Extension) : Option EnvironmentFault := claimFault? [] (claims xs)

end Extension

/-- The choice of one delimiter. -/
inductive Setting
  | unset
  | text (t : Text)
  /-- Something that is no text. -/
  | malformed
deriving DecidableEq, Repr

/-- What an environment is built from. -/
structure Options where
  delimiter : DelimiterName → Setting
  extensions : List Extension

def Options.none : Options := ⟨fun _ => .unset, []⟩

/-- What a template is read under. -/
structure Environment where
  delimiters : Delimiters
  extensions : List Extension
  sound : delimiters.fault? = none
  unclaimed : Extension.fault? extensions = none

namespace Environment

/-- The text of a delimiter; one that is malformed counts as empty. -/
def resolve (k : DelimiterName) : Setting → Text
  | .unset => Delimiters.standard.get k
  | .text t => t
  | .malformed => []

def delimiterFault : Delimiters.Fault → EnvironmentFault
  | .empty k => .emptyDelimiter k
  | .equalStarts => .equalStarts

/-- The environment of options, or the first fault of theirs. -/
def create? (o : Options) : Except EnvironmentFault Environment :=
  let d := Delimiters.ofFun fun k => resolve k (o.delimiter k)
  match hd : d.fault? with
  | some f => .error (delimiterFault f)
  | none =>
    match hx : Extension.fault? o.extensions with
    | some f => .error f
    | none => .ok ⟨d, o.extensions, hd, hx⟩

/-- The environment without any choice. -/
def standard : Environment := ⟨.standard, [], Delimiters.standard_fault, rfl⟩

theorem isSound (env : Environment) : env.delimiters.Sound := Delimiters.fault?_eq_none_iff.1 env.sound

/-- The grammar of the templates of an environment. -/
def grammar (env : Environment) : Grammar := .ofExtensions (Extension.find? env.extensions)

end Environment
end Stencil
