/-
Arguments of the command line tools. `split` takes options and positional arguments apart; an option
given twice keeps its place and takes the last value. `CheckRequest` and `TreeRequest` are what the two
tools can be asked to do.
-/
import Stencil.Text.Search

namespace Stencil.Tool

/-- What makes arguments unusable. -/
inductive ArgumentFault
  | missingValue (flag : Text)
  | unknownOption (argument : Text)
  | unknownFormat (given : Text) (known : List Text)
  | missingFile
  | unexpected (arguments : List Text)
deriving DecidableEq, Repr

def ArgumentFault.message : ArgumentFault → Text
  | .missingValue flag => "Missing value after " ++ flag
  | .unknownOption a => "Unknown option: " ++ a
  | .unknownFormat given known =>
    "Invalid --format value: " ++ given ++ ". Must be one of: " ++ Text.join ", " known
  | .missingFile => "Missing file argument"
  | .unexpected as => "Unexpected argument: " ++ Text.join " " as

/-! ## Options and positional arguments -/

/-- What an option says: that it is there, or the value behind it. -/
inductive OptionValue
  | present
  | text (t : Text)
deriving DecidableEq, Repr

def OptionValue.text? : OptionValue → Option Text
  | present => none
  | text t => some t

/-- The options, in the order in which each is given first. -/
abbrev OptionList := List (Text × OptionValue)

/-- The options after one more has been given. -/
def OptionList.set (flag : Text) (v : OptionValue) : OptionList → OptionList
  | [] => [(flag, v)]
  | (f, w) :: os => if f = flag then (f, v) :: os else (f, w) :: set flag v os

/-- Giving an option changes what that option says and nothing else. -/
theorem OptionList.lookup_set (flag f : Text) (v : OptionValue) (os : OptionList) :
    (os.set flag v).lookup f = if f = flag then some v else os.lookup f := by
  induction os with
  | nil =>
    by_cases h : f = flag
    · subst h; simp [set]
    · simp [set, List.lookup_cons, beq_false_of_ne h, h]
  | cons o os ih =>
    obtain ⟨g, w⟩ := o
    by_cases hg : g = flag
    · subst hg
      by_cases h : f = g
      · subst h; simp [set]
      · simp [set, List.lookup_cons, beq_false_of_ne h, h]
    · by_cases h : f = g
      · subst h; simp [set, hg]
      · simp [set, List.lookup_cons, beq_false_of_ne h, hg, ih]

/-- The flags of a tool: those that take the next argument, and those that stand alone. -/
structure Flags where
  valued : List Text
  alone : List Text

/-- Arguments taken apart. -/
structure Arguments where
  options : OptionList
  positional : List Text
deriving DecidableEq, Repr

namespace Arguments

/-- The text that an option is given. -/
def text? (a : Arguments) (flag : Text) : Option Text := (a.options.lookup flag).bind OptionValue.text?

/-- Whether an option is given. -/
def has (a : Arguments) (flag : Text) : Bool := (a.options.lookup flag).isSome

/-- An argument that begins with a dash and is more than a dash. -/
def isDashed (arg : Text) : Bool := arg.startsWith "-" && arg != Text.ofString "-"

/-- The arguments taken apart, behind those that have been taken apart before. -/
def splitFrom (flags : Flags) (done : Arguments) : List Text → Except ArgumentFault Arguments
  | [] => .ok done
  | arg :: rest =>
    if flags.valued.contains arg then
      match rest with
      | [] => .error (.missingValue arg)
      | value :: rest => splitFrom flags { done with options := done.options.set arg (.text value) } rest
    else if flags.alone.contains arg then
      splitFrom flags { done with options := done.options.set arg .present } rest
    else if isDashed arg then .error (.unknownOption arg)
    else splitFrom flags { done with positional := done.positional ++ [arg] } rest

/-- The options and the positional arguments, or the first argument that is neither. -/
def split (flags : Flags) (args : List Text) : Except ArgumentFault Arguments :=
  splitFrom flags ⟨[], []⟩ args

/-- The one file that is named. -/
def file (a : Arguments) : Except ArgumentFault Text :=
  match a.positional with
  | [] => .error .missingFile
  | [f] => .ok f
  | _ :: more => .error (.unexpected more)

end Arguments

/-! ## Requests -/

/-- What any tool can be asked, wherever it stands among the arguments. -/
inductive Notice
  | help | version
deriving DecidableEq, Repr

/-- The notice that is asked for; help comes before the version. -/
def Notice.ofArguments? (args : List Text) : Option Notice :=
  if args.contains "--help" || args.contains "-h" then some help
  else if args.contains "--version" || args.contains "-v" then some version
  else none

/-- A format of output, among those of a tool. -/
class Format (α : Type) where
  all : List α
  name : α → Text
  standard : α

/-- The format that is asked for. -/
def Format.ofArguments {α : Type} [Format α] (a : Arguments) : Except ArgumentFault α :=
  match a.text? "--format" with
  | none => .ok (Format.standard : α)
  | some given =>
    match (Format.all : List α).find? fun f => Format.name f == given with
    | some f => .ok f
    | none => .error (.unknownFormat given ((Format.all : List α).map Format.name))

inductive CheckFormat
  | text | json
deriving DecidableEq, Repr

instance : Format CheckFormat where
  all := [.text, .json]
  name
    | .text => "text"
    | .json => "json"
  standard := .text

/-- What the checker can be asked to do. -/
inductive CheckRequest
  | check (file : Text) (format : CheckFormat) (verbose : Bool)
  | explain (code : Text)
  | notice (n : Notice)
deriving DecidableEq, Repr

def CheckRequest.flags : Flags := ⟨["--format", "--explain"], ["--verbose"]⟩

/-- The request to the checker that arguments make. -/
def CheckRequest.ofArguments (args : List Text) : Except ArgumentFault CheckRequest :=
  match Notice.ofArguments? args with
  | some n => .ok (.notice n)
  | none => do
    let a ← Arguments.split flags args
    match a.text? "--explain" with
    | some code => return .explain code
    | none =>
      let format ← Format.ofArguments a
      let file ← a.file
      return .check file format (a.has "--verbose")

inductive TreeFormat
  | json | yaml
deriving DecidableEq, Repr

instance : Format TreeFormat where
  all := [.json, .yaml]
  name
    | .json => "json"
    | .yaml => "yaml"
  standard := .json

/-- What the printer of trees can be asked to do. -/
inductive TreeRequest
  | tree (file : Text) (format : TreeFormat)
  | notice (n : Notice)
deriving DecidableEq, Repr

def TreeRequest.flags : Flags := ⟨["--format"], []⟩

/-- The request to the printer of trees that arguments make. -/
def TreeRequest.ofArguments (args : List Text) : Except ArgumentFault TreeRequest :=
  match Notice.ofArguments? args with
  | some n => .ok (.notice n)
  | none => do
    let a ← Arguments.split flags args
    let format ← Format.ofArguments a
    let file ← a.file
    return .tree file format

end Stencil.Tool
