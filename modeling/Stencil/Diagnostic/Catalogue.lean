/-
The catalogue of mistakes: each has a code, a category, a message template and its documentation.
Codes determine mistakes and mistakes codes, which `ofCode?_code` and `code_of_ofCode?` state.
-/
import Stencil.Text.Search

namespace Stencil

/-- The stage of reading that reports a mistake. -/
inductive Category
  | lexer | parse
deriving DecidableEq, Repr

def Category.text : Category → Text
  | .lexer => "lexer"
  | .parse => "parse"

/-- A mistake that a template can contain. -/
inductive ErrorId
  | unterminatedString
  | unexpectedCharacter
  | unclosedTag
  | unexpectedToken
  | unexpectedInExpression
  | invalidTarget
  | reservedImport
  | invalidArguments
  | missingCall
  | invalidAttribute
  | parameterOrder
deriving DecidableEq, Repr

/-- A template that shows a mistake. -/
structure ErrorExample where
  description : Text
  code : Text
deriving DecidableEq, Repr

/-- The documentation of a mistake. -/
structure ErrorDefinition where
  category : Category
  description : Text
  messageTemplate : Text
  cause : Option Text
  resolution : Option Text
  examples : List ErrorExample
deriving DecidableEq, Repr

namespace ErrorId

def all : List ErrorId :=
  [unterminatedString, unexpectedCharacter, unclosedTag, unexpectedToken, unexpectedInExpression,
    invalidTarget, reservedImport, invalidArguments, missingCall, invalidAttribute, parameterOrder]

theorem mem_all (e : ErrorId) : e ∈ all := by cases e <;> decide

def code : ErrorId → Text
  | unterminatedString => "KILN-L001"
  | unexpectedCharacter => "KILN-L002"
  | unclosedTag => "KILN-L003"
  | unexpectedToken => "KILN-P001"
  | unexpectedInExpression => "KILN-P002"
  | invalidTarget => "KILN-P003"
  | reservedImport => "KILN-P004"
  | invalidArguments => "KILN-P005"
  | missingCall => "KILN-P006"
  | invalidAttribute => "KILN-P007"
  | parameterOrder => "KILN-P008"

def ofCode? (t : Text) : Option ErrorId := all.find? (·.code == t)

theorem ofCode?_code (e : ErrorId) : ofCode? e.code = some e := by cases e <;> decide

theorem code_eq_code_iff {a b : ErrorId} : a.code = b.code ↔ a = b := by
  refine ⟨fun h => ?_, congrArg code⟩
  rw [← Option.some_inj, ← ofCode?_code a, ← ofCode?_code b, h]

def definition : ErrorId → ErrorDefinition
  | unterminatedString => {
      category := .lexer
      description := "Unterminated string literal"
      messageTemplate := "Unterminated string literal"
      cause := some "String opened with a quote inside a tag but never closed."
      resolution := some "Add the matching closing quote before the end of the tag."
      examples := [⟨"Missing closing quote", "\x7b\x7b 'hello \x7d\x7d"⟩] }
  | unexpectedCharacter => {
      category := .lexer
      description := "Unexpected character"
      messageTemplate := "Unexpected character \x7bchar\x7d"
      cause := some "Character inside a tag is not part of the expression syntax."
      resolution := some "Remove the character, or move it outside the tag if it is literal text."
      examples := [⟨"Dollar sign inside an expression", "\x7b\x7b $price \x7d\x7d"⟩] }
  | unclosedTag => {
      category := .lexer
      description := "Unclosed tag"
      messageTemplate := "Unclosed \x7bconstruct\x7d, expected \x7bexpected\x7d"
      cause := some "A tag or comment was opened but the template ended first."
      resolution := some "Close the tag with its end delimiter."
      examples := [⟨"Missing comment terminator", "\x7b# note"⟩,
        ⟨"Missing variable terminator", "\x7b\x7b user.name"⟩] }
  | unexpectedToken => {
      category := .parse
      description := "Unexpected token"
      messageTemplate := "Expected \x7bexpected\x7d, got \x7bactual\x7d"
      cause := some "The parser required a specific token at this position."
      resolution := some "Check the statement syntax near the reported position, including end tags and closing brackets."
      examples := [⟨"Loop without the in keyword", "\x7b% for item items %\x7d\x7b% endfor %\x7d"⟩,
        ⟨"Unclosed parenthesis", "\x7b\x7b (a + b \x7d\x7d"⟩] }
  | unexpectedInExpression => {
      category := .parse
      description := "Unexpected token in expression"
      messageTemplate := "Unexpected \x7bactual\x7d"
      cause := some "The token cannot start an expression."
      resolution := some "Supply a name, literal, or bracketed expression here."
      examples := [⟨"Dangling operator", "\x7b\x7b a + \x7d\x7d"⟩] }
  | invalidTarget => {
      category := .parse
      description := "Invalid assignment target"
      messageTemplate := "Cannot assign to '\x7btarget\x7d'"
      cause := some "Only names, subscripts and tuples of those can be assigned, looped over or bound."
      resolution := some "Use a plain variable name as the target."
      examples := [⟨"Assigning to a literal", "\x7b% 1 = 2 %\x7d"⟩,
        ⟨"Binding an import to a constant name", "\x7b% import 'forms.html' as true %\x7d"⟩] }
  | reservedImport => {
      category := .parse
      description := "Reserved import name"
      messageTemplate := "Names starting with two underscores cannot be imported: '\x7bname\x7d'"
      cause := some "Double-underscore names are private to the imported template."
      resolution := some "Import a public name instead."
      examples := [⟨"Importing a private helper", "\x7b% from 'forms.html' import __helper %\x7d"⟩] }
  | invalidArguments => {
      category := .parse
      description := "Invalid call arguments"
      messageTemplate := "Invalid syntax for function call expression"
      cause := some "Positional arguments follow keyword arguments, or *args/**kwargs repeat or are followed by more arguments."
      resolution := some "Order arguments as positional, keyword, *args, **kwargs, each spread at most once."
      examples := [⟨"Positional after keyword", "\x7b\x7b f(a=1, 2) \x7d\x7d"⟩,
        ⟨"Repeated spread", "\x7b\x7b f(*a, *b) \x7d\x7d"⟩] }
  | missingCall => {
      category := .parse
      description := "Call block without call"
      messageTemplate := "Expected call"
      cause := some "A call block must invoke a macro or function."
      resolution := some "Add parentheses to invoke the callee."
      examples := [⟨"Missing parentheses", "\x7b% call dialog %\x7dbody\x7b% endcall %\x7d"⟩] }
  | invalidAttribute => {
      category := .parse
      description := "Invalid attribute access"
      messageTemplate := "Expected name or number after '.', got \x7bactual\x7d"
      cause := some "Dot access must be followed by an identifier or an integer index."
      resolution := some "Use bracket syntax for computed keys."
      examples := [⟨"String after dot", "\x7b\x7b user.'name' \x7d\x7d"⟩] }
  | parameterOrder => {
      category := .parse
      description := "Parameter order"
      messageTemplate := "Non-default parameter '\x7bname\x7d' follows default parameter"
      cause := some "Defaults are matched to the trailing parameters, so none may follow a defaulted one without its own default."
      resolution := some "Move the parameter before the defaulted ones or give it a default."
      examples := [⟨"Required parameter after optional one", "\x7b% macro input(type=\"text\", name) %\x7d\x7b% endmacro %\x7d"⟩] }

def category (e : ErrorId) : Category := e.definition.category

end ErrorId
end Stencil
