/-
Tokens and their kinds, with the descriptions used in messages. A kind may also be one that the
library does not know, named by its label: such tokens come from hosts that build their own.
-/
import Stencil.Location
import Stencil.Token.Keyword
import Stencil.Token.Symbol

namespace Stencil

inductive TokenKind
  | data | variableBegin | variableEnd | blockBegin | blockEnd
  | name | string | integer | float
  | symbol (s : Symbol)
  | keyword (k : Keyword)
  | eof
  | other (label : Text)
deriving DecidableEq, Repr

namespace TokenKind

/-- The kinds that are neither symbols nor keywords. -/
def plain : List TokenKind :=
  [data, variableBegin, variableEnd, blockBegin, blockEnd, name, string, integer, float, eof]

def known : List TokenKind := plain ++ Symbol.all.map symbol ++ Keyword.all.map keyword

/-- The name of a kind. -/
def label : TokenKind → Text
  | data => "DATA" | variableBegin => "VARIABLE_BEGIN" | variableEnd => "VARIABLE_END"
  | blockBegin => "BLOCK_BEGIN" | blockEnd => "BLOCK_END"
  | name => "NAME" | string => "STRING" | integer => "INTEGER" | float => "FLOAT"
  | symbol s => s.label
  | keyword k => k.label
  | eof => "EOF"
  | other l => l

/-- The kind with a given name. -/
def ofLabel (l : Text) : TokenKind := (known.find? (·.label == l)).getD (other l)

/-- The text between apostrophes. -/
def quoted (t : Text) : Text := Text.singleQuote :: (t ++ [Text.singleQuote])

/-- The kind in words. -/
def describe : TokenKind → Text
  | data => "template data"
  | variableBegin => "begin of print statement" | variableEnd => "end of print statement"
  | blockBegin => "begin of statement block" | blockEnd => "end of statement block"
  | name => "name" | string => "string" | integer => "integer" | float => "float"
  | symbol s => quoted s.text
  | keyword k => quoted k.text
  | eof => "end of template"
  | other l => quoted l.lower

/-- The word of a kind, as a tag would show it. -/
def word (k : TokenKind) : Text := k.label.lower

/-- The kind names the end of a block statement. -/
def endsStatement (k : TokenKind) : Bool := k.label.startsWith "END"

end TokenKind

/-- A token: its kind, its value and the stretch of source it stands for. -/
structure Token where
  kind : TokenKind
  /-- Identifier, contents of a string without escapes, digits or raw data. -/
  value : Text
  span : Span
deriving DecidableEq, Repr

namespace Token

/-- The token in words: a name by itself, any other by its kind. -/
def describe (t : Token) : Text :=
  match t.kind with
  | .name => TokenKind.quoted t.value
  | k => k.describe

/-- The token at the end of a source. -/
def atEnd (l : Location) : Token := ⟨.eof, [], ⟨l, l⟩⟩

end Token
end Stencil
