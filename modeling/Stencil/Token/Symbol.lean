/-
The operators and brackets of expressions, each with its written form and its name. Where two symbols
begin alike the longer one is read.
-/
import Stencil.Text.Search

namespace Stencil

/-- An operator or bracket inside a tag. -/
inductive Symbol
  | plus | minus | star | slash | doubleSlash | percent | doubleStar | tilde
  | pipe | dot | comma | colon | semicolon | assign
  | equal | notEqual | less | lessEqual | greater | greaterEqual
  | openParen | closeParen | openBracket | closeBracket | openBrace | closeBrace
deriving DecidableEq, Repr

namespace Symbol

/-- The written form. -/
def text : Symbol → Text
  | plus => "+" | minus => "-" | star => "*" | slash => "/" | doubleSlash => "//"
  | percent => "%" | doubleStar => "**" | tilde => "~"
  | pipe => "|" | dot => "." | comma => "," | colon => ":" | semicolon => ";" | assign => "="
  | equal => "==" | notEqual => "!=" | less => "<" | lessEqual => "<="
  | greater => ">" | greaterEqual => ">="
  | openParen => "(" | closeParen => ")" | openBracket => "[" | closeBracket => "]"
  | openBrace => "\x7b" | closeBrace => "\x7d"

/-- The name of the symbol as a kind of token. -/
def label : Symbol → Text
  | plus => "ADD" | minus => "SUB" | star => "MUL" | slash => "DIV" | doubleSlash => "FLOORDIV"
  | percent => "MOD" | doubleStar => "POW" | tilde => "TILDE"
  | pipe => "PIPE" | dot => "DOT" | comma => "COMMA" | colon => "COLON" | semicolon => "SEMICOLON"
  | assign => "ASSIGN"
  | equal => "EQ" | notEqual => "NE" | less => "LT" | lessEqual => "LTEQ"
  | greater => "GT" | greaterEqual => "GTEQ"
  | openParen => "LPAREN" | closeParen => "RPAREN" | openBracket => "LBRACKET"
  | closeBracket => "RBRACKET" | openBrace => "LBRACE" | closeBrace => "RBRACE"

/-- All symbols, those of two units first. -/
def all : List Symbol :=
  [doubleSlash, doubleStar, equal, notEqual, lessEqual, greaterEqual,
    plus, minus, star, slash, percent, tilde, pipe, dot, comma, colon, semicolon, assign, less, greater,
    openParen, closeParen, openBracket, closeBracket, openBrace, closeBrace]

theorem mem_all (s : Symbol) : s ∈ all := by cases s <;> decide

theorem text_ne_nil (s : Symbol) : s.text ≠ [] := by cases s <;> decide

/-- The symbol at the head of a text, the longer of two. -/
def leading? (t : Text) : Option Symbol := all.find? fun s => t.startsWith s.text

theorem startsWith_of_leading? {t : Text} {s : Symbol} (h : leading? t = some s) :
    t.startsWith s.text = true := by
  simpa using List.find?_some h

/-- The bracket that closes an opening one. -/
def closer? : Symbol → Option Symbol
  | openParen => some closeParen
  | openBracket => some closeBracket
  | openBrace => some closeBrace
  | _ => none

end Symbol
end Stencil
