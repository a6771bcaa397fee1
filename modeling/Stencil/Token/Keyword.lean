/-
The reserved words. A word is reserved or it is a plain name; `true`, `false`, `none` and `as` are
plain names.
-/
import Stencil.Text.Search

namespace Stencil

/-- A reserved word: an operator, the first word of a statement, or the word that ends one. -/
inductive Keyword
  | andOp | orOp | notOp | inOp | isOp
  | ifTag | elifTag | elseTag | endIf | forTag | endFor | blockTag | endBlock
  | extendsTag | includeTag | importTag | fromTag | macroTag | endMacro
  | callTag | endCall | filterTag | endFilter | printTag
deriving DecidableEq, Repr

namespace Keyword

/-- The written form. -/
def text : Keyword → Text
  | andOp => "and" | orOp => "or" | notOp => "not" | inOp => "in" | isOp => "is"
  | ifTag => "if" | elifTag => "elif" | elseTag => "else" | endIf => "endif"
  | forTag => "for" | endFor => "endfor" | blockTag => "block" | endBlock => "endblock"
  | extendsTag => "extends" | includeTag => "include" | importTag => "import" | fromTag => "from"
  | macroTag => "macro" | endMacro => "endmacro" | callTag => "call" | endCall => "endcall"
  | filterTag => "filter" | endFilter => "endfilter" | printTag => "print"

/-- The name of the keyword as a kind of token. -/
def label (k : Keyword) : Text := k.text.upper

def all : List Keyword :=
  [andOp, orOp, notOp, inOp, isOp, ifTag, elifTag, elseTag, endIf, forTag, endFor, blockTag, endBlock,
    extendsTag, includeTag, importTag, fromTag, macroTag, endMacro, callTag, endCall, filterTag,
    endFilter, printTag]

theorem mem_all (k : Keyword) : k ∈ all := by cases k <;> decide

/-- The keyword that a word is, if it is reserved. -/
def ofText? (t : Text) : Option Keyword := all.find? fun k => k.text == t

theorem text_of_ofText? {t : Text} {k : Keyword} (h : ofText? t = some k) : k.text = t := by
  simpa using List.find?_some h

theorem ofText?_text (k : Keyword) : ofText? k.text = some k := by cases k <;> decide

end Keyword
end Stencil
