/-
Statements and templates. A body is a list of statements; an `elif` is a conditional that stands alone
in the else body of the one before it.
-/
import Stencil.Tree.Expr

namespace Stencil

/-- A name that is imported, under another name or under its own. -/
structure ImportName where
  name : Text
  localName : Option Text
deriving DecidableEq, Repr

/-- A parameter of a macro or call block. -/
structure Param where
  name : Text
  span : Span
deriving DecidableEq, Repr

/-- A parameter as an expression. -/
def Param.expr (p : Param) : Expr := .name p.name .param p.span

/-- Parameters, with the defaults of the last ones. -/
structure Signature where
  params : List Param
  defaults : List Expr
deriving Repr

inductive Stmt
  /-- Literal data and interpolations between two statement tags, or the expressions of `print`. -/
  | output (nodes : List Expr) (span : Span)
  | assign (target value : Expr) (span : Span)
  | loop (target iter : Expr) (body elseBody : List Stmt) (test : Option Expr) (span : Span)
  | branch (test : Expr) (body elseBody : List Stmt) (span : Span)
  | block (name : Text) (body : List Stmt) (span : Span)
  | extend (template : Expr) (span : Span)
  | embed (template : Expr) (span : Span)
  | importAs (template : Expr) (target : Text) (span : Span)
  | importNames (template : Expr) (names : List ImportName) (span : Span)
  | define (name : Text) (signature : Signature) (body : List Stmt) (span : Span)
  | callBlock (signature : Signature) (call : Expr) (body : List Stmt) (span : Span)
  | filterBlock (filter : Expr) (body : List Stmt) (span : Span)
  | expr (node : Expr) (span : Span)
  | breakLoop (span : Span)
  | continueLoop (span : Span)
deriving Repr

def Stmt.span : Stmt → Span
  | output _ s | assign _ _ s | loop _ _ _ _ _ s | branch _ _ _ s | block _ _ s | extend _ s
  | embed _ s | importAs _ _ s | importNames _ _ s | define _ _ _ s | callBlock _ _ _ s
  | filterBlock _ _ s | expr _ s | breakLoop s | continueLoop s => s

/-- A whole template. -/
structure Template where
  body : List Stmt
  span : Span
deriving Repr

end Stencil
