/-
Expressions. Every part knows the stretch of source it was read from; names, tuples and subscripts
also know how they are used.
-/
import Stencil.Location
import Stencil.Tree.Constant

namespace Stencil

/-- How an assignable expression is used: read, written, or bound as a parameter. -/
inductive Usage
  | load | store | param
deriving DecidableEq, Repr

def Usage.text : Usage → Text
  | .load => "load"
  | .store => "store"
  | .param => "param"

/-- The operators between two operands that group to the left, from the loosest to the tightest. -/
inductive BinaryOp
  | or | and | add | sub | concat | mul | div | floordiv | mod | pow
deriving DecidableEq, Repr

def BinaryOp.text : BinaryOp → Text
  | .or => "or" | .and => "and" | .add => "add" | .sub => "sub" | .concat => "concat"
  | .mul => "mul" | .div => "div" | .floordiv => "floordiv" | .mod => "mod" | .pow => "pow"

inductive UnaryOp
  | not | neg | pos
deriving DecidableEq, Repr

def UnaryOp.text : UnaryOp → Text
  | .not => "not" | .neg => "neg" | .pos => "pos"

inductive CompareOp
  | eq | ne | lt | lteq | gt | gteq | isIn | notIn
deriving DecidableEq, Repr

def CompareOp.text : CompareOp → Text
  | .eq => "eq" | .ne => "ne" | .lt => "lt" | .lteq => "lteq" | .gt => "gt" | .gteq => "gteq"
  | .isIn => "in" | .notIn => "notin"

mutual

inductive Expr
  | const (value : Constant) (span : Span)
  | name (name : Text) (usage : Usage) (span : Span)
  | tuple (items : List Expr) (usage : Usage) (span : Span)
  | list (items : List Expr) (span : Span)
  | dict (items : List Pair) (span : Span)
  | binary (op : BinaryOp) (left right : Expr) (span : Span)
  | unary (op : UnaryOp) (operand : Expr) (span : Span)
  /-- A chain of comparisons: a first operand, and operators with the operands they lead to. -/
  | compare (first : Expr) (operands : List Operand) (span : Span)
  /-- `whenTrue if test else whenFalse`. -/
  | cond (test whenTrue whenFalse : Expr) (span : Span)
  /-- `object.attribute`, `object.0` and `object[index]`. -/
  | subscript (object index : Expr) (usage : Usage) (span : Span)
  /-- `start:stop:step` inside a subscript. -/
  | slice (start stop step : Option Expr) (span : Span)
  | call (callee : Expr) (args : Arguments) (span : Span)
  /-- A filter applied to an input; the head of a filter block has none. -/
  | filter (input : Option Expr) (name : Text) (args : Arguments) (span : Span)
  | test (subject : Expr) (name : Text) (args : Arguments) (span : Span)

/-- A key and its value in a dictionary. -/
inductive Pair
  | mk (key value : Expr) (span : Span)

/-- An operator of a chain of comparisons, and the operand behind it. -/
inductive Operand
  | mk (op : CompareOp) (expr : Expr) (span : Span)

/-- An argument given by name. -/
inductive KeywordArg
  | mk (key : Text) (value : Expr) (span : Span)

/-- The arguments of a call, filter or test: by position, by name, `*expr` and `**expr`. -/
inductive Arguments
  | mk (positional : List Expr) (keywords : List KeywordArg) (spread keywordSpread : Option Expr)

end

deriving instance Repr for Expr, Pair, Operand, KeywordArg, Arguments

instance : Inhabited Expr := ⟨.tuple [] .load ⟨.origin, .origin⟩⟩

def Pair.span : Pair → Span
  | .mk _ _ s => s

def Operand.span : Operand → Span
  | .mk _ _ s => s

def KeywordArg.span : KeywordArg → Span
  | .mk _ _ s => s

namespace Arguments

def empty : Arguments := .mk [] [] none none

def positional : Arguments → List Expr
  | .mk a _ _ _ => a

def keywords : Arguments → List KeywordArg
  | .mk _ k _ _ => k

def spread : Arguments → Option Expr
  | .mk _ _ s _ => s

def keywordSpread : Arguments → Option Expr
  | .mk _ _ _ s => s

end Arguments

namespace Expr

def span : Expr → Span
  | const _ s | name _ _ s | tuple _ _ s | list _ s | dict _ s | binary _ _ _ s | unary _ _ s
  | compare _ _ s | cond _ _ _ s | subscript _ _ _ s | slice _ _ _ s | call _ _ s | filter _ _ _ s
  | test _ _ _ s => s

end Expr
end Stencil
