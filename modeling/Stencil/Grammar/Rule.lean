/-
The rules of the template language. A phrase is a sort of tree, a rule is a way to read one; the rules
whose names end in `Rest` or `Items` read on where a repetition has come to. A `Grammar` reads every
rule.
-/
import Stencil.Grammar.Stream
import Stencil.Tree.Stmt

namespace Stencil

/-- The statements that one tag contributes: one, or a list of any length. -/
inductive Splice
  | one (s : Stmt)
  | many (ss : List Stmt)
deriving Repr

def Splice.toList : Splice → List Stmt
  | one s => [s]
  | many ss => ss

/-- A condition of a conditional with the body that belongs to it. -/
structure Branch where
  start : Location
  test : Expr
  body : List Stmt
deriving Repr

/-- The branches behind the first one, and the body of `else`. -/
structure Branches where
  elifs : List Branch
  elseBody : List Stmt
deriving Repr

/-- The sorts of trees that rules read. -/
inductive Phrase
  | expr | exprs | pairs | operands | arguments | signature
  | stmt | splice | body | branches | names | template
deriving DecidableEq, Repr

/-- The trees of a sort. -/
@[reducible] def Phrase.Tree : Phrase → Type
  | expr => Expr
  | exprs => List Expr
  | pairs => List Pair
  | operands => List Operand
  | arguments => Arguments
  | signature => Signature
  | stmt => Stmt
  | splice => Splice
  | body => List Stmt
  | branches => Branches
  | names => List ImportName
  | template => Template

/-- What the items of a tuple may be. -/
inductive TupleItem
  /-- A primary expression with what follows it, as in the target of a loop. -/
  | primary
  /-- Any expression; a conditional one only if allowed. -/
  | expression (conditional : Bool)
deriving DecidableEq, Repr

/-- The rules of the language, each with the sort of tree it reads. -/
inductive Rule : Phrase → Type
  -- Expressions, from the loosest to the tightest.
  | expression (conditional : Bool) : Rule .expr
  | cond : Rule .expr
  | condRest (value : Expr) : Rule .expr
  | binary (op : BinaryOp) : Rule .expr
  | binaryRest (op : BinaryOp) (left : Expr) : Rule .expr
  | compare : Rule .expr
  | compareRest : Rule .operands
  | unary : Rule .expr
  | primary (withSuffixes : Bool) : Rule .expr
  | tuple (item : TupleItem) : Rule .expr
  | tupleRest (item : TupleItem) : Rule .exprs
  | list : Rule .expr
  | listItems (first : Bool) : Rule .exprs
  | dict : Rule .expr
  | dictItems (first : Bool) : Rule .pairs
  -- What follows a primary expression.
  | suffixes (e : Expr) : Rule .expr
  | subscript (object : Expr) : Rule .expr
  | subscriptItems (first : Bool) : Rule .exprs
  | subscriptItem : Rule .expr
  | call (callee : Expr) : Rule .expr
  | arguments : Rule .arguments
  | argumentsRest (opened : Location) (args : Arguments) : Rule .arguments
  | filter (input : Expr) : Rule .expr
  | filterChain (input : Option Expr) : Rule .expr
  | filterRest (filter : Expr) : Rule .expr
  | singleFilter (input : Option Expr) : Rule .expr
  | test (subject : Expr) : Rule .expr
  -- Statements.
  | statement : Rule .splice
  | statements (ends : List TokenKind) (dropEnd : Bool) : Rule .body
  | content (ends : Option (List TokenKind)) (pending : List Expr) : Rule .body
  | assign (target : Expr) : Rule .stmt
  | loop : Rule .stmt
  | conditional : Rule .stmt
  | branches : Rule .branches
  | block : Rule .stmt
  | extend : Rule .stmt
  | embed : Rule .stmt
  | importAs : Rule .stmt
  | importNames : Rule .stmt
  | nameItems (first : Bool) : Rule .names
  | print : Rule .stmt
  | printItems (first : Bool) : Rule .exprs
  | signature : Rule .signature
  | signatureRest (sofar : Signature) : Rule .signature
  | define : Rule .stmt
  | callBlock : Rule .stmt
  | filterBlock : Rule .stmt
  | template : Rule .template

/-- A reader for every rule. -/
abbrev Grammar : Type := ⦃p : Phrase⦄ → Rule p → Parser p.Tree

/-- An addition to the language: statements that begin with one of some names. The name is current
when its statement is read, and the closing delimiter when it has been read. -/
structure Extension where
  name : Text
  tags : List Text
  parse : Grammar → Parser Splice

end Stencil
