/-
The nodes of a tree, whatever their kind, with the children of each in the order of a walk.
-/
import Stencil.Tree.Stmt
import Stencil.Tree.Target

namespace Stencil

inductive Node
  | template (t : Template)
  | stmt (s : Stmt)
  | expr (e : Expr)
  | pair (p : Pair)
  | operand (o : Operand)
  | keyword (k : KeywordArg)
deriving Repr

namespace Node

def span : Node → Span
  | template t => t.span
  | stmt s => s.span
  | expr e => e.span
  | pair p => p.span
  | operand o => o.span
  | keyword k => k.span

/-- The name of the kind of a node. -/
def typeName : Node → Text
  | template _ => "Template"
  | stmt s => match s with
    | .output .. => "Output" | .assign .. => "Assign" | .loop .. => "For" | .branch .. => "If"
    | .block .. => "Block" | .extend .. => "Extends" | .embed .. => "Include"
    | .importAs .. => "Import" | .importNames .. => "FromImport" | .define .. => "Macro"
    | .callBlock .. => "CallBlock" | .filterBlock .. => "FilterBlock" | .expr .. => "ExprStmt"
    | .breakLoop .. => "Break" | .continueLoop .. => "Continue"
  | expr e => e.typeName
  | pair _ => "Pair"
  | operand _ => "Operand"
  | keyword _ => "Keyword"

/-! ## Children -/

def ofExprs (es : List Expr) : List Node := es.map expr

def ofStmts (ss : List Stmt) : List Node := ss.map stmt

def ofOption (e : Option Expr) : List Node := ofExprs e.toList

/-- The nodes of arguments: by position, by name, and the two spreads. -/
def ofArguments (a : Arguments) : List Node :=
  ofExprs a.positional ++ a.keywords.map keyword ++ ofOption a.spread ++ ofOption a.keywordSpread

/-- The nodes of a signature: the parameters, and then their defaults. -/
def ofSignature (s : Signature) : List Node := ofExprs (s.params.map Param.expr) ++ ofExprs s.defaults

def exprChildren : Expr → List Node
  | .const .. => []
  | .name .. => []
  | .tuple items _ _ => ofExprs items
  | .list items _ => ofExprs items
  | .dict items _ => items.map pair
  | .binary _ left right _ => [expr left, expr right]
  | .unary _ argument _ => [expr argument]
  | .compare first rest _ => expr first :: rest.map operand
  | .cond test whenTrue whenFalse _ => [expr test, expr whenTrue, expr whenFalse]
  | .subscript object index _ _ => [expr object, expr index]
  | .slice start stop step _ => ofOption start ++ ofOption stop ++ ofOption step
  | .call callee args _ => expr callee :: ofArguments args
  | .filter input _ args _ => ofOption input ++ ofArguments args
  | .test subject _ args _ => expr subject :: ofArguments args

def stmtChildren : Stmt → List Node
  | .output nodes _ => ofExprs nodes
  | .assign target value _ => [expr target, expr value]
  | .loop target iter body elseBody test _ =>
    expr target :: expr iter :: (ofOption test ++ ofStmts body ++ ofStmts elseBody)
  | .branch test body elseBody _ => expr test :: (ofStmts body ++ ofStmts elseBody)
  | .block _ body _ => ofStmts body
  | .extend source _ => [expr source]
  | .embed source _ => [expr source]
  | .importAs source _ _ => [expr source]
  | .importNames source _ _ => [expr source]
  | .define _ signature body _ => ofSignature signature ++ ofStmts body
  | .callBlock signature call body _ => ofSignature signature ++ expr call :: ofStmts body
  | .filterBlock filter body _ => expr filter :: ofStmts body
  | .expr node _ => [expr node]
  | .breakLoop _ => []
  | .continueLoop _ => []

/-- The direct children of a node. -/
def children : Node → List Node
  | template t => ofStmts t.body
  | stmt s => stmtChildren s
  | expr e => exprChildren e
  | pair (.mk key value _) => [expr key, expr value]
  | operand (.mk _ e _) => [expr e]
  | keyword (.mk _ value _) => [expr value]

end Node

end Stencil
