/-
What the JSON text of a tree keeps of its constants. `Constant.kept` is the constant that the text has for another one:
an integer beyond the safe range becomes the text of its digits, and a number that is not finite, for which JSON has no
numeral, becomes nothing. `mapConstants f` sends every constant of a tree through `f` and leaves all else as it is.
-/
import Stencil.Tree.Record
import Stencil.Tree.Walk

namespace Stencil

/-- The constant that is left of one in JSON text. -/
def Constant.kept : Constant → Constant
  | .number (.finite negative m e) => .number (.finite negative m e)
  | .number _ => .none
  | .bigint i => .text (Text.ofInt i)
  | c => c

/-- The constant of a node that is one. -/
def Node.constant? : Node → Option Constant
  | .expr (.const c _) => some c
  | _ => none

/-- The constants of a tree. -/
def Node.constants (n : Node) : List Constant := n.descendants.filterMap constant?

variable (f : Constant → Constant)

/-! ## Expressions -/

mutual

/-- The expression with its constants sent through a map. -/
@[simp] def Expr.mapConstants : Expr → Expr
  | .const c s => .const (f c) s
  | .name n u s => .name n u s
  | .tuple items u s => .tuple (Expr.mapConstantsAll items) u s
  | .list items s => .list (Expr.mapConstantsAll items) s
  | .dict items s => .dict (Pair.mapConstantsAll items) s
  | .binary op left right s => .binary op left.mapConstants right.mapConstants s
  | .unary op operand s => .unary op operand.mapConstants s
  | .compare first operands s => .compare first.mapConstants (Operand.mapConstantsAll operands) s
  | .cond test whenTrue whenFalse s => .cond test.mapConstants whenTrue.mapConstants whenFalse.mapConstants s
  | .subscript object index u s => .subscript object.mapConstants index.mapConstants u s
  | .slice start stop step s =>
    .slice (Expr.mapConstantsOption start) (Expr.mapConstantsOption stop) (Expr.mapConstantsOption step) s
  | .call callee args s => .call callee.mapConstants args.mapConstants s
  | .filter input name args s => .filter (Expr.mapConstantsOption input) name args.mapConstants s
  | .test subject name args s => .test subject.mapConstants name args.mapConstants s

def Expr.mapConstantsAll : List Expr → List Expr
  | [] => []
  | e :: es => e.mapConstants :: Expr.mapConstantsAll es

def Expr.mapConstantsOption : Option Expr → Option Expr
  | none => none
  | some e => some e.mapConstants

@[simp] def Pair.mapConstants : Pair → Pair
  | .mk key value s => .mk key.mapConstants value.mapConstants s

def Pair.mapConstantsAll : List Pair → List Pair
  | [] => []
  | p :: ps => p.mapConstants :: Pair.mapConstantsAll ps

@[simp] def Operand.mapConstants : Operand → Operand
  | .mk op e s => .mk op e.mapConstants s

def Operand.mapConstantsAll : List Operand → List Operand
  | [] => []
  | o :: os => o.mapConstants :: Operand.mapConstantsAll os

@[simp] def KeywordArg.mapConstants : KeywordArg → KeywordArg
  | .mk key value s => .mk key value.mapConstants s

def KeywordArg.mapConstantsAll : List KeywordArg → List KeywordArg
  | [] => []
  | k :: ks => k.mapConstants :: KeywordArg.mapConstantsAll ks

@[simp] def Arguments.mapConstants : Arguments → Arguments
  | .mk positional keywords spread keywordSpread =>
    .mk (Expr.mapConstantsAll positional) (KeywordArg.mapConstantsAll keywords) (Expr.mapConstantsOption spread)
      (Expr.mapConstantsOption keywordSpread)

end

/-! ## Statements and templates -/

@[simp] def Signature.mapConstants (g : Signature) : Signature := ⟨g.params, Expr.mapConstantsAll f g.defaults⟩

mutual

/-- The statement with its constants sent through a map. -/
@[simp] def Stmt.mapConstants : Stmt → Stmt
  | .output nodes s => .output (Expr.mapConstantsAll f nodes) s
  | .assign target value s => .assign (target.mapConstants f) (value.mapConstants f) s
  | .loop target iter body elseBody test s =>
    .loop (target.mapConstants f) (iter.mapConstants f) (Stmt.mapConstantsAll body) (Stmt.mapConstantsAll elseBody)
      (Expr.mapConstantsOption f test) s
  | .branch test body elseBody s =>
    .branch (test.mapConstants f) (Stmt.mapConstantsAll body) (Stmt.mapConstantsAll elseBody) s
  | .block name body s => .block name (Stmt.mapConstantsAll body) s
  | .extend template s => .extend (template.mapConstants f) s
  | .embed template s => .embed (template.mapConstants f) s
  | .importAs template target s => .importAs (template.mapConstants f) target s
  | .importNames template names s => .importNames (template.mapConstants f) names s
  | .define name signature body s => .define name (signature.mapConstants f) (Stmt.mapConstantsAll body) s
  | .callBlock signature call body s =>
    .callBlock (signature.mapConstants f) (call.mapConstants f) (Stmt.mapConstantsAll body) s
  | .filterBlock filter body s => .filterBlock (filter.mapConstants f) (Stmt.mapConstantsAll body) s
  | .expr node s => .expr (node.mapConstants f) s
  | .breakLoop s => .breakLoop s
  | .continueLoop s => .continueLoop s

def Stmt.mapConstantsAll : List Stmt → List Stmt
  | [] => []
  | s :: ss => s.mapConstants :: Stmt.mapConstantsAll ss

end

@[simp] def Template.mapConstants (t : Template) : Template := ⟨Stmt.mapConstantsAll f t.body, t.span⟩

/-- The node with the constants of its tree sent through a map. -/
@[simp] def Node.mapConstants : Node → Node
  | .template t => .template (t.mapConstants f)
  | .stmt s => .stmt (s.mapConstants f)
  | .expr e => .expr (e.mapConstants f)
  | .pair p => .pair (p.mapConstants f)
  | .operand o => .operand (o.mapConstants f)
  | .keyword k => .keyword (k.mapConstants f)

end Stencil
