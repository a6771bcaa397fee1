/-
Trees as JSON records. A node becomes an object whose first member is its kind and whose last one is
its span; how spans and constants are written is a choice, `Leaves`. `Leaves.document` writes places by
name and an integer beyond the safe range as its digits.
-/
import Stencil.Json.Value
import Stencil.Tree.Node

namespace Stencil

/-- How the parts of a tree are written that are no nodes. -/
structure Leaves where
  span : Span → Json
  constant : Constant → Json

/-- A place as an object. -/
def Location.json (l : Location) : Json :=
  .object [("line", .ofNat l.line), ("column", .ofNat l.column), ("offset", .ofNat l.offset)]

/-- A span as an object. -/
def Span.json (s : Span) : Json := .object [("start", s.start.json), ("end", s.finish.json)]

/-- A constant as a JSON value; an integer beyond the safe range is the text of its digits. -/
def Constant.json : Constant → Json
  | .text t => .string t
  | .number x => .number x
  | .bigint i => .string (Text.ofInt i)
  | .bool b => .bool b
  | .none => .null

/-- The leaves of the JSON form of a tree. -/
def Leaves.document : Leaves := ⟨Span.json, Constant.json⟩

namespace Leaves

/-- A named part of a record. -/
def part (name : Text) (j : Json) : Text × Json := (name, j)

/-- The object of a node: its kind, its parts, its span. -/
def record (l : Leaves) (kind : Text) (parts : List (Text × Json)) (span : Span) : Json :=
  .object (("type", .string kind) :: (parts ++ [part "span" (l.span span)]))

mutual

def expr (l : Leaves) : Expr → Json
  | .const value s => l.record "Const" [("value", l.constant value)] s
  | .name name usage s => l.record "Name" [("name", .string name), ("ctx", .string usage.text)] s
  | .tuple items usage s =>
    l.record "Tuple" [("items", .array (l.exprs items)), ("ctx", .string usage.text)] s
  | .list items s => l.record "List" [("items", .array (l.exprs items))] s
  | .dict items s => l.record "Dict" [("items", .array (l.pairs items))] s
  | .binary op left right s =>
    l.record "BinaryExpr" [("op", .string op.text), ("left", l.expr left), ("right", l.expr right)] s
  | .unary op argument s =>
    l.record "UnaryExpr" [("op", .string op.text), ("node", l.expr argument)] s
  | .compare first rest s =>
    l.record "Compare" [("expr", l.expr first), ("ops", .array (l.operands rest))] s
  | .cond test whenTrue whenFalse s =>
    l.record "CondExpr"
      [("test", l.expr test), ("ifTrue", l.expr whenTrue), ("ifFalse", l.expr whenFalse)] s
  | .subscript object index usage s =>
    l.record "Subscript"
      [("node", l.expr object), ("arg", l.expr index), ("ctx", .string usage.text)] s
  | .slice start stop step s =>
    l.record "Slice"
      [("start", l.option start), ("stop", l.option stop), ("step", l.option step)] s
  | .call callee args s => l.record "Call" (("node", l.expr callee) :: l.arguments args) s
  | .filter input name args s =>
    l.record "Filter" (("node", l.option input) :: ("name", .string name) :: l.arguments args) s
  | .test subject name args s =>
    l.record "Test" (("node", l.expr subject) :: ("name", .string name) :: l.arguments args) s

def exprs (l : Leaves) : List Expr → List Json
  | [] => []
  | e :: es => l.expr e :: l.exprs es

def option (l : Leaves) : Option Expr → Json
  | none => .null
  | some e => l.expr e

def pair (l : Leaves) : Pair → Json
  | .mk key value s => l.record "Pair" [("key", l.expr key), ("value", l.expr value)] s

def pairs (l : Leaves) : List Pair → List Json
  | [] => []
  | p :: ps => l.pair p :: l.pairs ps

def operand (l : Leaves) : Operand → Json
  | .mk op e s => l.record "Operand" [("op", .string op.text), ("expr", l.expr e)] s

def operands (l : Leaves) : List Operand → List Json
  | [] => []
  | o :: os => l.operand o :: l.operands os

def keyword (l : Leaves) : KeywordArg → Json
  | .mk key value s => l.record "Keyword" [("key", .string key), ("value", l.expr value)] s

def keywords (l : Leaves) : List KeywordArg → List Json
  | [] => []
  | k :: ks => l.keyword k :: l.keywords ks

/-- The members for the arguments of a call, filter or test. -/
def arguments (l : Leaves) : Arguments → List (Text × Json)
  | .mk positional keywords spread keywordSpread =>
    [("args", .array (l.exprs positional)), ("kwargs", .array (l.keywords keywords)),
      ("dynArgs", l.option spread), ("dynKwargs", l.option keywordSpread)]

end

/-- The members for the parameters of a macro or call block. -/
def signature (l : Leaves) (s : Signature) : List (Text × Json) :=
  [("params", .array (s.params.map fun p => l.expr p.expr)),
    ("defaults", .array (l.exprs s.defaults))]

def importName (n : ImportName) : Json :=
  .object [("name", .string n.name), ("alias", .ofOption .string n.localName)]

mutual

def stmt (l : Leaves) : Stmt → Json
  | .output nodes s => l.record "Output" [("nodes", .array (l.exprs nodes))] s
  | .assign target value s =>
    l.record "Assign" [("target", l.expr target), ("value", l.expr value)] s
  | .loop target iter body elseBody test s =>
    l.record "For" [("target", l.expr target), ("iter", l.expr iter), ("body", .array (l.stmts body)),
      ("elseBody", .array (l.stmts elseBody)), ("test", l.option test)] s
  | .branch test body elseBody s =>
    l.record "If" [("test", l.expr test), ("body", .array (l.stmts body)),
      ("elseBody", .array (l.stmts elseBody))] s
  | .block name body s =>
    l.record "Block" [("name", .string name), ("body", .array (l.stmts body))] s
  | .extend source s => l.record "Extends" [("template", l.expr source)] s
  | .embed source s => l.record "Include" [("template", l.expr source)] s
  | .importAs source target s =>
    l.record "Import" [("template", l.expr source), ("target", .string target)] s
  | .importNames source names s =>
    l.record "FromImport" [("template", l.expr source), ("names", .array (names.map importName))] s
  | .define name signature body s =>
    l.record "Macro"
      (("name", .string name) :: (l.signature signature ++ [part "body" (.array (l.stmts body))])) s
  | .callBlock signature call body s =>
    l.record "CallBlock"
      (l.signature signature ++ [part "call" (l.expr call), part "body" (.array (l.stmts body))]) s
  | .filterBlock filter body s =>
    l.record "FilterBlock" [("filter", l.expr filter), ("body", .array (l.stmts body))] s
  | .expr node s => l.record "ExprStmt" [("node", l.expr node)] s
  | .breakLoop s => l.record "Break" [] s
  | .continueLoop s => l.record "Continue" [] s

def stmts (l : Leaves) : List Stmt → List Json
  | [] => []
  | s :: ss => l.stmt s :: l.stmts ss

end

def template (l : Leaves) (t : Template) : Json :=
  l.record "Template" [("body", .array (l.stmts t.body))] t.span

/-- The record of a node of any kind. -/
def node (l : Leaves) : Node → Json
  | .template t => l.template t
  | .stmt s => l.stmt s
  | .expr e => l.expr e
  | .pair p => l.pair p
  | .operand o => l.operand o
  | .keyword k => l.keyword k

end Leaves

/-- The JSON value of a template. -/
def Template.json (t : Template) : Json := Leaves.document.template t

end Stencil
