/-
Trees from JSON values. `Json.component?` takes a value for a part of a tree: a place, a span, a node, a list of parts,
or a constant. It is strict: the members of an object must be those of its kind, in their order, and no others.
-/
import Stencil.Tree.Record

namespace Stencil

/-! ## Names of operators and usages -/

def Usage.ofText? (t : Text) : Option Usage := [load, store, param].find? fun u => u.text = t

def BinaryOp.ofText? (t : Text) : Option BinaryOp :=
  [or, and, add, sub, concat, mul, div, floordiv, mod, pow].find? fun op => op.text = t

def UnaryOp.ofText? (t : Text) : Option UnaryOp := [not, neg, pos].find? fun op => op.text = t

def CompareOp.ofText? (t : Text) : Option CompareOp :=
  [eq, ne, lt, lteq, gt, gteq, isIn, notIn].find? fun op => op.text = t

@[simp] theorem Usage.ofText?_text (u : Usage) : ofText? u.text = some u := by cases u <;> decide +kernel

@[simp] theorem BinaryOp.ofText?_text (op : BinaryOp) : ofText? op.text = some op := by cases op <;> decide +kernel

@[simp] theorem UnaryOp.ofText?_text (op : UnaryOp) : ofText? op.text = some op := by cases op <;> decide +kernel

@[simp] theorem CompareOp.ofText?_text (op : CompareOp) : ofText? op.text = some op := by cases op <;> decide +kernel

/-! ## Parts of trees -/

/-- What a value is in a tree. -/
inductive Component
  | constant (c : Constant)
  | items (ps : List Component)
  | place (l : Location)
  | stretch (s : Span)
  | imported (n : ImportName)
  | node (n : Node)

namespace Component

def text? : Component → Option Text
  | constant (.text t) => some t
  | _ => none

/-- The natural number that a part is. -/
def nat? : Component → Option Nat
  | constant (.number x) => x.toInt?.bind Int.toNat?
  | _ => none

def expr? : Component → Option Expr
  | node (.expr e) => some e
  | _ => none

def pair? : Component → Option Pair
  | node (.pair p) => some p
  | _ => none

def operand? : Component → Option Operand
  | node (.operand o) => some o
  | _ => none

def keyword? : Component → Option KeywordArg
  | node (.keyword k) => some k
  | _ => none

def stmt? : Component → Option Stmt
  | node (.stmt s) => some s
  | _ => none

def imported? : Component → Option ImportName
  | imported n => some n
  | _ => none

/-- A parameter is a name that is bound as one. -/
def param? : Component → Option Param
  | node (.expr (.name name .param s)) => some ⟨name, s⟩
  | _ => none

/-- An expression that may be missing. -/
def option? : Component → Option (Option Expr)
  | constant .none => some none
  | p => p.expr?.map some

/-- The items of a list, each of one sort. -/
def list? {α : Type} (f : Component → Option α) : Component → Option (List α)
  | items ps => ps.mapM f
  | _ => none

def arguments? (positional keywords spread keywordSpread : Component) : Option Arguments := do
  return .mk (← positional.list? expr?) (← keywords.list? keyword?) (← spread.option?) (← keywordSpread.option?)

def signature? (params defaults : Component) : Option Signature := do
  return ⟨← params.list? param?, ← defaults.list? expr?⟩

/-! ## Objects -/

/-- A kind of nodes: the names of the members between kind and span, and the node that is made of their parts and the
span. -/
structure Shape where
  kind : Text
  names : List Text
  make : List Component → Option Node

def shapes : List Shape := [
  ⟨"Const", ["value"], fun
    | [constant c, stretch s] => some (.expr (.const c s))
    | _ => none⟩,
  ⟨"Name", ["name", "ctx"], fun
    | [n, u, stretch s] => do return .expr (.name (← n.text?) (← u.text?.bind Usage.ofText?) s)
    | _ => none⟩,
  ⟨"Tuple", ["items", "ctx"], fun
    | [es, u, stretch s] => do return .expr (.tuple (← es.list? expr?) (← u.text?.bind Usage.ofText?) s)
    | _ => none⟩,
  ⟨"List", ["items"], fun
    | [es, stretch s] => do return .expr (.list (← es.list? expr?) s)
    | _ => none⟩,
  ⟨"Dict", ["items"], fun
    | [ps, stretch s] => do return .expr (.dict (← ps.list? pair?) s)
    | _ => none⟩,
  ⟨"BinaryExpr", ["op", "left", "right"], fun
    | [op, e, e', stretch s] => do
      return .expr (.binary (← op.text?.bind BinaryOp.ofText?) (← e.expr?) (← e'.expr?) s)
    | _ => none⟩,
  ⟨"UnaryExpr", ["op", "node"], fun
    | [op, e, stretch s] => do return .expr (.unary (← op.text?.bind UnaryOp.ofText?) (← e.expr?) s)
    | _ => none⟩,
  ⟨"Compare", ["expr", "ops"], fun
    | [e, os, stretch s] => do return .expr (.compare (← e.expr?) (← os.list? operand?) s)
    | _ => none⟩,
  ⟨"CondExpr", ["test", "ifTrue", "ifFalse"], fun
    | [c, e, e', stretch s] => do return .expr (.cond (← c.expr?) (← e.expr?) (← e'.expr?) s)
    | _ => none⟩,
  ⟨"Subscript", ["node", "arg", "ctx"], fun
    | [e, i, u, stretch s] => do
      return .expr (.subscript (← e.expr?) (← i.expr?) (← u.text?.bind Usage.ofText?) s)
    | _ => none⟩,
  ⟨"Slice", ["start", "stop", "step"], fun
    | [e, e', e'', stretch s] => do return .expr (.slice (← e.option?) (← e'.option?) (← e''.option?) s)
    | _ => none⟩,
  ⟨"Call", ["node", "args", "kwargs", "dynArgs", "dynKwargs"], fun
    | [e, a, k, d, dk, stretch s] => do return .expr (.call (← e.expr?) (← arguments? a k d dk) s)
    | _ => none⟩,
  ⟨"Filter", ["node", "name", "args", "kwargs", "dynArgs", "dynKwargs"], fun
    | [e, n, a, k, d, dk, stretch s] => do
      return .expr (.filter (← e.option?) (← n.text?) (← arguments? a k d dk) s)
    | _ => none⟩,
  ⟨"Test", ["node", "name", "args", "kwargs", "dynArgs", "dynKwargs"], fun
    | [e, n, a, k, d, dk, stretch s] => do
      return .expr (.test (← e.expr?) (← n.text?) (← arguments? a k d dk) s)
    | _ => none⟩,
  ⟨"Pair", ["key", "value"], fun
    | [k, v, stretch s] => do return .pair (.mk (← k.expr?) (← v.expr?) s)
    | _ => none⟩,
  ⟨"Operand", ["op", "expr"], fun
    | [op, e, stretch s] => do return .operand (.mk (← op.text?.bind CompareOp.ofText?) (← e.expr?) s)
    | _ => none⟩,
  ⟨"Keyword", ["key", "value"], fun
    | [k, v, stretch s] => do return .keyword (.mk (← k.text?) (← v.expr?) s)
    | _ => none⟩,
  ⟨"Output", ["nodes"], fun
    | [es, stretch s] => do return .stmt (.output (← es.list? expr?) s)
    | _ => none⟩,
  ⟨"Assign", ["target", "value"], fun
    | [t, v, stretch s] => do return .stmt (.assign (← t.expr?) (← v.expr?) s)
    | _ => none⟩,
  ⟨"For", ["target", "iter", "body", "elseBody", "test"], fun
    | [t, i, b, eb, c, stretch s] => do
      return .stmt (.loop (← t.expr?) (← i.expr?) (← b.list? stmt?) (← eb.list? stmt?) (← c.option?) s)
    | _ => none⟩,
  ⟨"If", ["test", "body", "elseBody"], fun
    | [c, b, eb, stretch s] => do return .stmt (.branch (← c.expr?) (← b.list? stmt?) (← eb.list? stmt?) s)
    | _ => none⟩,
  ⟨"Block", ["name", "body"], fun
    | [n, b, stretch s] => do return .stmt (.block (← n.text?) (← b.list? stmt?) s)
    | _ => none⟩,
  ⟨"Extends", ["template"], fun
    | [e, stretch s] => do return .stmt (.extend (← e.expr?) s)
    | _ => none⟩,
  ⟨"Include", ["template"], fun
    | [e, stretch s] => do return .stmt (.embed (← e.expr?) s)
    | _ => none⟩,
  ⟨"Import", ["template", "target"], fun
    | [e, n, stretch s] => do return .stmt (.importAs (← e.expr?) (← n.text?) s)
    | _ => none⟩,
  ⟨"FromImport", ["template", "names"], fun
    | [e, ns, stretch s] => do return .stmt (.importNames (← e.expr?) (← ns.list? imported?) s)
    | _ => none⟩,
  ⟨"Macro", ["name", "params", "defaults", "body"], fun
    | [n, ps, ds, b, stretch s] => do
      return .stmt (.define (← n.text?) (← signature? ps ds) (← b.list? stmt?) s)
    | _ => none⟩,
  ⟨"CallBlock", ["params", "defaults", "call", "body"], fun
    | [ps, ds, c, b, stretch s] => do
      return .stmt (.callBlock (← signature? ps ds) (← c.expr?) (← b.list? stmt?) s)
    | _ => none⟩,
  ⟨"FilterBlock", ["filter", "body"], fun
    | [f, b, stretch s] => do return .stmt (.filterBlock (← f.expr?) (← b.list? stmt?) s)
    | _ => none⟩,
  ⟨"ExprStmt", ["node"], fun
    | [e, stretch s] => do return .stmt (.expr (← e.expr?) s)
    | _ => none⟩,
  ⟨"Break", [], fun
    | [stretch s] => some (.stmt (.breakLoop s))
    | _ => none⟩,
  ⟨"Continue", [], fun
    | [stretch s] => some (.stmt (.continueLoop s))
    | _ => none⟩,
  ⟨"Template", ["body"], fun
    | [b, stretch s] => do return .template ⟨← b.list? stmt?, s⟩
    | _ => none⟩]

@[simp] theorem text?_text (t : Text) : text? (constant (.text t)) = some t := rfl

@[simp] theorem expr?_expr (e : Expr) : expr? (node (.expr e)) = some e := rfl

theorem list?_map {α : Type} {f : Component → Option α} {g : α → Component} (as : List α) (h : ∀ a, f (g a) = some a) :
    list? f (items (as.map g)) = some as := by
  rw [list?, List.mapM_map]
  induction as with
  | nil => rfl
  | cons a as ih =>
    rw [List.mapM_cons, ih, Function.comp_apply, h]
    rfl

@[simp] theorem list?_exprs (es : List Expr) : list? expr? (items (es.map fun e => node (.expr e))) = some es :=
  list?_map es fun _ => rfl

@[simp] theorem list?_pairs (ps : List Pair) : list? pair? (items (ps.map fun p => node (.pair p))) = some ps :=
  list?_map ps fun _ => rfl

@[simp] theorem list?_operands (os : List Operand) :
    list? operand? (items (os.map fun o => node (.operand o))) = some os := list?_map os fun _ => rfl

@[simp] theorem list?_keywords (ks : List KeywordArg) :
    list? keyword? (items (ks.map fun k => node (.keyword k))) = some ks := list?_map ks fun _ => rfl

@[simp] theorem list?_stmts (ss : List Stmt) : list? stmt? (items (ss.map fun s => node (.stmt s))) = some ss :=
  list?_map ss fun _ => rfl

@[simp] theorem list?_params (ps : List Param) :
    list? param? (items (ps.map fun p => node (.expr p.expr))) = some ps := list?_map ps fun _ => rfl

@[simp] theorem list?_imported (ns : List ImportName) : list? imported? (items (ns.map imported)) = some ns :=
  list?_map ns fun _ => rfl

/-- The node that members make, of which the first one is its kind. -/
def node? : List (Text × Component) → Option Node
  | (first, constant (.text kind)) :: ms =>
    (shapes.find? fun shape => shape.kind = kind).bind fun shape =>
      if first = Text.ofString "type" ∧ ms.map Prod.fst = shape.names ++ [Text.ofString "span"] then
        shape.make (ms.map Prod.snd)
      else none
  | _ => none

/-- An object that is no node is told by the names of its members. -/
def ofMembers? (ms : List (Text × Component)) : Option Component :=
  let parts := ms.map Prod.snd
  if ms.map Prod.fst = [Text.ofString "line", Text.ofString "column", Text.ofString "offset"] then
    match parts with
    | [l, c, o] => do return place ⟨← l.nat?, ← c.nat?, ← o.nat?⟩
    | _ => none
  else if ms.map Prod.fst = [Text.ofString "start", Text.ofString "end"] then
    match parts with
    | [place l, place l'] => some (stretch ⟨l, l'⟩)
    | _ => none
  else if ms.map Prod.fst = [Text.ofString "name", Text.ofString "alias"] then
    match parts with
    | [constant (.text n), constant (.text a)] => some (imported ⟨n, some a⟩)
    | [constant (.text n), constant .none] => some (imported ⟨n, none⟩)
    | _ => none
  else (node? ms).map node

end Component

/-! ## Values -/

namespace Json

mutual

/-- The part of a tree that a value is. -/
def component? : Json → Option Component
  | .null => some (.constant .none)
  | .bool b => some (.constant (.bool b))
  | .number x => some (.constant (.number x))
  | .string t => some (.constant (.text t))
  | .array js => (components? js).map .items
  | .object ms => (memberComponents? ms).bind Component.ofMembers?

def components? : List Json → Option (List Component)
  | [] => some []
  | j :: js => do return (← component? j) :: (← components? js)

def memberComponents? : List (Text × Json) → Option (List (Text × Component))
  | [] => some []
  | (name, j) :: ms => do return (name, ← component? j) :: (← memberComponents? ms)

end

end Json

/-- The template that a value records. -/
def Template.ofJson? (j : Json) : Option Template :=
  match j.component? with
  | some (.node (.template t)) => some t
  | _ => none

end Stencil
