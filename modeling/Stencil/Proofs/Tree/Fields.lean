/-
The nodes that are stored in the fields of a node. `Node.fields` names the fields of every kind of node, and a record
has just these members with the records of just these nodes in them (`fields_recorded`). The children of a node are
what its fields hold (`children_perm`), so the nodes that fields hold at any depth are those below the root, each as
often as it is stored (`descendants_perm_stored`).
-/
import Mathlib.Data.List.Perm.Basic
import Stencil.Tree.Record
import Stencil.Tree.Walk

namespace Stencil

/-! ## Fields -/

namespace Node

def argumentFields (a : Arguments) : List (Text × List Node) :=
  [("args", ofExprs a.positional), ("kwargs", a.keywords.map keyword), ("dynArgs", ofOption a.spread),
    ("dynKwargs", ofOption a.keywordSpread)]

def exprFields : Expr → List (Text × List Node)
  | .const .. => [("value", [])]
  | .name .. => [("name", []), ("ctx", [])]
  | .tuple items _ _ => [("items", ofExprs items), ("ctx", [])]
  | .list items _ => [("items", ofExprs items)]
  | .dict items _ => [("items", items.map pair)]
  | .binary _ left right _ => [("op", []), ("left", [expr left]), ("right", [expr right])]
  | .unary _ argument _ => [("op", []), ("node", [expr argument])]
  | .compare first rest _ => [("expr", [expr first]), ("ops", rest.map operand)]
  | .cond test whenTrue whenFalse _ =>
    [("test", [expr test]), ("ifTrue", [expr whenTrue]), ("ifFalse", [expr whenFalse])]
  | .subscript object index _ _ => [("node", [expr object]), ("arg", [expr index]), ("ctx", [])]
  | .slice start stop step _ => [("start", ofOption start), ("stop", ofOption stop), ("step", ofOption step)]
  | .call callee args _ => ("node", [expr callee]) :: argumentFields args
  | .filter input _ args _ => ("node", ofOption input) :: ("name", []) :: argumentFields args
  | .test subject _ args _ => ("node", [expr subject]) :: ("name", []) :: argumentFields args

def stmtFields : Stmt → List (Text × List Node)
  | .output nodes _ => [("nodes", ofExprs nodes)]
  | .assign target value _ => [("target", [expr target]), ("value", [expr value])]
  | .loop target iter body elseBody test _ =>
    [("target", [expr target]), ("iter", [expr iter]), ("body", ofStmts body), ("elseBody", ofStmts elseBody),
      ("test", ofOption test)]
  | .branch test body elseBody _ => [("test", [expr test]), ("body", ofStmts body), ("elseBody", ofStmts elseBody)]
  | .block _ body _ => [("name", []), ("body", ofStmts body)]
  | .extend source _ => [("template", [expr source])]
  | .embed source _ => [("template", [expr source])]
  | .importAs source _ _ => [("template", [expr source]), ("target", [])]
  | .importNames source _ _ => [("template", [expr source]), ("names", [])]
  | .define _ signature body _ =>
    [("name", []), ("params", ofExprs (signature.params.map Param.expr)), ("defaults", ofExprs signature.defaults),
      ("body", ofStmts body)]
  | .callBlock signature call body _ =>
    [("params", ofExprs (signature.params.map Param.expr)), ("defaults", ofExprs signature.defaults),
      ("call", [expr call]), ("body", ofStmts body)]
  | .filterBlock filter body _ => [("filter", [expr filter]), ("body", ofStmts body)]
  | .expr node _ => [("node", [expr node])]
  | .breakLoop _ => []
  | .continueLoop _ => []

/-- The fields of a node besides its kind and its span, each with the nodes that are stored in it. -/
def fields : Node → List (Text × List Node)
  | template t => [("body", ofStmts t.body)]
  | stmt s => stmtFields s
  | expr e => exprFields e
  | pair (.mk key value _) => [("key", [expr key]), ("value", [expr value])]
  | operand (.mk _ e _) => [("op", []), ("expr", [expr e])]
  | keyword (.mk _ value _) => [("key", []), ("value", [expr value])]

/-- The nodes that are stored in the fields of a node. -/
def held (n : Node) : List Node := n.fields.flatMap Prod.snd

end Node

/-! ## The members of records -/

namespace Json

mutual

/-- The records of nodes in a value, without those that are in another record. -/
def records : Json → List Json
  | .object ms => if ms.any (fun m => m.1 == "type") then [.object ms] else memberRecords ms
  | .array js => itemRecords js
  | _ => []

def itemRecords : List Json → List Json
  | [] => []
  | j :: js => records j ++ itemRecords js

def memberRecords : List (Text × Json) → List Json
  | [] => []
  | (_, j) :: ms => records j ++ memberRecords ms

end

/-- The members of a record, each with the records in it. -/
def fields (j : Json) : List (Text × List Json) := j.members.map fun m => (m.1, m.2.records)

/-- The fields of a record of a node: its kind and its span stand around the others, and hold no records. -/
def framed (fs : List (Text × List Json)) : List (Text × List Json) :=
  ("type", []) :: (fs ++ [(Text.ofString "span", [])])

end Json

namespace Leaves

/-- What is no node is written without records. -/
structure Plain (l : Leaves) : Prop where
  span : ∀ s, (l.span s).records = []
  constant : ∀ c, (l.constant c).records = []

theorem document_plain : document.Plain where
  span s := by
    obtain ⟨start, finish⟩ := s
    rfl
  constant c := by cases c <;> rfl

variable {l : Leaves}

theorem records_record (l : Leaves) (kind : Text) (parts : List (Text × Json)) (span : Span) :
    (l.record kind parts span).records = [l.record kind parts span] := by
  unfold record
  simp only [Json.records, List.any_cons, beq_self_eq_true, Bool.true_or, if_true]

/-- The record of a node is one record. -/
theorem records_node (l : Leaves) (n : Node) : (l.node n).records = [l.node n] := by
  cases n with
  | template t => exact records_record ..
  | stmt s => cases s <;> exact records_record ..
  | expr e => cases e <;> exact records_record ..
  | pair p => cases p; exact records_record ..
  | operand o => cases o; exact records_record ..
  | keyword k => cases k; exact records_record ..

/-- A list that is written item by item, each as a node, has the records of these nodes. -/
theorem records_items {α : Type} (l : Leaves) (make : α → Node) {w : List α → List Json} (hnil : w [] = [])
    (hcons : ∀ a as, w (a :: as) = l.node (make a) :: w as) (as : List α) :
    (Json.array (w as)).records = (as.map make).map l.node := by
  rw [Json.records]
  induction as with
  | nil =>
    rw [hnil]
    rfl
  | cons a as ih =>
    rw [hcons, Json.itemRecords, records_node, ih]
    rfl

theorem records_exprs (l : Leaves) (es : List Expr) :
    (Json.array (l.exprs es)).records = (Node.ofExprs es).map l.node := l.records_items .expr rfl (fun _ _ => rfl) es

theorem records_stmts (l : Leaves) (ss : List Stmt) :
    (Json.array (l.stmts ss)).records = (Node.ofStmts ss).map l.node := l.records_items .stmt rfl (fun _ _ => rfl) ss

theorem records_option (l : Leaves) (o : Option Expr) : (l.option o).records = (Node.ofOption o).map l.node := by
  cases o with
  | none => rfl
  | some e => exact l.records_node (.expr e)

theorem records_params (l : Leaves) (ps : List Param) :
    (Json.array (ps.map fun p => l.expr p.expr)).records = (Node.ofExprs (ps.map Param.expr)).map l.node := by
  have h := l.records_items (fun p : Param => .expr p.expr) (w := List.map fun p => l.expr p.expr) rfl
    (fun _ _ => rfl) ps
  rw [h, Node.ofExprs, List.map_map (g := Node.expr)]
  rfl

theorem records_importNames (ns : List ImportName) : (Json.array (ns.map importName)).records = [] := by
  rw [Json.records]
  induction ns with
  | nil => rfl
  | cons n ns ih =>
    obtain ⟨name, localName⟩ := n
    rw [List.map_cons, Json.itemRecords, ih]
    cases localName <;> rfl

theorem fields_record (hl : l.Plain) (kind : Text) (parts : List (Text × Json)) (span : Span) :
    (l.record kind parts span).fields = Json.framed (parts.map fun m => (m.1, m.2.records)) := by
  unfold record Json.fields
  simp only [Json.members, List.map_cons, List.map_append, List.map_nil, part, hl.span]
  rfl

theorem fields_arguments (l : Leaves) (a : Arguments) :
    (l.arguments a).map (fun m => (m.1, m.2.records)) = (Node.argumentFields a).map fun f => (f.1, f.2.map l.node) := by
  obtain ⟨positional, keywords, spread, keywordSpread⟩ := a
  have hkeywords := l.records_items .keyword (w := l.keywords) rfl (fun _ _ => rfl) keywords
  simp only [arguments, Node.argumentFields, Arguments.positional, Arguments.keywords, Arguments.spread,
    Arguments.keywordSpread, List.map_cons, List.map_nil, records_exprs, records_option, hkeywords]

end Leaves

namespace Node

variable {l : Leaves}

/-- The record of an expression. -/
theorem exprFields_recorded (hl : l.Plain) (e : Expr) :
    (l.expr e).fields = Json.framed ((exprFields e).map fun f => (f.1, f.2.map l.node)) := by
  have hnode (e : Expr) : (l.expr e).records = [l.node (expr e)] := l.records_node (.expr e)
  have hstring (t : Text) : (Json.string t).records = [] := rfl
  cases e with
  | dict items s =>
    rw [Leaves.expr, Leaves.fields_record hl]
    simp [exprFields, l.records_items .pair (w := l.pairs) rfl (fun _ _ => rfl)]
  | compare first rest s =>
    rw [Leaves.expr, Leaves.fields_record hl]
    simp [exprFields, hnode, l.records_items .operand (w := l.operands) rfl (fun _ _ => rfl)]
  | _ =>
    rw [Leaves.expr, Leaves.fields_record hl]
    simp [exprFields, hnode, hstring, Leaves.records_exprs, Leaves.records_option, Leaves.fields_arguments, hl.constant]

/-- The record of a statement. -/
theorem stmtFields_recorded (hl : l.Plain) (s : Stmt) :
    (l.stmt s).fields = Json.framed ((stmtFields s).map fun f => (f.1, f.2.map l.node)) := by
  have hnode (e : Expr) : (l.expr e).records = [l.node (expr e)] := l.records_node (.expr e)
  have hstring (t : Text) : (Json.string t).records = [] := rfl
  cases s with
  | _ =>
    rw [Leaves.stmt, Leaves.fields_record hl]
    simp [stmtFields, hnode, hstring, Leaves.part, Leaves.signature, Leaves.records_exprs, Leaves.records_stmts,
      Leaves.records_option, Leaves.records_params, Leaves.records_importNames]

/-- The record of a node has a member for each of its fields, by the same name and in the same order, and in this the
records of the nodes that are stored in the field. -/
theorem fields_recorded (hl : l.Plain) (n : Node) :
    (l.node n).fields = Json.framed (n.fields.map fun f => (f.1, f.2.map l.node)) := by
  have hnode (e : Expr) : (l.expr e).records = [l.node (expr e)] := l.records_node (.expr e)
  cases n with
  | template t =>
    rw [Leaves.node, Leaves.template, Leaves.fields_record hl]
    simp [fields, Leaves.records_stmts]
  | stmt s => exact stmtFields_recorded hl s
  | expr e => exact exprFields_recorded hl e
  | pair p =>
    obtain ⟨key, value, span⟩ := p
    rw [Leaves.node, Leaves.pair, Leaves.fields_record hl]
    simp [fields, hnode]
  | operand o =>
    obtain ⟨op, e, span⟩ := o
    rw [Leaves.node, Leaves.operand, Leaves.fields_record hl]
    simp [fields, hnode, Json.records]
  | keyword k =>
    obtain ⟨name, value, span⟩ := k
    rw [Leaves.node, Leaves.keyword, Leaves.fields_record hl]
    simp [fields, hnode, Json.records]

/-! ## Children -/

theorem flatMap_argumentFields (a : Arguments) : (argumentFields a).flatMap Prod.snd = ofArguments a := by
  simp [argumentFields, ofArguments]

theorem flatMap_exprFields (e : Expr) : (exprFields e).flatMap Prod.snd = exprChildren e := by
  cases e <;> simp [exprFields, exprChildren, flatMap_argumentFields]

/-- The children of a node are the nodes that are stored in its fields. Only a loop yields them in another order, its
filter before its bodies. -/
theorem children_perm (n : Node) : n.children.Perm n.held := by
  cases n with
  | stmt s =>
    cases s with
    | loop target iter body elseBody test span =>
      have hheld : held (stmt (.loop target iter body elseBody test span)) =
          expr target :: expr iter :: (ofStmts body ++ ofStmts elseBody ++ ofOption test) := by
        simp [held, fields, stmtFields]
      rw [hheld, children, stmtChildren, List.append_assoc]
      exact .cons _ (.cons _ List.perm_append_comm)
    | _ => simp [held, fields, stmtFields, children, stmtChildren, ofSignature]
  | expr e => rw [held, fields, flatMap_exprFields, children]
  | template t => simp [held, fields, children]
  | pair p => cases p; simp [held, fields, children]
  | operand o => cases o; simp [held, fields, children]
  | keyword k => cases k; simp [held, fields, children]

/-- The node and the nodes that are stored in its fields, and in the fields of these, at every depth. -/
def stored (n : Node) : List Node := n :: (n.held.attach.map fun c => stored c.1).flatten
termination_by n.size
decreasing_by exact size_child (n.children_perm.mem_iff.2 c.2)

theorem stored_eq (n : Node) : n.stored = n :: n.held.flatMap stored := by
  rw [stored, List.attach_map_val (f := stored), List.flatMap_def]

/-- What is below a root is what is stored in it, each node as often as it is stored. -/
theorem descendants_perm_stored (root : Node) : root.descendants.Perm root.stored := by
  induction root using descendants.induct with
  | case1 root ih =>
    rw [descendants_eq, stored_eq]
    refine .cons _ ((List.Perm.flatMap_left _ fun c hc => ih ⟨c, hc⟩).trans ?_)
    exact root.children_perm.flatMap_right stored

end Node

end Stencil
