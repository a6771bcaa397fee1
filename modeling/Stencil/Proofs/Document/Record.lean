/-
The records of nodes are read back. If the text of every span of a tree reads as that span, and the text of every
constant as what is kept of it, then the text of the whole record reads as the record of the tree with its constants
kept, and this record is the tree (`Node.Legible.decodes`).
-/
import Stencil.Proofs.Document.Decoding
import Stencil.Proofs.Document.Kept
import Stencil.Proofs.Json.Value
import Stencil.Proofs.Tree.Below

namespace Stencil

open Json Node

/-! ## Values that are parts of trees -/

/-- The text of the first value reads as the second one, and this is a part of a tree. -/
structure Json.Decodes (j j' : Json) (p : Component) : Prop where
  reads : ReadsAs j j'
  component : j'.component? = some p

/-- Items of lists, of which each is decoded. -/
inductive Json.ItemsDecode : List Json → List Json → List Component → Prop
  | nil : ItemsDecode [] [] []
  | cons {j j' p js js' ps} (h : Decodes j j' p) (hs : ItemsDecode js js' ps) :
      ItemsDecode (j :: js) (j' :: js') (p :: ps)

/-- Members of objects, of which each has its name in all three lists and is decoded. -/
inductive Json.MembersDecode : Members → Members → List (Text × Component) → Prop
  | nil : MembersDecode [] [] []
  | cons {name j j' p ms ms' ps} (h : Decodes j j' p) (hs : MembersDecode ms ms' ps) :
      MembersDecode ((name, j) :: ms) ((name, j') :: ms') ((name, p) :: ps)

/-- Members of these names keep their order in an object: no two have one name, and none is an index. -/
def Json.KeepOrder (names : List Text) : Prop := names.Nodup ∧ ∀ name ∈ names, index? name = none

instance (names : List Text) : Decidable (KeepOrder names) := inferInstanceAs (Decidable (_ ∧ _))

namespace Json

theorem MembersDecode.append {ms₁ ms₂ ms₁' ms₂' : Members} {ps₁ ps₂ : List (Text × Component)}
    (h : MembersDecode ms₁ ms₁' ps₁) (h' : MembersDecode ms₂ ms₂' ps₂) :
    MembersDecode (ms₁ ++ ms₂) (ms₁' ++ ms₂') (ps₁ ++ ps₂) := by
  induction h with
  | nil => exact h'
  | cons h _ ih => exact .cons h ih

theorem MembersDecode.facts {ms ms' : Members} {ps : List (Text × Component)} (h : MembersDecode ms ms' ps) :
    List.Forall₂ MemberReadsAs ms ms' ∧ memberComponents? ms' = some ps ∧ ms'.map Prod.fst = ps.map Prod.fst := by
  induction h with
  | nil => exact ⟨.nil, rfl, rfl⟩
  | cons h _ ih =>
    obtain ⟨hreads, hparts, hnames⟩ := ih
    refine ⟨.cons ⟨rfl, h.reads⟩ hreads, ?_, congrArg _ hnames⟩
    rw [memberComponents?, h.component, hparts]
    rfl

namespace Decodes

theorem null : Decodes .null .null (.constant .none) := ⟨.null, by rw [component?]⟩

theorem string (t : Text) : Decodes (.string t) (.string t) (.constant (.text t)) := ⟨.string t, by rw [component?]⟩

theorem array {js js' : List Json} {ps : List Component} (h : ItemsDecode js js' ps) :
    Decodes (.array js) (.array js') (.items ps) := by
  have hfacts : List.Forall₂ ReadsAs js js' ∧ components? js' = some ps := by
    induction h with
    | nil => exact ⟨.nil, by rw [components?]⟩
    | cons h _ ih =>
      refine ⟨.cons h.reads ih.1, ?_⟩
      rw [components?, h.component, ih.2]
      rfl
  refine ⟨.array hfacts.1, ?_⟩
  rw [component?, hfacts.2, Option.map_some]

theorem object {ms ms' : Members} {ps : List (Text × Component)} (hms : MembersDecode ms ms' ps)
    (hnames : KeepOrder (ps.map Prod.fst)) {p : Component} (hp : Component.ofMembers? ps = some p) :
    Decodes (.object ms) (.object ms') p := by
  obtain ⟨hreads, hparts, hsame⟩ := hms.facts
  rw [← hsame] at hnames
  refine ⟨.object hreads hnames.1 fun m hm => hnames.2 _ (List.mem_map_of_mem hm), ?_⟩
  rw [component?, hparts, Option.bind_some, hp]

end Decodes

end Json

/-! ## Places -/

/-- A natural number that is read back. -/
def Json.Counts (n : Nat) : Prop := ReadsAs (.ofNat n) (.ofNat n) ∧ (Double.ofNat n).toInt? = some (n : Int)

theorem Json.Counts.decodes {n : Nat} (h : Counts n) : Decodes (.ofNat n) (.ofNat n) (.constant (.number (.ofNat n))) :=
  ⟨h.1, by rw [ofNat, component?]⟩

theorem Json.Counts.nat? {n : Nat} (h : Counts n) : (Component.constant (.number (.ofNat n))).nat? = some n := by
  rw [Component.nat?, h.2]
  rfl

/-- The coordinates of the place are read back. -/
structure Location.Legible (l : Location) : Prop where
  line : Counts l.line
  column : Counts l.column
  offset : Counts l.offset

theorem Location.Legible.decodes {l : Location} (h : l.Legible) : Decodes l.json l.json (.place l) := by
  refine .object (.cons h.line.decodes (.cons h.column.decodes (.cons h.offset.decodes .nil))) ?_ ?_
  · exact (by decide +kernel : KeepOrder ["line", "column", "offset"])
  · show ((Component.constant _).nat?.bind fun line => (Component.constant _).nat?.bind fun column =>
      (Component.constant _).nat?.bind fun offset => some (Component.place ⟨line, column, offset⟩)) = _
    rw [h.line.nat?, h.column.nat?, h.offset.nat?]
    rfl

theorem Span.decodes {s : Span} (hstart : s.start.Legible) (hfinish : s.finish.Legible) :
    Decodes s.json s.json (.stretch s) :=
  .object (.cons hstart.decodes (.cons hfinish.decodes .nil)) (by decide +kernel : KeepOrder ["start", "end"]) rfl

/-! ## Records -/

/-- The members of every record keep their order. -/
theorem Component.shapes_keepOrder :
    ∀ shape ∈ shapes, KeepOrder (Text.ofString "type" :: (shape.names ++ [Text.ofString "span"])) := by
  decide +kernel

/-- The members of a record are those of a node. -/
theorem Component.ofMembers?_node {kind : Text} {ms : List (Text × Component)} {shape : Shape} {n : Node}
    (hshape : (shapes.find? fun shape => shape.kind = kind) = some shape)
    (hnames : ms.map Prod.fst = shape.names ++ [Text.ofString "span"])
    (hn : shape.make (ms.map Prod.snd) = some n) :
    ofMembers? ((Text.ofString "type", constant (.text kind)) :: ms) = some (node n) := by
  have hother {first : Text} (hfirst : Text.ofString "type" ≠ first) (names : List Text) :
      ¬Text.ofString "type" :: ms.map Prod.fst = first :: names := fun h => hfirst (List.cons.inj h).1
  have hline : Text.ofString "type" ≠ Text.ofString "line" := by decide +kernel
  have hstart : Text.ofString "type" ≠ Text.ofString "start" := by decide +kernel
  have hname : Text.ofString "type" ≠ Text.ofString "name" := by decide +kernel
  rw [ofMembers?, List.map_cons, if_neg (hother hline _), if_neg (hother hstart _), if_neg (hother hname _), node?,
    hshape, Option.bind_some, if_pos ⟨rfl, hnames⟩, hn]
  rfl

/-- A record is decoded if its span and its parts are, and if the parts make a node. -/
theorem Leaves.record_decodes {kind : Text} {parts parts' : Members} {span : Span} {ps : List (Text × Component)}
    {n : Node} {shape : Component.Shape}
    (hshape : (Component.shapes.find? fun shape => shape.kind = kind) = some shape)
    (hspan : Decodes span.json span.json (.stretch span)) (hparts : MembersDecode parts parts' ps)
    (hnames : ps.map Prod.fst = shape.names) (hn : shape.make (ps.map Prod.snd ++ [.stretch span]) = some n) :
    Decodes (document.record kind parts span) (document.record kind parts' span) (.node n) := by
  have hall : (ps ++ [(Text.ofString "span", Component.stretch span)]).map Prod.fst =
      shape.names ++ [Text.ofString "span"] := by
    rw [List.map_append, hnames]
    rfl
  refine .object (.cons (.string kind) (hparts.append (.cons hspan .nil))) ?_ (Component.ofMembers?_node hshape hall ?_)
  · rw [List.map_cons, hall]
    exact Component.shapes_keepOrder shape (List.mem_of_find?_eq_some hshape)
  · rw [List.map_append]
    exact hn

namespace Node

/-- The ends of the node's span are read back, and of a constant what is kept of it. -/
structure Legible (n : Node) : Prop where
  start : n.span.start.Legible
  finish : n.span.finish.Legible
  constant : ∀ c ∈ n.constant?, Json.Decodes c.json c.kept.json (.constant c.kept)

/-- The record of the node is decoded as the node with its constants kept. -/
def Decodes (n : Node) : Prop :=
  Json.Decodes (Leaves.document.node n) (Leaves.document.node (n.mapConstants Constant.kept))
    (.node (n.mapConstants Constant.kept))

end Node

/-! ## Parts -/

namespace Leaves

theorem exprs_decode {es : List Expr} (h : ∀ c ∈ ofExprs es, c.Decodes) :
    Json.Decodes (.array (document.exprs es)) (.array (document.exprs (Expr.mapConstantsAll Constant.kept es)))
      (.items ((Expr.mapConstantsAll Constant.kept es).map fun e => .node (.expr e))) := by
  refine .array ?_
  induction es with
  | nil => exact .nil
  | cons e es ih =>
    obtain ⟨he, hes⟩ := List.forall_mem_cons.1 h
    exact .cons he (ih hes)

theorem pairs_decode {ps : List Pair} (h : ∀ c ∈ ps.map Node.pair, c.Decodes) :
    Json.Decodes (.array (document.pairs ps)) (.array (document.pairs (Pair.mapConstantsAll Constant.kept ps)))
      (.items ((Pair.mapConstantsAll Constant.kept ps).map fun p => .node (.pair p))) := by
  refine .array ?_
  induction ps with
  | nil => exact .nil
  | cons p ps ih =>
    obtain ⟨hp, hps⟩ := List.forall_mem_cons.1 h
    exact .cons hp (ih hps)

theorem operands_decode {os : List Operand} (h : ∀ c ∈ os.map Node.operand, c.Decodes) :
    Json.Decodes (.array (document.operands os)) (.array (document.operands (Operand.mapConstantsAll Constant.kept os)))
      (.items ((Operand.mapConstantsAll Constant.kept os).map fun o => .node (.operand o))) := by
  refine .array ?_
  induction os with
  | nil => exact .nil
  | cons o os ih =>
    obtain ⟨ho, hos⟩ := List.forall_mem_cons.1 h
    exact .cons ho (ih hos)

theorem keywords_decode {ks : List KeywordArg} (h : ∀ c ∈ ks.map Node.keyword, c.Decodes) :
    Json.Decodes (.array (document.keywords ks))
      (.array (document.keywords (KeywordArg.mapConstantsAll Constant.kept ks)))
      (.items ((KeywordArg.mapConstantsAll Constant.kept ks).map fun k => .node (.keyword k))) := by
  refine .array ?_
  induction ks with
  | nil => exact .nil
  | cons k ks ih =>
    obtain ⟨hk, hks⟩ := List.forall_mem_cons.1 h
    exact .cons hk (ih hks)

theorem stmts_decode {ss : List Stmt} (h : ∀ c ∈ ofStmts ss, c.Decodes) :
    Json.Decodes (.array (document.stmts ss)) (.array (document.stmts (Stmt.mapConstantsAll Constant.kept ss)))
      (.items ((Stmt.mapConstantsAll Constant.kept ss).map fun s => .node (.stmt s))) := by
  refine .array ?_
  induction ss with
  | nil => exact .nil
  | cons s ss ih =>
    obtain ⟨hs, hss⟩ := List.forall_mem_cons.1 h
    exact .cons hs (ih hss)

theorem params_decode {ps : List Param} (h : ∀ c ∈ ofExprs (ps.map Param.expr), c.Decodes) :
    Json.Decodes (.array (ps.map fun p => document.expr p.expr)) (.array (ps.map fun p => document.expr p.expr))
      (.items (ps.map fun p => .node (.expr p.expr))) := by
  refine .array ?_
  induction ps with
  | nil => exact .nil
  | cons p ps ih =>
    obtain ⟨hp, hps⟩ := List.forall_mem_cons.1 h
    exact .cons hp (ih hps)

theorem importName_decodes (n : ImportName) : Json.Decodes (importName n) (importName n) (.imported n) := by
  have hnames : KeepOrder ["name", "alias"] := by decide +kernel
  obtain ⟨name, _ | localName⟩ := n
  · exact .object (.cons (.string name) (.cons .null .nil)) hnames rfl
  · exact .object (.cons (.string name) (.cons (.string localName) .nil)) hnames rfl

theorem importNames_decode (ns : List ImportName) :
    Json.Decodes (.array (ns.map importName)) (.array (ns.map importName)) (.items (ns.map .imported)) := by
  refine .array ?_
  induction ns with
  | nil => exact .nil
  | cons n ns ih => exact .cons (importName_decodes n) ih

/-- The part that an expression is that may be missing. -/
def optionPart : Option Expr → Component
  | none => .constant .none
  | some e => .node (.expr e)

@[simp] theorem option?_optionPart (o : Option Expr) : (optionPart o).option? = some o := by cases o <;> rfl

theorem option_decodes {o : Option Expr} (h : ∀ c ∈ ofOption o, c.Decodes) :
    Json.Decodes (document.option o) (document.option (Expr.mapConstantsOption Constant.kept o))
      (optionPart (Expr.mapConstantsOption Constant.kept o)) := by
  cases o with
  | none => exact .null
  | some e => exact h _ (List.mem_singleton_self _)

/-- The parts of arguments, with their names. -/
@[simp] def argumentParts : Arguments → List (Text × Component)
  | .mk positional keywords spread keywordSpread =>
    [("args", .items (positional.map fun e => .node (.expr e))),
      ("kwargs", .items (keywords.map fun k => .node (.keyword k))), ("dynArgs", optionPart spread),
      ("dynKwargs", optionPart keywordSpread)]

theorem arguments_decode {args : Arguments} (h : ∀ c ∈ ofArguments args, c.Decodes) :
    MembersDecode (document.arguments args) (document.arguments (args.mapConstants Constant.kept))
      (argumentParts (args.mapConstants Constant.kept)) := by
  obtain ⟨positional, keywords, spread, keywordSpread⟩ := args
  obtain ⟨h, hkeywordSpread⟩ := List.forall_mem_append.1 h
  obtain ⟨h, hspread⟩ := List.forall_mem_append.1 h
  obtain ⟨hpositional, hkeywords⟩ := List.forall_mem_append.1 h
  exact .cons (exprs_decode hpositional) (.cons (keywords_decode hkeywords)
    (.cons (option_decodes hspread) (.cons (option_decodes hkeywordSpread) .nil)))

@[simp] theorem arguments?_parts (es : List Expr) (ks : List KeywordArg) (o o' : Option Expr) :
    Component.arguments? (.items (es.map fun e => .node (.expr e))) (.items (ks.map fun k => .node (.keyword k)))
      (optionPart o) (optionPart o') = some (.mk es ks o o') := by
  simp [Component.arguments?]

/-- The parts of a signature, with their names. -/
@[simp] def signatureParts (g : Signature) : List (Text × Component) :=
  [("params", .items (g.params.map fun p => .node (.expr p.expr))),
    ("defaults", .items (g.defaults.map fun e => .node (.expr e)))]

theorem signature_decodes {g : Signature} (h : ∀ c ∈ ofSignature g, c.Decodes) :
    MembersDecode (document.signature g) (document.signature (g.mapConstants Constant.kept))
      (signatureParts (g.mapConstants Constant.kept)) := by
  obtain ⟨hparams, hdefaults⟩ := List.forall_mem_append.1 h
  exact .cons (params_decode hparams) (.cons (exprs_decode hdefaults) .nil)

@[simp] theorem signature?_parts (ps : List Param) (es : List Expr) :
    Component.signature? (.items (ps.map fun p => .node (.expr p.expr))) (.items (es.map fun e => .node (.expr e))) =
      some ⟨ps, es⟩ := by
  simp [Component.signature?]

/-! ## Nodes -/

theorem expr_decodes {e : Expr} (hl : (Node.expr e).Legible) (h : ∀ c ∈ exprChildren e, c.Decodes) :
    (Node.expr e).Decodes := by
  have hspan := Span.decodes hl.start hl.finish
  cases e with
  | const c s => exact record_decodes rfl hspan (.cons (hl.constant c rfl) .nil) rfl rfl
  | name => exact record_decodes rfl hspan (.cons (.string _) (.cons (.string _) .nil)) rfl (by simp)
  | tuple => exact record_decodes rfl hspan (.cons (exprs_decode h) (.cons (.string _) .nil)) rfl (by simp)
  | list => exact record_decodes rfl hspan (.cons (exprs_decode h) .nil) rfl (by simp)
  | dict => exact record_decodes rfl hspan (.cons (pairs_decode h) .nil) rfl (by simp)
  | binary =>
    obtain ⟨hleft, h⟩ := List.forall_mem_cons.1 h
    have hright := h _ (List.mem_singleton_self _)
    exact record_decodes rfl hspan (.cons (.string _) (.cons hleft (.cons hright .nil))) rfl (by simp)
  | unary =>
    have hoperand := h _ (List.mem_singleton_self _)
    exact record_decodes rfl hspan (.cons (.string _) (.cons hoperand .nil)) rfl (by simp)
  | compare =>
    obtain ⟨hfirst, hoperands⟩ := List.forall_mem_cons.1 h
    exact record_decodes rfl hspan (.cons hfirst (.cons (operands_decode hoperands) .nil)) rfl (by simp)
  | cond =>
    obtain ⟨htest, h⟩ := List.forall_mem_cons.1 h
    obtain ⟨htrue, h⟩ := List.forall_mem_cons.1 h
    have hfalse := h _ (List.mem_singleton_self _)
    exact record_decodes rfl hspan (.cons htest (.cons htrue (.cons hfalse .nil))) rfl (by simp)
  | subscript =>
    obtain ⟨hobject, h⟩ := List.forall_mem_cons.1 h
    have hindex := h _ (List.mem_singleton_self _)
    exact record_decodes rfl hspan (.cons hobject (.cons hindex (.cons (.string _) .nil))) rfl (by simp)
  | slice =>
    obtain ⟨h, hstep⟩ := List.forall_mem_append.1 h
    obtain ⟨hstart, hstop⟩ := List.forall_mem_append.1 h
    exact record_decodes rfl hspan (.cons (option_decodes hstart) (.cons (option_decodes hstop)
      (.cons (option_decodes hstep) .nil))) rfl (by simp)
  | call callee args =>
    obtain ⟨hcallee, hargs⟩ := List.forall_mem_cons.1 h
    obtain ⟨_, _, _, _⟩ := args
    exact record_decodes rfl hspan (.cons hcallee (arguments_decode hargs)) rfl (by simp)
  | filter input name args =>
    obtain ⟨hinput, hargs⟩ := List.forall_mem_append.1 h
    obtain ⟨_, _, _, _⟩ := args
    exact record_decodes rfl hspan (.cons (option_decodes hinput) (.cons (.string name) (arguments_decode hargs))) rfl
      (by simp)
  | test subject name args =>
    obtain ⟨hsubject, hargs⟩ := List.forall_mem_cons.1 h
    obtain ⟨_, _, _, _⟩ := args
    exact record_decodes rfl hspan (.cons hsubject (.cons (.string name) (arguments_decode hargs))) rfl (by simp)

theorem stmt_decodes {st : Stmt} (hl : (Node.stmt st).Legible) (h : ∀ c ∈ stmtChildren st, c.Decodes) :
    (Node.stmt st).Decodes := by
  have hspan := Span.decodes hl.start hl.finish
  cases st with
  | output => exact record_decodes rfl hspan (.cons (exprs_decode h) .nil) rfl (by simp)
  | assign =>
    obtain ⟨htarget, h⟩ := List.forall_mem_cons.1 h
    have hvalue := h _ (List.mem_singleton_self _)
    exact record_decodes rfl hspan (.cons htarget (.cons hvalue .nil)) rfl (by simp)
  | loop =>
    obtain ⟨htarget, h⟩ := List.forall_mem_cons.1 h
    obtain ⟨hiter, h⟩ := List.forall_mem_cons.1 h
    obtain ⟨h, helse⟩ := List.forall_mem_append.1 h
    obtain ⟨htest, hbody⟩ := List.forall_mem_append.1 h
    exact record_decodes rfl hspan (.cons htarget (.cons hiter (.cons (stmts_decode hbody) (.cons (stmts_decode helse)
      (.cons (option_decodes htest) .nil))))) rfl (by simp)
  | branch =>
    obtain ⟨htest, h⟩ := List.forall_mem_cons.1 h
    obtain ⟨hbody, helse⟩ := List.forall_mem_append.1 h
    exact record_decodes rfl hspan (.cons htest (.cons (stmts_decode hbody) (.cons (stmts_decode helse) .nil))) rfl
      (by simp)
  | block => exact record_decodes rfl hspan (.cons (.string _) (.cons (stmts_decode h) .nil)) rfl (by simp)
  | extend | embed | expr =>
    have hnode := h _ (List.mem_singleton_self _)
    exact record_decodes rfl hspan (.cons hnode .nil) rfl (by simp)
  | importAs =>
    have hsource := h _ (List.mem_singleton_self _)
    exact record_decodes rfl hspan (.cons hsource (.cons (.string _) .nil)) rfl (by simp)
  | importNames source names =>
    have hsource := h _ (List.mem_singleton_self _)
    exact record_decodes rfl hspan (.cons hsource (.cons (importNames_decode names) .nil)) rfl (by simp)
  | define name signature =>
    obtain ⟨hsignature, hbody⟩ := List.forall_mem_append.1 h
    exact record_decodes rfl hspan (.cons (.string name)
      (.append (signature_decodes hsignature) (.cons (stmts_decode hbody) .nil))) rfl (by simp)
  | callBlock =>
    obtain ⟨hsignature, h⟩ := List.forall_mem_append.1 h
    obtain ⟨hcall, hbody⟩ := List.forall_mem_cons.1 h
    exact record_decodes rfl hspan (.append (signature_decodes hsignature)
      (.cons hcall (.cons (stmts_decode hbody) .nil))) rfl (by simp)
  | filterBlock =>
    obtain ⟨hfilter, hbody⟩ := List.forall_mem_cons.1 h
    exact record_decodes rfl hspan (.cons hfilter (.cons (stmts_decode hbody) .nil)) rfl (by simp)
  | breakLoop | continueLoop => exact record_decodes rfl hspan .nil rfl rfl

theorem node_decodes {n : Node} (hl : n.Legible) (h : ∀ c ∈ n.children, c.Decodes) : n.Decodes := by
  have hspan := Span.decodes hl.start hl.finish
  cases n with
  | template t => exact record_decodes rfl hspan (.cons (stmts_decode h) .nil) rfl (by simp)
  | stmt st => exact stmt_decodes hl h
  | expr e => exact expr_decodes hl h
  | pair p =>
    obtain ⟨key, value, s⟩ := p
    obtain ⟨hkey, h⟩ := List.forall_mem_cons.1 h
    have hvalue := h _ (List.mem_singleton_self _)
    exact record_decodes rfl hspan (.cons hkey (.cons hvalue .nil)) rfl (by simp)
  | operand o =>
    obtain ⟨op, e, s⟩ := o
    have hexpr := h _ (List.mem_singleton_self _)
    exact record_decodes rfl hspan (.cons (.string _) (.cons hexpr .nil)) rfl (by simp)
  | keyword k =>
    obtain ⟨key, value, s⟩ := k
    have hvalue := h _ (List.mem_singleton_self _)
    exact record_decodes rfl hspan (.cons (.string key) (.cons hvalue .nil)) rfl (by simp)

end Leaves

/-- A tree whose places and constants are read back is decoded, with its constants kept. -/
theorem Node.Legible.decodes {n : Node} (h : ∀ d ∈ n.descendants, d.Legible) : n.Decodes := by
  induction n using descendants.induct with
  | case1 n ih =>
    refine Leaves.node_decodes (h n (mem_descendants.2 (.inl rfl))) fun c hc => ih ⟨c, hc⟩ fun d hd => ?_
    exact h d (mem_descendants.2 (.inr ⟨c, hc, hd⟩))

end Stencil
