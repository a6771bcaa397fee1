/-
The roles that nodes play in a tree. A target is stored to, and so are the items of a tuple that is stored to;
an index may be a slice, and so may the items of a tuple that is an index; the filter of a filter block is the
head of a chain. `Node.Plays` gives every node below a root the role in which it is reached, and `Node.Fits` is
the shape that a role asks for, which the parts of a fitting node have again (`Fits.parts`).
-/
import Stencil.Proofs.Roles.Shape
import Stencil.Proofs.Tree.Below

namespace Stencil

/-! ## Roles -/

/-- What a node is to the node above it. -/
inductive Role
  | plain
  /-- The target of an assignment or a loop, or an item of a tuple that is one. -/
  | stored
  | param
  /-- All that stands between the brackets of a subscript. -/
  | index
  /-- An item of a tuple of two or more that is an index. -/
  | item
  /-- The filter of a filter block, or the input of such a filter. -/
  | chain
deriving DecidableEq, Repr

namespace Role

/-- The role of the items of a tuple that plays a role. -/
def ofItem (count : Nat) : Role → Role
  | stored => stored
  | index => if 2 ≤ count then item else plain
  | _ => plain

/-- The role of the input of a filter that plays a role. -/
def ofInput : Role → Role
  | chain => chain
  | _ => plain

/-- All nodes in one role. -/
def all (r : Role) (ns : List Node) : List (Node × Role) := ns.map fun n => (n, r)

end Role

namespace Node

/-- The children of a node that plays a role, each with its own role. -/
def parts (role : Role) : Node → List (Node × Role)
  | expr (.tuple items _ _) => (role.ofItem items.length).all (ofExprs items)
  | expr (.subscript object index _ _) => [(expr object, .plain), (expr index, .index)]
  | expr (.filter input _ args _) => role.ofInput.all (ofOption input) ++ Role.plain.all (ofArguments args)
  | stmt (.assign target value _) => [(expr target, .stored), (expr value, .plain)]
  | stmt (.loop target iter body elseBody test _) =>
    (expr target, .stored) :: Role.plain.all (expr iter :: (ofOption test ++ ofStmts body ++ ofStmts elseBody))
  | stmt (.define _ signature body _) =>
    Role.param.all (ofExprs (signature.params.map Param.expr)) ++
      Role.plain.all (ofExprs signature.defaults ++ ofStmts body)
  | stmt (.callBlock signature call body _) =>
    Role.param.all (ofExprs (signature.params.map Param.expr)) ++
      Role.plain.all (ofExprs signature.defaults ++ expr call :: ofStmts body)
  | stmt (.filterBlock filter body _) => (expr filter, .chain) :: Role.plain.all (ofStmts body)
  | n => Role.plain.all n.children

/-- A node is reached from a root in a role. -/
inductive Plays (root : Node) : Role → Node → Prop
  | root : Plays root .plain root
  | part {r r' : Role} {n c : Node} (h : Plays root r n) (hc : (c, r') ∈ n.parts r) : Plays root r' c

theorem all_fst (r : Role) (ns : List Node) : (r.all ns).map Prod.fst = ns := by
  rw [Role.all, List.map_map]
  exact List.map_id _

/-- The parts of a node are its children. -/
theorem parts_fst (r : Role) (n : Node) : (n.parts r).map Prod.fst = n.children := by
  unfold parts
  split <;> simp only [List.map_append, List.map_cons, List.map_nil, all_fst, children, exprChildren, stmtChildren,
    ofSignature, List.append_assoc]

theorem mem_children_iff {r : Role} {n c : Node} : c ∈ n.children ↔ ∃ r', (c, r') ∈ n.parts r := by
  rw [← n.parts_fst r, List.mem_map]
  constructor
  · rintro ⟨⟨c, r'⟩, hc, rfl⟩
    exact ⟨r', hc⟩
  · rintro ⟨r', hc⟩
    exact ⟨_, hc, rfl⟩

theorem Plays.of_mem_descendants {root m n : Node} {r : Role} (hm : root.Plays r m) (hn : n ∈ m.descendants) :
    ∃ r', root.Plays r' n := by
  induction m using descendants.induct generalizing r with
  | case1 m ih =>
    rcases mem_descendants.1 hn with rfl | ⟨c, hc, hn⟩
    · exact ⟨r, hm⟩
    · obtain ⟨r', hpart⟩ := (mem_children_iff (r := r)).1 hc
      exact ih ⟨c, hc⟩ (hm.part hpart) hn

/-- The nodes of a tree are those that play a role in it. -/
theorem mem_descendants_iff {root n : Node} : n ∈ root.descendants ↔ ∃ r, root.Plays r n := by
  constructor
  · exact Plays.root.of_mem_descendants
  · rintro ⟨r, h⟩
    induction h with
    | root => exact mem_descendants.2 (.inl rfl)
    | part _ hc ih => exact child_mem_descendants (mem_children_iff.2 ⟨_, hc⟩) ih

end Node

/-! ## Fitting a role -/

/-- The shape that a role asks for. -/
def Node.Fits : Role → Node → Prop
  | .plain, expr e => e.Shaped .alone
  | .item, expr e => e.Shaped .subscript
  | .index, expr e => e.Shaped .index
  | .stored, expr e => e.IsTarget
  | .param, expr e => ∃ p : Param, e = p.expr ∧ canBind p.name = true
  | .chain, expr e => e.IsFilters
  | .plain, pair p => p.Shaped
  | .plain, operand o => o.Shaped
  | .plain, keyword k => k.Shaped
  | .plain, stmt st => st.Shaped
  | .plain, template t => Stmt.AllShaped t.body
  | _, _ => False

/-- The role of what stands at a place. -/
def Place.role : Place → Role
  | alone => .plain
  | subscript => .item
  | index => .index

/-- Each node fits its role. -/
def Role.AllFit (xs : List (Node × Role)) : Prop := ∀ x ∈ xs, x.1.Fits x.2

section

variable {p : Place} {r : Role} {es : List Expr} {xs ys : List (Node × Role)} {ns ms : List Node}

theorem Node.fits_place {e : Expr} : (Node.expr e).Fits p.role ↔ e.Shaped p := by
  cases p <;> rfl

namespace Role.AllFit

theorem nil : AllFit [] := nofun

theorem cons {x : Node × Role} (h : x.1.Fits x.2) (hxs : AllFit xs) : AllFit (x :: xs) :=
  List.forall_mem_cons.2 ⟨h, hxs⟩

theorem append (h : AllFit xs) (h' : AllFit ys) : AllFit (xs ++ ys) := List.forall_mem_append.2 ⟨h, h'⟩

theorem all (h : ∀ n ∈ ns, n.Fits r) : AllFit (r.all ns) := List.forall_mem_map.2 h

theorem exprs (h : Expr.AllShaped p es) : AllFit (p.role.all (Node.ofExprs es)) :=
  all (List.forall_mem_map.2 fun e he => Node.fits_place.2 (Expr.allShaped_iff.1 h e he))

/-- What stands alone is plain. -/
theorem plains (h : Expr.AllShaped .alone es) : AllFit (Role.plain.all (Node.ofExprs es)) := exprs h

theorem option {o : Option Expr} (h : Expr.OptionShaped o) : AllFit (Role.plain.all (Node.ofOption o)) := by
  cases o with
  | none => exact nil
  | some e => exact cons h nil

theorem pairs {ps : List Pair} (h : Pair.AllShaped ps) : AllFit (Role.plain.all (ps.map .pair)) :=
  all (List.forall_mem_map.2 (Pair.allShaped_iff.1 h))

theorem operands {os : List Operand} (h : Operand.AllShaped os) : AllFit (Role.plain.all (os.map .operand)) :=
  all (List.forall_mem_map.2 (Operand.allShaped_iff.1 h))

theorem keywords {ks : List KeywordArg} (h : KeywordArg.AllShaped ks) : AllFit (Role.plain.all (ks.map .keyword)) :=
  all (List.forall_mem_map.2 (KeywordArg.allShaped_iff.1 h))

theorem stmts {ss : List Stmt} (h : Stmt.AllShaped ss) : AllFit (Role.plain.all (Node.ofStmts ss)) :=
  all (List.forall_mem_map.2 (Stmt.allShaped_iff.1 h))

theorem arguments {args : Arguments} (h : args.Shaped) : AllFit (Role.plain.all (Node.ofArguments args)) := by
  obtain ⟨positional, keywords, spread, keywordSpread⟩ := args
  obtain ⟨hpositional, hkeywords, hspread, hkeywordSpread⟩ := h
  simp only [Node.ofArguments, Role.all, List.map_append]
  exact (((plains hpositional).append (.keywords hkeywords)).append (option hspread)).append (option hkeywordSpread)

theorem params {g : Signature} (h : g.Shaped) : AllFit (Role.param.all (Node.ofExprs (g.params.map Param.expr))) := by
  refine all (List.forall_mem_map.2 (List.forall_mem_map.2 fun p hp => ?_))
  exact ⟨p, rfl, h.bindable p hp⟩

theorem defaults {g : Signature} (h : g.Shaped) : AllFit (Role.plain.all (Node.ofExprs g.defaults)) :=
  plains (Expr.allShaped_iff.2 h.defaults)

end Role.AllFit

/-! ## The parts of a node that fits -/

/-- The parts of an expression that is shaped for its place fit their roles. -/
theorem Expr.Shaped.parts {e : Expr} (h : e.Shaped p) : Role.AllFit ((Node.expr e).parts p.role) := by
  cases e with
  | const => exact .nil
  | name => exact .nil
  | tuple items u s =>
    obtain ⟨-, halone | ⟨rfl, hlen, hitems⟩⟩ := h
    · -- items that stand alone fit every role that a tuple gives to its items
      have hitems (p : Place) : Role.AllFit (p.role.all (Node.ofExprs items)) :=
        .exprs (Expr.allShaped_iff.2 fun e he => (Expr.allShaped_iff.1 halone e he).anywhere)
      rw [Node.parts]
      cases p with
      | index =>
        simp only [Place.role, Role.ofItem]
        split
        · exact hitems .subscript
        · exact hitems .alone
      | _ => exact hitems .alone
    · simp only [Node.parts, Place.role, Role.ofItem, if_pos hlen]
      exact .exprs (p := .subscript) hitems
  | list items s => exact .plains h
  | dict items s => exact .pairs h
  | binary op left right s => exact .cons h.1 (.cons h.2 .nil)
  | unary op operand s => exact .cons h .nil
  | compare first operands s => exact .cons h.1 (.operands h.2.2)
  | cond test whenTrue whenFalse s => exact .cons h.1 (.cons h.2.1 (.cons h.2.2 .nil))
  | subscript object index u s => exact .cons h.2.1 (.cons h.2.2 .nil)
  | slice start stop step s =>
    obtain ⟨-, hstart, hstop, hstep⟩ := h
    simp only [Node.parts, Node.children, Node.exprChildren, Role.all, List.map_append]
    exact ((Role.AllFit.option hstart).append (.option hstop)).append (.option hstep)
  | call callee args s => exact .cons h.1 (.arguments h.2)
  | filter input name args s =>
    have hinput : p.role.ofInput = .plain := by cases p <;> rfl
    simp only [Node.parts, hinput]
    exact (Role.AllFit.option h.2.1).append (.arguments h.2.2)
  | test subject name args s => exact .cons h.1 (.arguments h.2)

/-- The items of a tuple that is stored to are stored to; the object and the index of a subscript are not. -/
theorem Expr.IsTarget.parts {e : Expr} (h : e.IsTarget) : Role.AllFit ((Node.expr e).parts .stored) := by
  cases e with
  | name => exact .nil
  | tuple items u s =>
    refine .all (List.forall_mem_map.2 ?_)
    exact Expr.allTargets_iff.1 h.2
  | subscript object index u s => exact .cons h.2.1 (.cons h.2.2 .nil)
  | _ => cases h

theorem Expr.IsFilters.parts {e : Expr} (h : e.IsFilters) : Role.AllFit ((Node.expr e).parts .chain) := by
  cases e with
  | filter input name args s =>
    cases input with
    | none => exact .arguments h
    | some f => exact .cons h.1 (.arguments h.2)
  | _ => cases h

theorem Stmt.Shaped.parts {st : Stmt} (h : st.Shaped) : Role.AllFit ((Node.stmt st).parts .plain) := by
  cases st with
  | output nodes s => exact .plains (Expr.allShaped_iff.2 h)
  | assign target value s => exact .cons h.1 (.cons h.2 .nil)
  | loop target iter body elseBody test s =>
    obtain ⟨htarget, hiter, htest, hbody, helse⟩ := h
    simp only [Node.parts, Role.all, List.map_append, List.map_cons]
    refine .cons htarget (.cons hiter (((Role.AllFit.option ?_).append (.stmts hbody)).append (.stmts helse)))
    exact .of fun e he => htest e he
  | branch test body elseBody s =>
    obtain ⟨htest, hbody, helse⟩ := h
    simp only [Node.parts, Node.children, Node.stmtChildren, Role.all, List.map_append, List.map_cons]
    exact .cons htest ((Role.AllFit.stmts hbody).append (.stmts helse))
  | block name body s => exact .stmts h
  | extend source s => exact .cons h .nil
  | embed source s => exact .cons h .nil
  | importAs source target s => exact .cons h.1 .nil
  | importNames source names s => exact .cons h.1 .nil
  | define name signature body s =>
    obtain ⟨-, hsignature, hbody⟩ := h
    simp only [Node.parts, Role.all, List.map_append]
    exact (Role.AllFit.params hsignature).append ((Role.AllFit.defaults hsignature).append (.stmts hbody))
  | callBlock signature call body s =>
    obtain ⟨hsignature, hcall, -, hbody⟩ := h
    simp only [Node.parts, Role.all, List.map_append, List.map_cons]
    exact (Role.AllFit.params hsignature).append ((Role.AllFit.defaults hsignature).append (.cons hcall (.stmts hbody)))
  | filterBlock filter body s => exact .cons h.1 (.stmts h.2)
  | expr node s => exact .cons h .nil
  | breakLoop s => exact .nil
  | continueLoop s => exact .nil

/-- The parts of a node that fits its role fit theirs. -/
theorem Node.Fits.parts {n : Node} (h : n.Fits r) : Role.AllFit (n.parts r) := by
  cases n with
  | expr e =>
    cases r with
    | plain => exact Expr.Shaped.parts (p := .alone) h
    | item => exact Expr.Shaped.parts (p := .subscript) h
    | index => exact Expr.Shaped.parts (p := .index) h
    | stored => exact Expr.IsTarget.parts h
    | param =>
      obtain ⟨p, rfl, -⟩ := h
      exact .nil
    | chain => exact Expr.IsFilters.parts h
  | template t => cases r with | plain => exact .stmts h | _ => cases h
  | stmt st => cases r with | plain => exact Stmt.Shaped.parts h | _ => cases h
  | pair q =>
    obtain ⟨key, value, s⟩ := q
    cases r with | plain => exact .cons h.1 (.cons h.2 .nil) | _ => cases h
  | operand o =>
    obtain ⟨op, e, s⟩ := o
    cases r with | plain => exact .cons h .nil | _ => cases h
  | keyword k =>
    obtain ⟨key, value, s⟩ := k
    cases r with | plain => exact .cons h .nil | _ => cases h

/-- In the tree of a root that fits, every node fits the role it plays. -/
theorem Node.Plays.fits {root n : Node} (hroot : root.Fits .plain) (h : root.Plays r n) : n.Fits r := by
  induction h with
  | root => exact hroot
  | part _ hc ih => exact ih.parts _ hc

end

end Stencil
