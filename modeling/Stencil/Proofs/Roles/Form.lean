/-
Trees are well formed. What a consumer of a tree may rely on is said of each node in its role
(`Node.WellFormed`), and holds of every node of a template that is read (`trees_well_formed`).
-/
import Stencil.Proofs.Derivation.Scanned
import Stencil.Proofs.Roles.Basic

namespace Stencil

/-! ## Names -/

/-- The names that are constants. -/
def Constant.names : List Text := ["true", "false", "none"]

theorem Constant.ofName?_eq_none {n : Text} : ofName? n = Option.none ↔ n ∉ names := by
  unfold ofName?
  simp only [names, List.mem_cons, List.not_mem_nil, or_false, not_or]
  split
  · simp_all
  · split
    · simp_all
    · split <;> simp_all

/-- A name can be bound if it is no constant. -/
theorem canBind_iff {n : Text} : canBind n = true ↔ n ∉ Constant.names := by
  rw [canBind, Option.isNone_iff_eq_none, Constant.ofName?_eq_none]

/-! ## Nodes -/

/-- There are no more defaults than parameters. -/
def Signature.WellFormed (g : Signature) : Prop := g.defaults.length ≤ g.params.length

/-- What is imported is no constant, neither here nor there, and is public. -/
structure ImportName.WellFormed (n : ImportName) : Prop where
  name : n.name ∉ Constant.names
  localName : ∀ a, n.localName = some a → a ∉ Constant.names
  isPublic : ¬ Text.ofString "__" <+: n.name

/-- What a consumer relies on at a node in its role. A slice is an index or one of two or more items of an index,
and a filter without an input begins the chain of a filter block. -/
def Node.WellFormed (role : Role) : Node → Prop
  | expr (.name n _ _) => n ∉ Constant.names
  | expr (.compare _ operands _) => operands ≠ []
  | expr (.slice ..) => role = .index ∨ role = .item
  | expr (.filter none _ _ _) => role = .chain
  | stmt (.define name signature _ _) => name ∉ Constant.names ∧ signature.WellFormed
  | stmt (.callBlock signature call _ _) => signature.WellFormed ∧ ∃ callee args span, call = .call callee args span
  | stmt (.importAs _ target _) => target ∉ Constant.names
  | stmt (.importNames _ names _) => ∀ n ∈ names, n.WellFormed
  | _ => True

section

variable {e : Expr} {p : Place} {r : Role}

theorem ImportName.Shaped.wellFormed {n : ImportName} (h : n.Shaped) : n.WellFormed where
  name := canBind_iff.1 h.bindable
  localName := fun a ha => canBind_iff.1 (h.localBindable a ha)
  isPublic := by
    rintro ⟨rest, hrest⟩
    have hstart := Text.startsWith_iff.2 ⟨rest, hrest.symm⟩
    rw [h.isPublic] at hstart
    cases hstart

theorem Expr.Shaped.wellFormed (h : e.Shaped p) : (Node.expr e).WellFormed p.role := by
  cases e with
  | name n u s => exact Constant.ofName?_eq_none.1 h.2
  | compare first operands s => exact h.2.1
  | slice start stop step s =>
    cases p with
    | alone => exact absurd rfl h.1
    | subscript => exact .inr rfl
    | index => exact .inl rfl
  | filter input name args s =>
    cases input with
    | none => exact absurd rfl h.1
    | some f => trivial
  | _ => trivial

theorem Expr.IsTarget.wellFormed (h : e.IsTarget) : (Node.expr e).WellFormed r := by
  cases e with
  | name n u s => exact canBind_iff.1 h.2
  | tuple => trivial
  | subscript => trivial
  | _ => cases h

theorem Expr.IsFilters.wellFormed (h : e.IsFilters) : (Node.expr e).WellFormed .chain := by
  cases e with
  | filter input name args s =>
    cases input with
    | none => rfl
    | some f => trivial
  | _ => cases h

theorem Stmt.Shaped.wellFormed {st : Stmt} (h : st.Shaped) : (Node.stmt st).WellFormed r := by
  cases st with
  | importAs source target s => exact canBind_iff.1 h.2
  | importNames source names s => exact fun n hn => (h.2 n hn).wellFormed
  | define name signature body s => exact ⟨canBind_iff.1 h.1, h.2.1.suffix⟩
  | callBlock signature call body s => exact ⟨h.1.suffix, h.2.2.1⟩
  | _ => trivial

/-- A node that fits its role is well formed in it. -/
theorem Node.Fits.wellFormed {n : Node} (h : n.Fits r) : n.WellFormed r := by
  cases n with
  | expr e =>
    cases r with
    | plain => exact Expr.Shaped.wellFormed (p := .alone) h
    | item => exact Expr.Shaped.wellFormed (p := .subscript) h
    | index => exact Expr.Shaped.wellFormed (p := .index) h
    | stored => exact Expr.IsTarget.wellFormed h
    | param =>
      obtain ⟨p, rfl, hp⟩ := h
      exact canBind_iff.1 hp
    | chain => exact Expr.IsFilters.wellFormed h
  | stmt st => cases r with | plain => exact Stmt.Shaped.wellFormed h | _ => cases h
  | _ => trivial

end

/-! ## Trees -/

namespace Environment

/-- The template that is read from a source has the shape of what can be written. -/
theorem readTemplate_fits {env : Environment} (hb : env.IsBuiltin) {filename : Option Text} {source : Text}
    {doc : Document} (h : env.readTemplate filename source = .ok doc) : (Node.template doc.template).Fits .plain := by
  obtain ⟨s, -, -, -, -, q, hdoc⟩ := readTemplate_composes hb h
  exact hdoc.shapes fun _ _ _ _ _ hreads => hreads.1.shapes

/-- Every node of a template that is read plays a role, and is well formed in every role that it plays. -/
theorem trees_well_formed (env : Environment) (hb : env.IsBuiltin) (filename : Option Text) (source : Text)
    (doc : Document) (h : env.readTemplate filename source = .ok doc) :
    ∀ n ∈ (Node.template doc.template).descendants, (∃ r, (Node.template doc.template).Plays r n) ∧
      ∀ r, (Node.template doc.template).Plays r n → n.WellFormed r := by
  intro n hn
  refine ⟨Node.mem_descendants_iff.1 hn, fun r hplays => ?_⟩
  exact (hplays.fits (readTemplate_fits hb h)).wellFormed

/-- A call block with a default, a slice among two subscripts, and the filters of a filter block. -/
theorem trees_well_formed_call_block :
    let source : Text := "\x7b% call(a, b=1) f() %\x7d\x7b\x7b x[1:, 2] \x7d\x7d\x7b% filter g|h %\x7d\x7b% endfilter %\x7d\x7b% endcall %\x7d"
    withLoopControls.IsBuiltin ∧ ∃ doc, withLoopControls.readTemplate none source = .ok doc ∧
      (doc.template.body.flatMap Node.stmtChildren).map Node.typeName =
        ["Name", "Name", "Const", "Call", "Output", "FilterBlock"].map Text.ofString ∧
      ∀ n ∈ (Node.template doc.template).descendants, (∃ r, (Node.template doc.template).Plays r n) ∧
        ∀ r, (Node.template doc.template).Plays r n → n.WellFormed r := by
  intro source
  have hread := withLoopControls.readTemplate_of_counted none source (fun
    | .ok t => decide ((t.body.flatMap Node.stmtChildren).map Node.typeName =
        ["Name", "Name", "Const", "Call", "Output", "FilterBlock"].map Text.ofString)
    | .error _ => false) (by decide +kernel)
  clear_value source
  cases hdoc : withLoopControls.readTemplate none source with
  | error e => rw [hdoc] at hread; cases hread
  | ok doc =>
    rw [hdoc] at hread
    exact ⟨withLoopControls_isBuiltin, doc, rfl, of_decide_eq_true hread,
      withLoopControls.trees_well_formed withLoopControls_isBuiltin none source doc hdoc⟩

end Environment
end Stencil
