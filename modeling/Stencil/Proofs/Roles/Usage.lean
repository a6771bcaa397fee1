/-
How names, tuples and subscripts are used. The usage of each is that of its role (`usages_follow_roles`): a target
and the items of a target that is a tuple are stored to, the parameters of a signature are bound, and all others
are read, the object and the index of a subscript that is stored to among them.
-/
import Stencil.Proofs.Roles.Form

namespace Stencil

/-! ## Usages -/

/-- The usage of a name, a tuple or a subscript. -/
def Node.usage? : Node → Option Usage
  | expr (.name _ u _) | expr (.tuple _ u _) | expr (.subscript _ _ u _) => some u
  | _ => none

/-- How an expression in a role is used. -/
def Role.usage : Role → Usage
  | stored => .store
  | param => .param
  | _ => .load

/-- What has a usage has that of the role, and what is written to or bound can be. -/
structure Node.UsedAs (r : Role) (n : Node) : Prop where
  usage : ∀ u, n.usage? = some u → u = r.usage
  assigned : r.usage ≠ .load → ∃ e, n = expr e ∧ n.usage? = some r.usage ∧ e.canAssign = true

section

variable {e : Expr} {n : Node} {r : Role} {p : Place}

mutual

theorem Expr.IsTarget.canAssign : ∀ {t : Expr}, t.IsTarget → t.canAssign = true
  | .name .., h => h.2
  | .tuple .., h => Expr.AllTargets.canAssign h.2
  | .subscript .., _ => rfl

theorem Expr.AllTargets.canAssign : ∀ {ts : List Expr}, Expr.AllTargets ts → Expr.canAssignAll ts = true
  | [], _ => rfl
  | _ :: _, h => Bool.and_eq_true_iff.2 ⟨Expr.IsTarget.canAssign h.1, Expr.AllTargets.canAssign h.2⟩

end

theorem Node.UsedAs.of_load (hr : r.usage = .load) (h : ∀ u, n.usage? = some u → u = .load) : n.UsedAs r where
  usage := by rwa [hr]
  assigned := fun hne => absurd hr hne

theorem Node.UsedAs.of_assigned (hn : (Node.expr e).usage? = some r.usage) (he : e.canAssign = true) :
    (Node.expr e).UsedAs r where
  usage := fun _ hu => Option.some.inj (hu.symm.trans hn)
  assigned := fun _ => ⟨e, rfl, hn, he⟩

theorem Expr.Shaped.loads (h : e.Shaped p) : ∀ u, (Node.expr e).usage? = some u → u = .load := by
  rintro u hu
  cases e with
  | name => cases hu; exact h.1
  | tuple => cases hu; exact h.1
  | subscript => cases hu; exact h.1
  | _ => cases hu

theorem Expr.IsTarget.usage? (h : e.IsTarget) : (Node.expr e).usage? = some .store := by
  cases e with
  | name => exact congrArg some h.1
  | tuple => exact congrArg some h.1
  | subscript => exact congrArg some h.1
  | _ => cases h

/-- A node that fits its role is used as the role says. -/
theorem Node.Fits.usedAs (h : n.Fits r) : n.UsedAs r := by
  cases n with
  | expr e =>
    cases r with
    | plain => exact .of_load rfl (Expr.Shaped.loads (p := .alone) h)
    | item => exact .of_load rfl (Expr.Shaped.loads (p := .subscript) h)
    | index => exact .of_load rfl (Expr.Shaped.loads (p := .index) h)
    | stored => exact .of_assigned (Expr.IsTarget.usage? h) (Expr.IsTarget.canAssign h)
    | param =>
      obtain ⟨q, rfl, hq⟩ := h
      exact .of_assigned rfl hq
    | chain =>
      cases e with
      | filter => exact .of_load rfl nofun
      | _ => cases h
  | _ => cases r with | plain => exact .of_load rfl nofun | _ => cases h

end

/-! ## Expressions -/

section

variable {root n : Node} {r : Role}

/-- What stands in an expression that is loaded is loaded. -/
theorem Node.IsInner.parts (h : n.IsInner) (hr : r.usage = .load) : ∀ x ∈ n.parts r, x.2.usage = .load := by
  have all {r : Role} {ns : List Node} (hr : r.usage = .load) : ∀ x ∈ r.all ns, x.2.usage = .load :=
    List.forall_mem_map.2 fun _ _ => hr
  unfold Node.parts
  -- the tuple, the subscript and the filter; then the statements, which are not in an expression; then all others
  split
  · refine all ?_
    cases r with
    | stored => cases hr
    | index =>
      simp only [Role.ofItem]
      split <;> rfl
    | _ => rfl
  · exact List.forall_mem_cons.2 ⟨rfl, List.forall_mem_singleton.2 rfl⟩
  · refine List.forall_mem_append.2 ⟨all ?_, all rfl⟩
    cases r <;> rfl
  · cases h
  · cases h
  · cases h
  · cases h
  · cases h
  · exact all rfl

theorem Node.Plays.loads (hroot : root.IsInner) (h : root.Plays r n) : n.IsInner ∧ r.usage = .load := by
  induction h with
  | root => exact ⟨hroot, rfl⟩
  | part _ hc ih => exact ⟨ih.1.children _ (mem_children_iff.2 ⟨_, hc⟩), ih.1.parts ih.2 _ hc⟩

/-- Every name, tuple and subscript below an expression that stands alone is read. -/
theorem Expr.Shaped.all_load {e : Expr} (h : e.Shaped .alone) :
    ∀ n ∈ (Node.expr e).descendants, ∀ u, n.usage? = some u → u = .load := by
  intro n hn u hu
  obtain ⟨r, hplays⟩ := Node.mem_descendants_iff.1 hn
  have hinner : (Node.expr e).IsInner := trivial
  have hfits : (Node.expr e).Fits .plain := h
  have hload := (hplays.loads hinner).2
  have hused := (hplays.fits hfits).usedAs.usage u hu
  rwa [hload] at hused

end

/-! ## Trees -/

/-- A name, tuple or subscript of a template is used as its role says, which is to store for targets and the items
of targets, to bind for parameters and to load for all others; what is stored to or bound can be. In an
expression that stands alone, all are loaded. -/
theorem Environment.usages_follow_roles (env : Environment) (hb : env.IsBuiltin) (filename : Option Text)
    (source : Text) :
    (∀ doc, env.readTemplate filename source = .ok doc → ∀ n ∈ (Node.template doc.template).descendants,
      (∃ r, (Node.template doc.template).Plays r n) ∧
        ∀ r, (Node.template doc.template).Plays r n → n.UsedAs r) ∧
    ∀ e, env.readExpression filename source = .ok e → ∀ n ∈ (Node.expr e).descendants,
      ∀ u, n.usage? = some u → u = .load := by
  constructor
  · intro doc h n hn
    refine ⟨Node.mem_descendants_iff.1 hn, fun r hplays => ?_⟩
    exact (hplays.fits (readTemplate_fits hb h)).usedAs
  · intro e h
    obtain ⟨s, -, -, -, q, he, -⟩ := readExpression_derives h
    have hshaped : e.Shaped .alone := he.shapes
    exact hshaped.all_load

/-- A loop whose target is a tuple of a name and a subscript. -/
theorem Environment.usages_follow_roles_tuple :
    let source : Text := "\x7b% for a, b[c] in d %\x7d\x7b% endfor %\x7d"
    withLoopControls.IsBuiltin ∧ ∃ doc, withLoopControls.readTemplate none source = .ok doc ∧
      (let parts := doc.template.body.flatMap Node.stmtChildren;
        parts.map Node.usage? = [some .store, some .load] ∧
        (parts.flatMap Node.children).map Node.usage? = [some .store, some .store] ∧
        ((parts.flatMap Node.children).flatMap Node.children).map Node.usage? = [some .load, some .load]) ∧
      ∀ n ∈ (Node.template doc.template).descendants, (∃ r, (Node.template doc.template).Plays r n) ∧
        ∀ r, (Node.template doc.template).Plays r n → n.UsedAs r := by
  intro source
  have hread := withLoopControls.readTemplate_of_counted none source (fun
    | .ok t =>
      let parts := t.body.flatMap Node.stmtChildren
      decide (parts.map Node.usage? = [some .store, some .load] ∧
        (parts.flatMap Node.children).map Node.usage? = [some .store, some .store] ∧
        ((parts.flatMap Node.children).flatMap Node.children).map Node.usage? = [some .load, some .load])
    | .error _ => false) (by decide +kernel)
  clear_value source
  cases hdoc : withLoopControls.readTemplate none source with
  | error e => rw [hdoc] at hread; cases hread
  | ok doc =>
    rw [hdoc] at hread
    exact ⟨withLoopControls_isBuiltin, doc, rfl, of_decide_eq_true hread,
      (withLoopControls.usages_follow_roles withLoopControls_isBuiltin none source).1 doc hdoc⟩

end Stencil
