/-
Trees up to their spans. `bare` takes every span of a tree off, so that two trees are the same up to
spans if and only if their bare trees are equal.
-/
import Stencil.Tree.Stmt
import Stencil.Tree.Target

namespace Stencil

/-- The span that stands in the place of every other. -/
def Span.none : Span := ⟨.origin, .origin⟩

/-! ## Expressions -/

mutual

/-- The expression without its spans. -/
def Expr.bare : Expr → Expr
  | .const c _ => .const c .none
  | .name n u _ => .name n u .none
  | .tuple items u _ => .tuple (Expr.bares items) u .none
  | .list items _ => .list (Expr.bares items) .none
  | .dict items _ => .dict (Pair.bares items) .none
  | .binary op left right _ => .binary op left.bare right.bare .none
  | .unary op operand _ => .unary op operand.bare .none
  | .compare first operands _ => .compare first.bare (Operand.bares operands) .none
  | .cond test whenTrue whenFalse _ => .cond test.bare whenTrue.bare whenFalse.bare .none
  | .subscript object index u _ => .subscript object.bare index.bare u .none
  | .slice start stop step _ =>
    .slice (Expr.bareOption start) (Expr.bareOption stop) (Expr.bareOption step) .none
  | .call callee args _ => .call callee.bare args.bare .none
  | .filter input name args _ => .filter (Expr.bareOption input) name args.bare .none
  | .test subject name args _ => .test subject.bare name args.bare .none

def Expr.bares : List Expr → List Expr
  | [] => []
  | e :: es => e.bare :: Expr.bares es

def Expr.bareOption : Option Expr → Option Expr
  | none => none
  | some e => some e.bare

def Pair.bare : Pair → Pair
  | .mk key value _ => .mk key.bare value.bare .none

def Pair.bares : List Pair → List Pair
  | [] => []
  | p :: ps => p.bare :: Pair.bares ps

def Operand.bare : Operand → Operand
  | .mk op e _ => .mk op e.bare .none

def Operand.bares : List Operand → List Operand
  | [] => []
  | o :: os => o.bare :: Operand.bares os

def KeywordArg.bare : KeywordArg → KeywordArg
  | .mk key value _ => .mk key value.bare .none

def KeywordArg.bares : List KeywordArg → List KeywordArg
  | [] => []
  | k :: ks => k.bare :: KeywordArg.bares ks

def Arguments.bare : Arguments → Arguments
  | .mk positional keywords spread keywordSpread =>
    .mk (Expr.bares positional) (KeywordArg.bares keywords) (Expr.bareOption spread)
      (Expr.bareOption keywordSpread)

end

theorem Expr.bares_eq_map (es : List Expr) : Expr.bares es = es.map Expr.bare := by
  induction es with
  | nil => rw [Expr.bares, List.map_nil]
  | cons e es ih => rw [Expr.bares, ih, List.map_cons]

theorem Expr.bareOption_eq_map (o : Option Expr) : Expr.bareOption o = o.map Expr.bare := by
  cases o <;> rw [Expr.bareOption] <;> rfl

theorem Pair.bares_eq_map (ps : List Pair) : Pair.bares ps = ps.map Pair.bare := by
  induction ps with
  | nil => rw [Pair.bares, List.map_nil]
  | cons p ps ih => rw [Pair.bares, ih, List.map_cons]

theorem Operand.bares_eq_map (os : List Operand) : Operand.bares os = os.map Operand.bare := by
  induction os with
  | nil => rw [Operand.bares, List.map_nil]
  | cons o os ih => rw [Operand.bares, ih, List.map_cons]

theorem KeywordArg.bares_eq_map (ks : List KeywordArg) : KeywordArg.bares ks = ks.map KeywordArg.bare := by
  induction ks with
  | nil => rw [KeywordArg.bares, List.map_nil]
  | cons k ks ih => rw [KeywordArg.bares, ih, List.map_cons]

/-! ## Statements -/

def Param.bare (p : Param) : Param := ⟨p.name, .none⟩

def Signature.bare (g : Signature) : Signature := ⟨g.params.map Param.bare, g.defaults.map Expr.bare⟩

mutual

/-- The statement without its spans. -/
def Stmt.bare : Stmt → Stmt
  | .output nodes _ => .output (nodes.map Expr.bare) .none
  | .assign target value _ => .assign target.bare value.bare .none
  | .loop target iter body elseBody test _ =>
    .loop target.bare iter.bare (Stmt.bares body) (Stmt.bares elseBody) (test.map Expr.bare) .none
  | .branch test body elseBody _ => .branch test.bare (Stmt.bares body) (Stmt.bares elseBody) .none
  | .block name body _ => .block name (Stmt.bares body) .none
  | .extend template _ => .extend template.bare .none
  | .embed template _ => .embed template.bare .none
  | .importAs template target _ => .importAs template.bare target .none
  | .importNames template names _ => .importNames template.bare names .none
  | .define name signature body _ => .define name signature.bare (Stmt.bares body) .none
  | .callBlock signature call body _ => .callBlock signature.bare call.bare (Stmt.bares body) .none
  | .filterBlock filter body _ => .filterBlock filter.bare (Stmt.bares body) .none
  | .expr node _ => .expr node.bare .none
  | .breakLoop _ => .breakLoop .none
  | .continueLoop _ => .continueLoop .none

def Stmt.bares : List Stmt → List Stmt
  | [] => []
  | s :: ss => s.bare :: Stmt.bares ss

end

theorem Stmt.bares_eq_map (ss : List Stmt) : Stmt.bares ss = ss.map Stmt.bare := by
  induction ss with
  | nil => rw [Stmt.bares, List.map_nil]
  | cons s ss ih => rw [Stmt.bares, ih, List.map_cons]

/-- The template without its spans. -/
def Template.bare (t : Template) : Template := ⟨Stmt.bares t.body, .none⟩

/-! ## Targets -/

mutual

/-- Whether an expression is a target, and which one, does not depend on its spans. -/
theorem Expr.toTarget_bare (u : Usage) : ∀ e : Expr, e.bare.toTarget u = (e.toTarget u).map Expr.bare
  | .name n v s => by
    rw [Expr.bare, Expr.toTarget, Expr.toTarget]
    split
    · rw [Option.map_some, Expr.bare]
    · rfl
  | .tuple items v s => by
    rw [Expr.bare, Expr.toTarget, Expr.toTarget, Expr.toTargets_bare u items, Option.map_map, Option.map_map]
    rfl
  | .subscript o i v s => by rw [Expr.bare, Expr.toTarget, Expr.toTarget, Option.map_some, Expr.bare]
  | .const .. | .list .. | .dict .. | .binary .. | .unary .. | .compare .. | .cond .. | .slice .. | .call ..
  | .filter .. | .test .. => by rw [Expr.bare]; rfl

theorem Expr.toTargets_bare (u : Usage) : ∀ es : List Expr,
    Expr.toTargets u (Expr.bares es) = (Expr.toTargets u es).map Expr.bares
  | [] => rfl
  | e :: es => by
    rw [Expr.bares, Expr.toTargets, Expr.toTargets, Expr.toTarget_bare u e, Expr.toTargets_bare u es]
    cases e.toTarget u with
    | none => rfl
    | some t => cases Expr.toTargets u es <;> rfl

end

/-- What equals a target up to spans is a target, and the same one up to spans. -/
theorem Expr.toTarget_of_bare {u : Usage} {e e' t : Expr} (he : e'.bare = e.bare) (ht : e.toTarget u = some t) :
    ∃ t', e'.toTarget u = some t' ∧ t'.bare = t.bare := by
  have h : (e'.toTarget u).map Expr.bare = some t.bare := by
    rw [← Expr.toTarget_bare, he, Expr.toTarget_bare, ht, Option.map_some]
  exact Option.map_eq_some_iff.1 h

end Stencil
