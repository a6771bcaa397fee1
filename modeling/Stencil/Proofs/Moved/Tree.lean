/-
Trees whose places are moved. `mapPlaces f` sends every location of a tree through `f` and leaves all else as it
is. Whether a tree is a target, and which one, does not depend on where it stands (`toTarget_mapPlaces`), and
a map that moves no location leaves the tree as it is (`mapPlaces_id`).
-/
import Stencil.Proofs.Moved.Basic
import Stencil.Tree.Stmt
import Stencil.Tree.Target

namespace Stencil

variable (f : Location → Location)

/-! ## Expressions -/

mutual

/-- The expression with its places moved. -/
@[simp] def Expr.mapPlaces : Expr → Expr
  | .const c s => .const c (s.map f)
  | .name n u s => .name n u (s.map f)
  | .tuple items u s => .tuple (Expr.mapPlacesAll items) u (s.map f)
  | .list items s => .list (Expr.mapPlacesAll items) (s.map f)
  | .dict items s => .dict (Pair.mapPlacesAll items) (s.map f)
  | .binary op left right s => .binary op left.mapPlaces right.mapPlaces (s.map f)
  | .unary op operand s => .unary op operand.mapPlaces (s.map f)
  | .compare first operands s => .compare first.mapPlaces (Operand.mapPlacesAll operands) (s.map f)
  | .cond test whenTrue whenFalse s =>
    .cond test.mapPlaces whenTrue.mapPlaces whenFalse.mapPlaces (s.map f)
  | .subscript object index u s => .subscript object.mapPlaces index.mapPlaces u (s.map f)
  | .slice start stop step s =>
    .slice (Expr.mapPlacesOption start) (Expr.mapPlacesOption stop) (Expr.mapPlacesOption step) (s.map f)
  | .call callee args s => .call callee.mapPlaces args.mapPlaces (s.map f)
  | .filter input name args s => .filter (Expr.mapPlacesOption input) name args.mapPlaces (s.map f)
  | .test subject name args s => .test subject.mapPlaces name args.mapPlaces (s.map f)

def Expr.mapPlacesAll : List Expr → List Expr
  | [] => []
  | e :: es => e.mapPlaces :: Expr.mapPlacesAll es

def Expr.mapPlacesOption : Option Expr → Option Expr
  | none => none
  | some e => some e.mapPlaces

@[simp] def Pair.mapPlaces : Pair → Pair
  | .mk key value s => .mk key.mapPlaces value.mapPlaces (s.map f)

def Pair.mapPlacesAll : List Pair → List Pair
  | [] => []
  | p :: ps => p.mapPlaces :: Pair.mapPlacesAll ps

@[simp] def Operand.mapPlaces : Operand → Operand
  | .mk op e s => .mk op e.mapPlaces (s.map f)

def Operand.mapPlacesAll : List Operand → List Operand
  | [] => []
  | o :: os => o.mapPlaces :: Operand.mapPlacesAll os

@[simp] def KeywordArg.mapPlaces : KeywordArg → KeywordArg
  | .mk key value s => .mk key value.mapPlaces (s.map f)

def KeywordArg.mapPlacesAll : List KeywordArg → List KeywordArg
  | [] => []
  | k :: ks => k.mapPlaces :: KeywordArg.mapPlacesAll ks

@[simp] def Arguments.mapPlaces : Arguments → Arguments
  | .mk positional keywords spread keywordSpread =>
    .mk (Expr.mapPlacesAll positional) (KeywordArg.mapPlacesAll keywords) (Expr.mapPlacesOption spread)
      (Expr.mapPlacesOption keywordSpread)

end

@[simp] theorem Expr.mapPlacesAll_eq_map (es : List Expr) : Expr.mapPlacesAll f es = es.map (Expr.mapPlaces f) := by
  induction es with
  | nil => rw [Expr.mapPlacesAll, List.map_nil]
  | cons e es ih => rw [Expr.mapPlacesAll, ih, List.map_cons]

@[simp] theorem Expr.mapPlacesOption_eq_map (o : Option Expr) :
    Expr.mapPlacesOption f o = o.map (Expr.mapPlaces f) := by
  cases o <;> rw [Expr.mapPlacesOption] <;> rfl

@[simp] theorem Pair.mapPlacesAll_eq_map (ps : List Pair) : Pair.mapPlacesAll f ps = ps.map (Pair.mapPlaces f) := by
  induction ps with
  | nil => rw [Pair.mapPlacesAll, List.map_nil]
  | cons p ps ih => rw [Pair.mapPlacesAll, ih, List.map_cons]

@[simp] theorem Operand.mapPlacesAll_eq_map (os : List Operand) :
    Operand.mapPlacesAll f os = os.map (Operand.mapPlaces f) := by
  induction os with
  | nil => rw [Operand.mapPlacesAll, List.map_nil]
  | cons o os ih => rw [Operand.mapPlacesAll, ih, List.map_cons]

@[simp] theorem KeywordArg.mapPlacesAll_eq_map (ks : List KeywordArg) :
    KeywordArg.mapPlacesAll f ks = ks.map (KeywordArg.mapPlaces f) := by
  induction ks with
  | nil => rw [KeywordArg.mapPlacesAll, List.map_nil]
  | cons k ks ih => rw [KeywordArg.mapPlacesAll, ih, List.map_cons]

/-- An expression that is moved spans the moved stretch. -/
@[simp] theorem Expr.span_mapPlaces (e : Expr) : (e.mapPlaces f).span = e.span.map f := by
  cases e <;> simp only [Expr.mapPlaces, Expr.span]

/-- What a message calls an expression does not depend on its place. -/
@[simp] theorem Expr.targetKind_mapPlaces (e : Expr) : (e.mapPlaces f).targetKind = e.targetKind := by
  cases e <;> simp only [Expr.mapPlaces, Expr.targetKind, Expr.typeName]

mutual

/-- A target stays a target at its moved place. -/
theorem Expr.toTarget_mapPlaces (u : Usage) : ∀ e : Expr,
    (e.mapPlaces f).toTarget u = (e.toTarget u).map (Expr.mapPlaces f)
  | .name n v s => by
    rw [Expr.mapPlaces, Expr.toTarget, Expr.toTarget]
    split
    · rw [Option.map_some, Expr.mapPlaces]
    · rfl
  | .tuple items v s => by
    rw [Expr.mapPlaces, Expr.toTarget, Expr.toTarget, Expr.mapPlacesAll_eq_map, Expr.toTargets_mapPlaces u items,
      Option.map_map, Option.map_map]
    refine congrArg (Option.map · _) (funext fun ts => ?_)
    simp only [Function.comp_apply, Expr.mapPlaces, Expr.mapPlacesAll_eq_map]
  | .subscript o i v s => by rw [Expr.mapPlaces, Expr.toTarget, Expr.toTarget, Option.map_some, Expr.mapPlaces]
  | .const .. | .list .. | .dict .. | .binary .. | .unary .. | .compare .. | .cond .. | .slice .. | .call ..
  | .filter .. | .test .. => by rw [Expr.mapPlaces]; rfl

theorem Expr.toTargets_mapPlaces (u : Usage) : ∀ es : List Expr,
    Expr.toTargets u (es.map (Expr.mapPlaces f)) = (Expr.toTargets u es).map (List.map (Expr.mapPlaces f))
  | [] => rfl
  | e :: es => by
    rw [List.map_cons, Expr.toTargets, Expr.toTargets, Expr.toTarget_mapPlaces u e, Expr.toTargets_mapPlaces u es]
    cases e.toTarget u with
    | none => rfl
    | some t => cases Expr.toTargets u es <;> rfl

end

/-! ## Statements -/

@[simp] def Param.mapPlaces (p : Param) : Param := ⟨p.name, p.span.map f⟩

@[simp] def Signature.mapPlaces (g : Signature) : Signature :=
  ⟨g.params.map (Param.mapPlaces f), g.defaults.map (Expr.mapPlaces f)⟩

mutual

/-- The statement with its places moved. -/
@[simp] def Stmt.mapPlaces : Stmt → Stmt
  | .output nodes s => .output (nodes.map (Expr.mapPlaces f)) (s.map f)
  | .assign target value s => .assign (target.mapPlaces f) (value.mapPlaces f) (s.map f)
  | .loop target iter body elseBody test s =>
    .loop (target.mapPlaces f) (iter.mapPlaces f) (Stmt.mapPlacesAll body) (Stmt.mapPlacesAll elseBody)
      (test.map (Expr.mapPlaces f)) (s.map f)
  | .branch test body elseBody s =>
    .branch (test.mapPlaces f) (Stmt.mapPlacesAll body) (Stmt.mapPlacesAll elseBody) (s.map f)
  | .block name body s => .block name (Stmt.mapPlacesAll body) (s.map f)
  | .extend template s => .extend (template.mapPlaces f) (s.map f)
  | .embed template s => .embed (template.mapPlaces f) (s.map f)
  | .importAs template target s => .importAs (template.mapPlaces f) target (s.map f)
  | .importNames template names s => .importNames (template.mapPlaces f) names (s.map f)
  | .define name signature body s => .define name (signature.mapPlaces f) (Stmt.mapPlacesAll body) (s.map f)
  | .callBlock signature call body s =>
    .callBlock (signature.mapPlaces f) (call.mapPlaces f) (Stmt.mapPlacesAll body) (s.map f)
  | .filterBlock filter body s => .filterBlock (filter.mapPlaces f) (Stmt.mapPlacesAll body) (s.map f)
  | .expr node s => .expr (node.mapPlaces f) (s.map f)
  | .breakLoop s => .breakLoop (s.map f)
  | .continueLoop s => .continueLoop (s.map f)

def Stmt.mapPlacesAll : List Stmt → List Stmt
  | [] => []
  | s :: ss => s.mapPlaces :: Stmt.mapPlacesAll ss

end

@[simp] theorem Stmt.mapPlacesAll_eq_map (ss : List Stmt) : Stmt.mapPlacesAll f ss = ss.map (Stmt.mapPlaces f) := by
  induction ss with
  | nil => rw [Stmt.mapPlacesAll, List.map_nil]
  | cons s ss ih => rw [Stmt.mapPlacesAll, ih, List.map_cons]

@[simp] def Template.mapPlaces (t : Template) : Template := ⟨t.body.map (Stmt.mapPlaces f), t.span.map f⟩

/-! ## A tree that stays where it is -/

mutual

theorem Expr.mapPlaces_id : ∀ e : Expr, e.mapPlaces id = e
  | .const _ _ | .name _ _ _ => by rw [Expr.mapPlaces]; rfl
  | .tuple items _ _ | .list items _ => by rw [Expr.mapPlaces, Expr.mapPlacesAll_id items]; rfl
  | .dict items _ => by rw [Expr.mapPlaces, Pair.mapPlacesAll_id items]; rfl
  | .binary _ left right _ => by rw [Expr.mapPlaces, Expr.mapPlaces_id left, Expr.mapPlaces_id right]; rfl
  | .unary _ operand _ => by rw [Expr.mapPlaces, Expr.mapPlaces_id operand]; rfl
  | .compare first operands _ => by
    rw [Expr.mapPlaces, Expr.mapPlaces_id first, Operand.mapPlacesAll_id operands]; rfl
  | .cond test whenTrue whenFalse _ => by
    rw [Expr.mapPlaces, Expr.mapPlaces_id test, Expr.mapPlaces_id whenTrue, Expr.mapPlaces_id whenFalse]; rfl
  | .subscript object index _ _ => by rw [Expr.mapPlaces, Expr.mapPlaces_id object, Expr.mapPlaces_id index]; rfl
  | .slice start stop step _ => by
    rw [Expr.mapPlaces, Expr.mapPlacesOption_id start, Expr.mapPlacesOption_id stop, Expr.mapPlacesOption_id step]
    rfl
  | .call callee args _ => by rw [Expr.mapPlaces, Expr.mapPlaces_id callee, Arguments.mapPlaces_id args]; rfl
  | .filter input _ args _ => by
    rw [Expr.mapPlaces, Expr.mapPlacesOption_id input, Arguments.mapPlaces_id args]; rfl
  | .test subject _ args _ => by rw [Expr.mapPlaces, Expr.mapPlaces_id subject, Arguments.mapPlaces_id args]; rfl

theorem Expr.mapPlacesAll_id : ∀ es : List Expr, Expr.mapPlacesAll id es = es
  | [] => by rw [Expr.mapPlacesAll]
  | e :: es => by rw [Expr.mapPlacesAll, Expr.mapPlaces_id e, Expr.mapPlacesAll_id es]

theorem Expr.mapPlacesOption_id : ∀ o : Option Expr, Expr.mapPlacesOption id o = o
  | none => by rw [Expr.mapPlacesOption]
  | some e => by rw [Expr.mapPlacesOption, Expr.mapPlaces_id e]

theorem Pair.mapPlaces_id : ∀ p : Pair, p.mapPlaces id = p
  | .mk key value _ => by rw [Pair.mapPlaces, Expr.mapPlaces_id key, Expr.mapPlaces_id value]; rfl

theorem Pair.mapPlacesAll_id : ∀ ps : List Pair, Pair.mapPlacesAll id ps = ps
  | [] => by rw [Pair.mapPlacesAll]
  | p :: ps => by rw [Pair.mapPlacesAll, Pair.mapPlaces_id p, Pair.mapPlacesAll_id ps]

theorem Operand.mapPlaces_id : ∀ o : Operand, o.mapPlaces id = o
  | .mk _ e _ => by rw [Operand.mapPlaces, Expr.mapPlaces_id e]; rfl

theorem Operand.mapPlacesAll_id : ∀ os : List Operand, Operand.mapPlacesAll id os = os
  | [] => by rw [Operand.mapPlacesAll]
  | o :: os => by rw [Operand.mapPlacesAll, Operand.mapPlaces_id o, Operand.mapPlacesAll_id os]

theorem KeywordArg.mapPlaces_id : ∀ k : KeywordArg, k.mapPlaces id = k
  | .mk _ value _ => by rw [KeywordArg.mapPlaces, Expr.mapPlaces_id value]; rfl

theorem KeywordArg.mapPlacesAll_id : ∀ ks : List KeywordArg, KeywordArg.mapPlacesAll id ks = ks
  | [] => by rw [KeywordArg.mapPlacesAll]
  | k :: ks => by rw [KeywordArg.mapPlacesAll, KeywordArg.mapPlaces_id k, KeywordArg.mapPlacesAll_id ks]

theorem Arguments.mapPlaces_id : ∀ a : Arguments, a.mapPlaces id = a
  | .mk positional keywords spread keywordSpread => by
    rw [Arguments.mapPlaces, Expr.mapPlacesAll_id positional, KeywordArg.mapPlacesAll_id keywords,
      Expr.mapPlacesOption_id spread, Expr.mapPlacesOption_id keywordSpread]

end

theorem Expr.map_mapPlaces_id (es : List Expr) : es.map (Expr.mapPlaces id) = es :=
  List.map_id'' Expr.mapPlaces_id es

theorem Signature.mapPlaces_id (g : Signature) : g.mapPlaces id = g := by
  have hparams : g.params.map (Param.mapPlaces id) = g.params := List.map_id'' (fun _ => rfl) _
  unfold Signature.mapPlaces
  rw [Expr.map_mapPlaces_id, hparams]

mutual

theorem Stmt.mapPlaces_id : ∀ s : Stmt, s.mapPlaces id = s
  | .output nodes _ => by rw [Stmt.mapPlaces, Expr.map_mapPlaces_id]; rfl
  | .assign target value _ => by rw [Stmt.mapPlaces, Expr.mapPlaces_id, Expr.mapPlaces_id]; rfl
  | .loop target iter body elseBody test _ => by
    rw [Stmt.mapPlaces, Expr.mapPlaces_id, Expr.mapPlaces_id, Stmt.mapPlacesAll_id body,
      Stmt.mapPlacesAll_id elseBody, ← Expr.mapPlacesOption_eq_map, Expr.mapPlacesOption_id]
    rfl
  | .branch test body elseBody _ => by
    rw [Stmt.mapPlaces, Expr.mapPlaces_id, Stmt.mapPlacesAll_id body, Stmt.mapPlacesAll_id elseBody]; rfl
  | .block _ body _ => by rw [Stmt.mapPlaces, Stmt.mapPlacesAll_id body]; rfl
  | .extend template _ | .embed template _ | .importAs template _ _ | .importNames template _ _ => by
    rw [Stmt.mapPlaces, Expr.mapPlaces_id]; rfl
  | .define _ signature body _ => by
    rw [Stmt.mapPlaces, Signature.mapPlaces_id, Stmt.mapPlacesAll_id body]; rfl
  | .callBlock signature call body _ => by
    rw [Stmt.mapPlaces, Signature.mapPlaces_id, Expr.mapPlaces_id, Stmt.mapPlacesAll_id body]; rfl
  | .filterBlock filter body _ => by rw [Stmt.mapPlaces, Expr.mapPlaces_id, Stmt.mapPlacesAll_id body]; rfl
  | .expr node _ => by rw [Stmt.mapPlaces, Expr.mapPlaces_id]; rfl
  | .breakLoop _ | .continueLoop _ => by rw [Stmt.mapPlaces]; rfl

theorem Stmt.mapPlacesAll_id : ∀ ss : List Stmt, Stmt.mapPlacesAll id ss = ss
  | [] => by rw [Stmt.mapPlacesAll]
  | s :: ss => by rw [Stmt.mapPlacesAll, Stmt.mapPlaces_id s, Stmt.mapPlacesAll_id ss]

end

theorem Template.mapPlaces_id (t : Template) : t.mapPlaces id = t := by
  unfold Template.mapPlaces
  rw [← Stmt.mapPlacesAll_eq_map, Stmt.mapPlacesAll_id]
  rfl

end Stencil
