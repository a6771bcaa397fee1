/-
The rules for operators, primary expressions, tuples, lists and dictionaries are carried on, if the rules inside
them are. What they branch on are kinds and values of tokens, never a place.
-/
import Stencil.Proofs.Parallel.Basic

namespace Stencil.Grammar

open Parallel

variable {m : Parallel} {g g' : Grammar} {pos : Nat}

/-! ## Conditional expressions -/

theorem expression_carries (h : m.CarriesRules g g') (conditional : Bool) :
    m.Carries (Expr.mapPlaces m.move) (expression g conditional) (expression g' conditional) pos :=
  .ite Iff.rfl (fun _ => h .cond trivial) fun _ => h (.binary .or) trivial

theorem cond_carries (h : m.CarriesRules g g') : m.Carries (Expr.mapPlaces m.move) (cond g) (cond g') pos :=
  (h (.binary .or) trivial).bind fun value _ => h (.condRest value) trivial

theorem condRest_carries (h : m.CarriesRules g g') (value : Expr) :
    m.Carries (Expr.mapPlaces m.move) (condRest g value) (condRest g' (value.mapPlaces m.move)) pos := by
  unfold condRest
  refine .check (Carries.advance.bind fun _ _ => ?_) (.pure rfl)
  refine (h (.binary .or) trivial).bind fun test _ => Carries.expect.bind fun _ _ => ?_
  refine (h .cond trivial).bind fun other _ => h.rule .expr trivial ?_
  simp

/-! ## Operators between two operands -/

theorem operand_carries (h : m.CarriesRules g g') (op : BinaryOp) :
    m.Carries (Expr.mapPlaces m.move) (g (operandRule op)) (g' (operandRule op)) pos := by
  cases op <;> exact h _ trivial

theorem binary_carries (h : m.CarriesRules g g') (op : BinaryOp) :
    m.Carries (Expr.mapPlaces m.move) (binary g op) (binary g' op) pos :=
  (operand_carries h op).bind fun left _ => h (.binaryRest op left) trivial

theorem binaryRest_carries (h : m.CarriesRules g g') (op : BinaryOp) (left : Expr) :
    m.Carries (Expr.mapPlaces m.move) (binaryRest g op left) (binaryRest g' op (left.mapPlaces m.move)) pos := by
  unfold binaryRest
  refine .check (Carries.advance.bind fun _ _ => ?_) (.pure rfl)
  refine (operand_carries h op).bind fun right _ => h.rule .expr trivial ?_
  simp

/-! ## Comparisons -/

theorem compare_carries (h : m.CarriesRules g g') :
    m.Carries (Expr.mapPlaces m.move) (compare g) (compare g') pos := by
  unfold compare
  refine (h (.binary .add) trivial).bind fun first _ => (h .compareRest trivial).bind fun operands _ => ?_
  refine .ite (by simp) (fun _ => .pure rfl) fun _ => Carries.previousEnd.bind fun stop _ => .pure ?_
  simp

theorem comparisonOp_carries : m.Carries id comparisonOp comparisonOp pos := by
  unfold comparisonOp
  refine .current ?_
  simp only [Token.kind_mapPlaces]
  split
  · exact Carries.advance.bind fun _ _ => .pure rfl
  · exact .pair (by decide) (fun _ => Carries.skip_two.bind fun _ _ => .pure rfl) (.pure rfl)

theorem compareRest_carries (h : m.CarriesRules g g') :
    m.Carries (List.map (Operand.mapPlaces m.move)) (compareRest g) (compareRest g') pos := by
  unfold compareRest
  refine .current (comparisonOp_carries.bind fun op _ => ?_)
  cases op with
  | none => exact .pure rfl
  | some op =>
    refine (h (.binary .add) trivial).bind fun operand _ => (h .compareRest trivial).bind fun rest _ => .pure ?_
    simp

/-! ## Operators before an operand -/

theorem unary_carries (h : m.CarriesRules g g') : m.Carries (Expr.mapPlaces m.move) (unary g) (unary g') pos := by
  unfold unary
  refine .current ?_
  simp only [Token.kind_mapPlaces]
  split
  · exact h (.primary true) trivial
  · refine Carries.advance.bind fun _ _ => (h .unary trivial).bind fun operand _ => .pure ?_
    simp

/-! ## Primary expressions -/

theorem nameExpr_mapPlaces (f : Location → Location) (t : Token) :
    nameExpr (t.mapPlaces f) = (nameExpr t).mapPlaces f := by
  unfold nameExpr
  rw [Token.value_mapPlaces]
  split <;> simp

theorem withParens_mapPlaces (f : Location → Location) (e : Expr) (span : Span) :
    withParens (e.mapPlaces f) (span.map f) = (withParens e span).mapPlaces f := by
  cases e <;> simp [withParens]

theorem integer_carries (t : Token) :
    m.Carries (Expr.mapPlaces m.move) (integer t) (integer (t.mapPlaces m.move)) pos := by
  unfold integer
  rw [Token.value_mapPlaces]
  split
  · exact .pure (by simp)
  · exact .fault

theorem atom_carries (h : m.CarriesRules g g') : m.Carries (Expr.mapPlaces m.move) (atom g) (atom g') pos := by
  unfold atom
  refine .current ?_
  simp only [Token.kind_mapPlaces]
  split
  · exact Carries.advance.bind fun _ _ => .pure (nameExpr_mapPlaces ..)
  · exact Carries.advance.bind fun _ _ => integer_carries _
  · exact Carries.advance.bind fun _ _ => .pure (by simp)
  · exact Carries.advance.bind fun _ _ => .pure (by simp)
  · refine Carries.advance.bind fun _ _ => (h (.tuple (.expression true)) trivial).bind fun inner _ => ?_
    refine Carries.expect.bind fun _ _ => Carries.previousEnd.bind fun stop _ => .pure ?_
    exact withParens_mapPlaces m.move inner ⟨_, stop⟩
  · exact h .list trivial
  · exact h .dict trivial
  · exact .report

theorem primary_carries (h : m.CarriesRules g g') (withSuffixes : Bool) :
    m.Carries (Expr.mapPlaces m.move) (primary g withSuffixes) (primary g' withSuffixes) pos :=
  (atom_carries h).bind fun e _ => .ite Iff.rfl (fun _ => h (.suffixes e) trivial) fun _ => .pure rfl

/-! ## Tuples -/

theorem tupleItem_carries (h : m.CarriesRules g g') (item : TupleItem) :
    m.Carries (Expr.mapPlaces m.move) (tupleItem g item) (tupleItem g' item) pos := by
  cases item with
  | primary => exact h (.primary true) trivial
  | expression conditional => exact h (.expression conditional) trivial

theorem tuple_carries (h : m.CarriesRules g g') (item : TupleItem) :
    m.Carries (Expr.mapPlaces m.move) (tuple g item) (tuple g' item) pos := by
  unfold tuple
  refine .current (.check (.pure (by simp)) ?_)
  refine (tupleItem_carries h item).bind fun first _ => .check ?_ (.pure rfl)
  refine (h (.tupleRest item) trivial).bind fun rest _ => Carries.previousEnd.bind fun stop _ => .pure ?_
  simp

theorem tupleRest_carries (h : m.CarriesRules g g') (item : TupleItem) :
    m.Carries (List.map (Expr.mapPlaces m.move)) (tupleRest g item) (tupleRest g' item) pos := by
  unfold tupleRest
  refine Carries.expect.bind fun _ _ => .check (.pure rfl) ?_
  refine (tupleItem_carries h item).bind fun e _ => .check ?_ (.pure rfl)
  exact (h (.tupleRest item) trivial).bind fun rest _ => .pure rfl

/-! ## Lists and dictionaries -/

theorem list_carries (h : m.CarriesRules g g') : m.Carries (Expr.mapPlaces m.move) (list g) (list g') pos := by
  unfold list
  refine Carries.expect.bind fun opened _ => (h (.listItems true) trivial).bind fun items _ => ?_
  refine Carries.expect.bind fun _ _ => Carries.previousEnd.bind fun stop _ => .pure ?_
  simp

/-- The comma before every item but the first one. -/
theorem comma_carries {b b' : Prop} [Decidable b] [Decidable b'] {α : Type} {mv : α → α} {rest rest' : Unit → Parser α}
    (hb : b' ↔ b) (k : ∀ q, m.Carries mv (rest ()) (rest' ()) q) :
    m.Carries mv (if b then do let _ ← Parser.expectSymbol .comma; rest () else rest ())
      (if b' then do let _ ← Parser.expectSymbol .comma; rest' () else rest' ()) pos :=
  .ite hb (fun _ => Carries.expect.bind fun _ q => k q) fun _ => k pos

theorem listItems_carries (h : m.CarriesRules g g') (first : Bool) :
    m.Carries (List.map (Expr.mapPlaces m.move)) (listItems g first) (listItems g' first) pos := by
  unfold listItems
  refine .check (.pure rfl) ?_
  extract_lets rest rest'
  refine comma_carries Iff.rfl fun q => .check (.pure rfl) ?_
  exact (h (.expression true) trivial).bind fun e _ => (h (.listItems false) trivial).bind fun es _ => .pure rfl

theorem dict_carries (h : m.CarriesRules g g') : m.Carries (Expr.mapPlaces m.move) (dict g) (dict g') pos := by
  unfold dict
  refine Carries.expect.bind fun opened _ => (h (.dictItems true) trivial).bind fun items _ => ?_
  refine Carries.expect.bind fun _ _ => Carries.previousEnd.bind fun stop _ => .pure ?_
  simp

theorem dictItems_carries (h : m.CarriesRules g g') (first : Bool) :
    m.Carries (List.map (Pair.mapPlaces m.move)) (dictItems g first) (dictItems g' first) pos := by
  unfold dictItems
  refine .check (.pure rfl) ?_
  extract_lets rest rest'
  refine comma_carries Iff.rfl fun q => .check (.pure rfl) ?_
  refine (h (.expression true) trivial).bind fun key _ => Carries.expect.bind fun _ _ => ?_
  refine (h (.expression true) trivial).bind fun value _ => (h (.dictItems false) trivial).bind fun ps _ => .pure ?_
  simp

end Stencil.Grammar
