/-
The rules for operators, primary expressions, tuples, lists and dictionaries place the trees that they
read, if the rules inside them do.
-/
import Stencil.Grammar.Expression
import Stencil.Proofs.Span.Reader

namespace Stencil.Grammar

open Stencil.Parser

variable {s : Stream} {g : Grammar} {a pos : Nat}

/-! ## Conditional expressions -/

theorem expression_yields (h : g.Places s) (ha : a ≤ 2 * pos) (conditional : Bool) :
    (expression g conditional).Yields s pos ((Rule.expression conditional).Result s a pos) :=
  .ite (fun _ => h .cond ha trivial) fun _ => h (.binary .or) ha trivial

theorem cond_yields (h : g.Places s) (ha : a ≤ 2 * pos) :
    (cond g).Yields s pos (Rule.cond.Result s a pos) := by
  unfold cond
  refine (h (.binary .or) ha trivial).bind ?_
  rintro value p ⟨hp, hvalue⟩
  exact h.further (.condRest value) hp ha hvalue rfl fun _ => rfl

theorem condRest_yields (h : g.Places s) (ha : a ≤ 2 * pos) {value : Expr}
    (hvalue : value.Placed s a (2 * pos)) :
    (condRest g value).Yields s pos ((Rule.condRest value).Result s a pos) := by
  unfold condRest
  refine .check (fun hk => ?_) fun _ => .pure ⟨Nat.le_refl _, hvalue⟩
  refine .advance_of_mem hk rfl ((h (.binary .or) (Nat.le_refl _) trivial).bind ?_)
  rintro test p ⟨hp, (htest : test.Placed s (2 * (pos + 1)) (2 * p))⟩
  refine .expect nofun fun _ => (h .cond (Nat.le_refl _) trivial).bind ?_
  rintro other q ⟨hq, (hother : other.Placed s (2 * (p + 1)) (2 * q))⟩
  obtain ⟨x, y, hx, hxy, hy, hspan, hnode⟩ := hvalue.edges
  obtain ⟨x', y', hx', hxy', hy', hspan', hnode'⟩ := hother.edges
  refine h.further (.condRest _) (by omega) ha ?_ rfl fun _ => rfl
  refine Expr.placed_of (by rw [hspan, hspan']; rfl) hx (by omega) hy' hvalue.2 ?_
  exact .cons (htest.1.mono (by omega) (by omega)) (.cons (hnode.mono (Nat.le_refl _) (by omega))
    (.cons (hnode'.mono (by omega) (Nat.le_refl _)) .nil))

/-! ## Operators between two operands -/

theorem operand_yields (h : g.Places s) (op : BinaryOp) (ha : a ≤ 2 * pos) :
    (g (operandRule op)).Yields s pos fun e q => pos ≤ q ∧ e.Placed s a (2 * q) := by
  cases op <;> exact h _ ha trivial

theorem binary_yields (h : g.Places s) (op : BinaryOp) (ha : a ≤ 2 * pos) :
    (binary g op).Yields s pos ((Rule.binary op).Result s a pos) := by
  unfold binary
  refine (operand_yields h op ha).bind ?_
  rintro left p ⟨hp, hleft⟩
  exact h.further (.binaryRest op left) hp ha hleft rfl fun _ => rfl

theorem binaryRest_yields (h : g.Places s) (ha : a ≤ 2 * pos) (op : BinaryOp) {left : Expr}
    (hleft : left.Placed s a (2 * pos)) :
    (binaryRest g op left).Yields s pos ((Rule.binaryRest op left).Result s a pos) := by
  unfold binaryRest
  refine .check (fun hk => ?_) fun _ => .pure ⟨Nat.le_refl _, hleft⟩
  refine .advance_of_mem hk (by cases op <;> rfl) ((operand_yields h op (Nat.le_refl _)).bind ?_)
  rintro right p ⟨hp, hright⟩
  obtain ⟨x, y, hx, hxy, hy, hspan, hnode⟩ := hleft.edges
  obtain ⟨x', y', hx', hxy', hy', hspan', hnode'⟩ := hright.edges
  refine h.further (.binaryRest op _) (by omega) ha ?_ rfl fun _ => rfl
  refine Expr.placed_of (by rw [hspan, hspan']; rfl) hx (by omega) hy' hleft.2 ?_
  exact .cons (hnode.mono (Nat.le_refl _) (by omega)) (.cons (hnode'.mono (by omega) (Nat.le_refl _)) .nil)

/-! ## Comparisons -/

theorem skip_two_yields (hk : (s.get pos).kind ≠ .eof) :
    (skip 2).Yields s pos fun _ q => pos + 1 ≤ q := by
  refine .advance hk (Yields.move.mono ?_)
  rintro _ q ⟨-, hq, -⟩
  exact hq

/-- A comparison is read with the tokens that write it, or none is read at all. -/
theorem comparisonOp_yields : comparisonOp.Yields s pos fun op q =>
    pos ≤ q ∧ (op ≠ none → pos + 1 ≤ q) := by
  unfold comparisonOp
  refine .current ?_
  split
  · rename_i op hop
    have hk : (s.get pos).kind ≠ .eof := by
      intro hk
      rw [hk] at hop
      cases hop
    exact .advance hk (.pure ⟨Nat.le_succ _, fun _ => Nat.le_refl _⟩)
  · refine .peek fun next => .ite (fun hn => ?_) fun _ => .pure ⟨Nat.le_refl _, fun hn => absurd rfl hn⟩
    have hk : (s.get pos).kind ≠ .eof := by rw [hn.1]; nofun
    exact (skip_two_yields hk).bind fun _ q hq => .pure ⟨by omega, fun _ => hq⟩

theorem compare_yields (h : g.Places s) (ha : a ≤ 2 * pos) :
    (compare g).Yields s pos (Rule.compare.Result s a pos) := by
  unfold compare
  refine (h (.binary .add) ha trivial).bind ?_
  rintro first p ⟨hp, (hfirst : first.Placed s a (2 * p))⟩
  refine (h .compareRest (Nat.le_refl _) trivial).bind ?_
  rintro operands q ⟨hq, (hoperands : Node.AllPlaced s (2 * p) (2 * q) (operands.map .operand))⟩
  refine .ite (fun _ => .pure ⟨by omega, hfirst.mono (Nat.le_refl _) (by omega)⟩) fun _ => ?_
  obtain ⟨x, y, hx, hxy, hy, hspan, hnode⟩ := hfirst.edges
  refine .previousEnd (by omega) (.pure ⟨by omega, ?_⟩)
  refine Expr.placed_of (by rw [hspan]; rfl) hx (by omega) (by omega) hfirst.2 ?_
  exact .cons (hnode.mono (Nat.le_refl _) (by omega)) (hoperands.mono (by omega) (by omega))

theorem compareRest_yields (h : g.Places s) (ha : a ≤ 2 * pos) :
    (compareRest g).Yields s pos (Rule.compareRest.Result s a pos) := by
  unfold compareRest
  refine .current (comparisonOp_yields.bind ?_)
  rintro op p ⟨hp, hop⟩
  cases op with
  | none => exact .pure ⟨hp, .nil⟩
  | some op =>
    have hp := hop nofun
    refine (h (.binary .add) (Nat.le_refl _) trivial).bind ?_
    rintro operand q ⟨hq, (hoperand : operand.Placed s (2 * p) (2 * q))⟩
    refine (h .compareRest (Nat.le_refl _) trivial).bind ?_
    rintro rest r ⟨hr, (hrest : Node.AllPlaced s (2 * q) (2 * r) (rest.map .operand))⟩
    obtain ⟨x, y, hx, hxy, hy, hspan, hnode⟩ := hoperand.edges
    refine .pure ⟨by omega, .cons ?_ (hrest.mono (by omega) (Nat.le_refl _))⟩
    refine .contains (by rw [← s.edge_start, hspan]; rfl) ha (by omega : 2 * pos ≤ y) (by omega) ?_
    exact Node.AllPlaced.cons (hnode.mono (by omega) (Nat.le_refl _)) .nil

/-! ## Operators before an operand -/

theorem unary_yields (h : g.Places s) (ha : a ≤ 2 * pos) :
    (unary g).Yields s pos (Rule.unary.Result s a pos) := by
  unfold unary
  refine .current ?_
  split
  · exact h (.primary true) ha trivial
  · rename_i op hop
    have hk : (s.get pos).kind ≠ .eof := by
      intro hk
      rw [hk] at hop
      cases hop
    refine .advance hk ((h .unary (Nat.le_refl _) trivial).bind ?_)
    rintro operand p ⟨hp, (hoperand : operand.Placed s (2 * (pos + 1)) (2 * p))⟩
    obtain ⟨x, y, hx, hxy, hy, hspan, hnode⟩ := hoperand.edges
    refine .pure ⟨by omega, Expr.placed_of (by rw [← s.edge_start, hspan]; rfl) ha (by omega) hy ⟨pos, rfl⟩ ?_⟩
    exact .cons (hnode.mono (by omega) (Nat.le_refl _)) .nil

/-! ## Primary expressions -/

theorem nameExpr_placed (i : Nat) : (nameExpr (s.get i)).Placed s (2 * i) (2 * i + 2) := by
  unfold nameExpr
  split
  · exact Expr.placed_token rfl rfl
  · exact Expr.placed_token rfl rfl

theorem integer_yields (i : Nat) : (integer (s.get i)).Yields s pos fun e q =>
    q = pos ∧ e.Placed s (2 * i) (2 * i + 2) := by
  unfold integer
  split
  · exact .pure ⟨rfl, Expr.placed_token rfl rfl⟩
  · exact .fault

/-- An expression in parentheses stands between them. -/
theorem withParens_placed {inner : Expr} {x y b : Nat} (hinner : inner.Placed s x (y + 1)) (ha : a ≤ x)
    (hb : y < b) (hx : s.Starts (s.edge x)) : (withParens inner ⟨s.edge x, s.edge y⟩).Placed s a b := by
  unfold withParens
  split
  · obtain ⟨hnode, -⟩ := hinner
    cases hnode with
    | contains hspan hx' hxy hy h =>
      refine Expr.placed_of rfl ha (by omega) hb hx ?_
      exact Node.AllPlaced.mono h hx' (by omega)
  · exact hinner.mono ha hb

theorem atom_yields (h : g.Places s) (ha : a ≤ 2 * pos) :
    (atom g).Yields s pos fun e q => pos ≤ q ∧ e.Placed s a (2 * q) := by
  unfold atom
  -- a literal is its token
  have token {e : Expr} (he : e.Placed s (2 * pos) (2 * pos + 2)) :
      (pure e : Parser Expr).Yields s (pos + 1) fun e q => pos ≤ q ∧ e.Placed s a (2 * q) :=
    .pure ⟨Nat.le_succ _, he.mono ha (Nat.le_refl _)⟩
  refine .current ?_
  split <;> rename_i hk
  · exact .advance (by rw [hk]; nofun) (token (nameExpr_placed pos))
  · refine .advance (by rw [hk]; nofun) ((integer_yields pos).mono ?_)
    rintro e _ ⟨rfl, he⟩
    exact token he
  · exact .advance (by rw [hk]; nofun) (token (Expr.placed_token rfl rfl))
  · exact .advance (by rw [hk]; nofun) (token (Expr.placed_token rfl rfl))
  · refine .advance (by rw [hk]; nofun) ((h (.tuple (.expression true)) (Nat.le_refl _) trivial).bind ?_)
    rintro inner p ⟨hp, (hinner : inner.Placed s (2 * (pos + 1)) (2 * p + 1))⟩
    refine .expect nofun fun _ => .previousEnd (Nat.succ_pos p) (.pure ⟨by omega, ?_⟩)
    rw [← s.edge_start]
    refine withParens_placed (hinner.mono (by omega) (by omega)) ha (by omega) ⟨pos, s.edge_start pos⟩
  · exact h .list ha trivial
  · exact h .dict ha trivial
  · exact .report ⟨pos, rfl⟩

theorem primary_yields (h : g.Places s) (ha : a ≤ 2 * pos) (withSuffixes : Bool) :
    (primary g withSuffixes).Yields s pos ((Rule.primary withSuffixes).Result s a pos) := by
  unfold primary
  refine (atom_yields h ha).bind ?_
  rintro e p ⟨hp, he⟩
  exact .ite (fun _ => h.further (.suffixes e) hp ha he rfl fun _ => rfl) fun _ => .pure ⟨hp, he⟩

/-! ## Tuples -/

theorem tupleItem_yields (h : g.Places s) (ha : a ≤ 2 * pos) (item : TupleItem) :
    (tupleItem g item).Yields s pos fun e q => pos ≤ q ∧ e.Placed s a (2 * q) := by
  cases item with
  | primary => exact h (.primary true) ha trivial
  | expression conditional => exact h (.expression conditional) ha trivial

theorem tuple_yields (h : g.Places s) (ha : a ≤ 2 * pos) (item : TupleItem) :
    (tuple g item).Yields s pos ((Rule.tuple item).Result s a pos) := by
  unfold tuple
  refine .current (.check (fun _ => ?_) fun _ => ?_)
  · refine .pure ⟨Nat.le_refl _, ?_⟩
    rw [← s.edge_start]
    exact Expr.placed_of rfl ha (Nat.le_refl _) (Nat.lt_succ_self _) ⟨pos, s.edge_start pos⟩ .nil
  · refine (tupleItem_yields h (Nat.le_refl _) item).bind ?_
    rintro first p ⟨hp, hfirst⟩
    refine .check (fun _ => ?_) fun _ => .pure ⟨hp, hfirst.mono ha (Nat.le_succ _)⟩
    refine (h (.tupleRest item) (Nat.le_refl _) trivial).bind ?_
    rintro rest q ⟨hq, (hrest : Expr.Row s (2 * p) (2 * q) rest)⟩
    have := hfirst.lt
    refine .previousEnd (by omega) (.pure ⟨by omega, ?_⟩)
    rw [← s.edge_start]
    refine Expr.placed_of rfl ha (by omega) (by omega) ⟨pos, s.edge_start pos⟩ ?_
    exact (Expr.Row.cons hfirst hrest).nodes.mono (Nat.le_refl _) (by omega)

theorem tupleRest_yields (h : g.Places s) (ha : a ≤ 2 * pos) (item : TupleItem) :
    (tupleRest g item).Yields s pos ((Rule.tupleRest item).Result s a pos) := by
  unfold tupleRest
  refine .expect nofun fun _ => ?_
  refine .check (fun _ => .pure ⟨Nat.le_succ _, .nil (by omega)⟩) fun _ => ?_
  refine (tupleItem_yields h (by omega : a ≤ 2 * (pos + 1)) item).bind ?_
  rintro e p ⟨hp, he⟩
  refine .check (fun _ => ?_) fun _ => .pure ⟨by omega, .cons he (.nil (Nat.le_refl _))⟩
  refine (h (.tupleRest item) (Nat.le_refl _) trivial).bind ?_
  rintro rest q ⟨hq, hrest⟩
  exact .pure ⟨by omega, .cons he hrest⟩

/-! ## Lists and dictionaries -/

theorem list_yields (h : g.Places s) (ha : a ≤ 2 * pos) :
    (list g).Yields s pos (Rule.list.Result s a pos) := by
  unfold list
  refine .expect nofun fun _ => (h (.listItems true) (Nat.le_refl _) trivial).bind ?_
  rintro items p ⟨hp, (hitems : Expr.Row s (2 * (pos + 1)) (2 * p) items)⟩
  refine .expect nofun fun _ => .previousEnd (Nat.succ_pos p) (.pure ⟨by omega, ?_⟩)
  rw [← s.edge_start]
  refine Expr.placed_of rfl ha (by omega) (by omega) ⟨pos, s.edge_start pos⟩ ?_
  exact hitems.nodes.mono (by omega) (by omega)

/-- The comma before every item but the first one. -/
theorem comma_yields {b : Prop} [Decidable b] {α : Type} {rest : Unit → Parser α} {good : α → Nat → Prop}
    (k : ∀ q, pos ≤ q → (rest ()).Yields s q good) :
    (if b then do let _ ← expectSymbol .comma; rest () else rest ()).Yields s pos good :=
  .ite (fun _ => .expect nofun fun _ => k _ (Nat.le_succ _)) fun _ => k _ (Nat.le_refl _)

theorem listItems_yields (h : g.Places s) (ha : a ≤ 2 * pos) (first : Bool) :
    (listItems g first).Yields s pos ((Rule.listItems first).Result s a pos) := by
  unfold listItems
  refine .check (fun _ => .pure ⟨Nat.le_refl _, .nil ha⟩) fun _ => ?_
  extract_lets rest
  refine comma_yields fun p hp => .check (fun _ => .pure ⟨hp, .nil (by omega)⟩) fun _ => ?_
  refine (h (.expression true) (by omega : a ≤ 2 * p) trivial).bind ?_
  rintro e q ⟨hq, he⟩
  refine (h (.listItems false) (Nat.le_refl _) trivial).bind ?_
  rintro es r ⟨hr, hes⟩
  exact .pure ⟨by omega, .cons he hes⟩

theorem dict_yields (h : g.Places s) (ha : a ≤ 2 * pos) :
    (dict g).Yields s pos (Rule.dict.Result s a pos) := by
  unfold dict
  refine .expect nofun fun _ => (h (.dictItems true) (Nat.le_refl _) trivial).bind ?_
  rintro items p ⟨hp, (hitems : Node.AllPlaced s (2 * (pos + 1)) (2 * p) (items.map .pair))⟩
  refine .expect nofun fun _ => .previousEnd (Nat.succ_pos p) (.pure ⟨by omega, ?_⟩)
  rw [← s.edge_start]
  refine Expr.placed_of rfl ha (by omega) (by omega) ⟨pos, s.edge_start pos⟩ ?_
  exact hitems.mono (by omega) (by omega)

theorem dictItems_yields (h : g.Places s) (ha : a ≤ 2 * pos) (first : Bool) :
    (dictItems g first).Yields s pos ((Rule.dictItems first).Result s a pos) := by
  unfold dictItems
  refine .check (fun _ => .pure ⟨Nat.le_refl _, .nil⟩) fun _ => ?_
  extract_lets rest
  refine comma_yields fun p hp => .check (fun _ => .pure ⟨hp, .nil⟩) fun _ => ?_
  refine (h (.expression true) (Nat.le_refl _) trivial).bind ?_
  rintro key q ⟨hq, (hkey : key.Placed s (2 * p) (2 * q))⟩
  refine .expect nofun fun _ => (h (.expression true) (Nat.le_refl _) trivial).bind ?_
  rintro value r ⟨hr, (hvalue : value.Placed s (2 * (q + 1)) (2 * r))⟩
  refine (h (.dictItems false) (Nat.le_refl _) trivial).bind ?_
  rintro ps t ⟨ht, (hps : Node.AllPlaced s (2 * r) (2 * t) (ps.map .pair))⟩
  obtain ⟨x, y, hx, hxy, hy, hspan, hnode⟩ := hkey.edges
  obtain ⟨x', y', hx', hxy', hy', hspan', hnode'⟩ := hvalue.edges
  refine .pure ⟨by omega, .cons ?_ (hps.mono (by omega) (Nat.le_refl _))⟩
  refine .contains (by rw [hspan, hspan']; rfl) (by omega) (by omega : x ≤ y') (by omega) ?_
  exact Node.AllPlaced.cons (hnode.mono (Nat.le_refl _) (by omega))
    (.cons (hnode'.mono (by omega) (Nat.le_refl _)) .nil)

end Stencil.Grammar
