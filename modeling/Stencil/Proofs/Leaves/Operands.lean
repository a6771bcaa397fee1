/-
No operand is lost, doubled or moved: the leaves of an expression that stands alone are the names and literals
of its source, one for each, in their order (`operands_become_leaves`).
-/
import Stencil.Proofs.Derivation.Scanned
import Stencil.Proofs.Leaves.Reading

namespace Stencil

/-- The leaves of an expression that stands alone are its names and literals in their order: each of these
tokens becomes one name, one constant, or the name of one filter, test or keyword argument, with its value. -/
theorem Environment.operands_become_leaves (env : Environment) (filename : Option Text) (source : Text) {e : Expr}
    (h : env.readExpression filename source = .ok e) :
    ∃ s : Stream, env.expressionTokens filename source = .ok s.tokens.toList ∧
      List.Forall₂ s.Becomes (s.places TokenKind.isOperand 0 s.tokens.size) e.leaves := by
  obtain ⟨s, n, hts, ⟨hsize, hclose⟩, q, he, hend⟩ := readExpression_derives h
  have hbears : s.Bears 0 q e.leaves := he.bears Stream.opens_zero 0 .nil
  have hq : q = n := by
    refine Nat.le_antisymm ?_ ((hclose q).1 hend)
    by_contra hlt
    -- the end token does not stand inside of an expression
    have hinside := hbears.inside n (Nat.zero_le n) (by omega)
    rw [(hclose n).2 (Nat.le_refl n)] at hinside
    cases hinside
  refine ⟨s, hts, ?_⟩
  rw [← hsize, Stream.places_snoc (Nat.zero_le n), (hclose n).2 (Nat.le_refl n), ← hq]
  exact (List.append_nil _).symm ▸ hbears.leaves

/-- The value of a conditional stands before its test, and the name of a filter behind its input. -/
theorem Environment.operands_become_leaves_conditional :
    let source : Text := "a.b if x is odd(k=y) else 'c'|up"
    ∃ e, standard.readExpression none source = .ok e ∧
      e.leaves = [.name "a" ⟨⟨1, 1, 0⟩, ⟨1, 2, 1⟩⟩, .const (.text "b") ⟨⟨1, 3, 2⟩, ⟨1, 4, 3⟩⟩,
        .name "x" ⟨⟨1, 8, 7⟩, ⟨1, 9, 8⟩⟩, .test "odd", .key "k", .name "y" ⟨⟨1, 19, 18⟩, ⟨1, 20, 19⟩⟩,
        .const (.text "c") ⟨⟨1, 27, 26⟩, ⟨1, 30, 29⟩⟩, .filter "up"] ∧
      ∃ s : Stream, standard.expressionTokens none source = .ok s.tokens.toList ∧
        List.Forall₂ s.Becomes (s.places TokenKind.isOperand 0 s.tokens.size) e.leaves := by
  intro source
  have hread := standard.readExpression_of_counted none source (fun
    | .ok e => decide (e.leaves = [.name "a" ⟨⟨1, 1, 0⟩, ⟨1, 2, 1⟩⟩, .const (.text "b") ⟨⟨1, 3, 2⟩, ⟨1, 4, 3⟩⟩,
        .name "x" ⟨⟨1, 8, 7⟩, ⟨1, 9, 8⟩⟩, .test "odd", .key "k", .name "y" ⟨⟨1, 19, 18⟩, ⟨1, 20, 19⟩⟩,
        .const (.text "c") ⟨⟨1, 27, 26⟩, ⟨1, 30, 29⟩⟩, .filter "up"])
    | .error _ => false) (by decide +kernel)
  clear_value source
  cases he : standard.readExpression none source with
  | error e => rw [he] at hread; cases hread
  | ok e =>
    rw [he] at hread
    exact ⟨e, rfl, of_decide_eq_true hread, operands_become_leaves standard none source he⟩

end Stencil
