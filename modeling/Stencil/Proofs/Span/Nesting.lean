/-
Nodes contain their children. Every node of a tree spans its children (`spans_nest`), but for the `not` of
a negated test, which begins at the word `is` behind the subject of the test (`negated_test_sticks_out`).
-/
import Stencil.Proofs.Span.Reading

namespace Stencil

variable {s : Stream}

/-- The node is the `not` of a negated test, which begins at the word `is`. -/
def Node.NegatesTest (ts : List Token) (n : Node) : Prop :=
  ∃ subject name args inner span, n = .expr (.unary .not (.test subject name args inner) span) ∧
    ∃ t ∈ ts, t.kind = .keyword .isOp ∧ t.span.start = span.start

/-- Every node of a tree ends where it begins or behind, and contains its children; but the `not` of a
negated test may begin behind the test. -/
def Node.Nests (ts : List Token) (root : Node) : Prop :=
  ∀ n ∈ root.descendants, n.span.start.offset ≤ n.span.finish.offset ∧
    ∀ c ∈ n.children, c.span.finish.offset ≤ n.span.finish.offset ∧
      (n.span.start.offset ≤ c.span.start.offset ∨ n.NegatesTest ts)

theorem Node.Placed.nests {n : Node} {a b : Nat} (hedge : ∀ m n, m ≤ n → (s.edge m).offset ≤ (s.edge n).offset)
    (h : n.Placed s a b) : n.Nests s.tokens.toList := by
  intro d hd
  obtain ⟨x, y, hplaced⟩ := h.of_mem_descendants hd
  cases hplaced with
  | @contains _ _ _ x y hspan _ hxy _ hc =>
    rw [hspan]
    refine ⟨hedge x y hxy, fun c hmem => ?_⟩
    obtain ⟨x', y', hx', hxy', hy', hspan', -⟩ := (hc c hmem).edges
    rw [hspan']
    exact ⟨hedge y' y (by omega), .inl (hedge x x' hx')⟩
  | @negated subject name args span _ _ x i y hk _ hy _ hc =>
    refine ⟨hedge _ _ hy, fun c hmem => ?_⟩
    rw [List.mem_singleton.1 hmem]
    obtain ⟨x', y', hx', hxy', hy', hspan', -⟩ := hc.edges
    rw [hspan']
    refine ⟨hedge y' y (by omega), .inr ⟨subject, name, args, span, _, rfl, s.get i, s.get_mem i, hk, ?_⟩⟩
    rw [s.edge_start]

/-- A template begins at the origin, and contains its statements if they are placed. -/
theorem Node.template_nests {t : Template} {q : Nat} (hedge : ∀ m n, m ≤ n → (s.edge m).offset ≤ (s.edge n).offset)
    (h : Rule.template.Result s 0 0 t q) : (Node.template t).Nests s.tokens.toList := by
  obtain ⟨-, hbody, hspan⟩ := h
  intro n hn
  rw [descendants_eq] at hn
  rcases List.mem_cons.1 hn with rfl | hn
  · refine ⟨?_, fun c hc => ?_⟩
    · show t.span.start.offset ≤ t.span.finish.offset
      rw [hspan]
      exact Nat.zero_le _
    · obtain ⟨x, y, -, -, hy, hspan', -⟩ := (hbody c hc).edges
      show c.span.finish.offset ≤ t.span.finish.offset ∧ (t.span.start.offset ≤ c.span.start.offset ∨ _)
      rw [hspan, hspan']
      exact ⟨hedge _ _ (by omega), .inl (Nat.zero_le _)⟩
  · obtain ⟨c, hc, hn⟩ := List.mem_flatMap.1 hn
    exact (hbody c hc).nests hedge n hn

/-- Every node of the tree of a template, or of an expression that stands alone, contains its children, but
for the `not` of a negated test, which contains the end of the test only. -/
theorem Environment.spans_nest (env : Environment) (hb : env.IsBuiltin) (filename : Option Text) (source : Text) :
    (∀ doc, env.readTemplate filename source = .ok doc →
      ∃ ts, env.tokens filename source = .ok ts ∧ (Node.template doc.template).Nests ts) ∧
    ∀ e, env.readExpression filename source = .ok e →
      ∃ ts, env.expressionTokens filename source = .ok ts ∧ (Node.expr e).Nests ts := by
  constructor
  · intro doc hdoc
    obtain ⟨s, hts, q, hresult⟩ := (readTemplate_yields hb filename source).1 doc hdoc
    obtain ⟨d, z, hlayout⟩ := tokens_faithful.layout _ hts
    exact ⟨_, hts, Node.template_nests (fun _ _ => hlayout.edge_le) hresult⟩
  · intro e he
    obtain ⟨s, hts, q, hplaced⟩ := (readExpression_yields hb filename source).1 e he
    obtain ⟨d, z, hlayout⟩ := expressionTokens_faithful.layout _ hts
    exact ⟨_, hts, hplaced.1.nests fun _ _ => hlayout.edge_le⟩

/-- A negated test before another operand of a sum. -/
theorem Environment.spans_nest_in_sum :
    let source : Text := "a is not b(c) + d"
    withLoopControls.IsBuiltin ∧ ∃ e, withLoopControls.readExpression none source = .ok e ∧
      e.span = ⟨⟨1, 3, 2⟩, ⟨1, 18, 17⟩⟩ ∧
      ∃ ts, withLoopControls.expressionTokens none source = .ok ts ∧ (Node.expr e).Nests ts := by
  intro source
  have hread := withLoopControls.readExpression_of_counted none source (fun
    | .ok e => decide (e.span = ⟨⟨1, 3, 2⟩, ⟨1, 18, 17⟩⟩)
    | .error _ => false) (by decide +kernel)
  clear_value source
  cases he : withLoopControls.readExpression none source with
  | error e => rw [he] at hread; cases hread
  | ok e =>
    rw [he] at hread
    refine ⟨withLoopControls_isBuiltin, e, rfl, of_decide_eq_true hread, ?_⟩
    exact (withLoopControls.spans_nest withLoopControls_isBuiltin none source).2 e he

/-- The `not` of a negated test does not contain the test: it begins behind the subject. -/
theorem Environment.negated_test_sticks_out :
    ∃ e, Environment.standard.readExpression none "a is not b" = .ok e ∧ ∃ n ∈ (Node.expr e).descendants,
      ∃ c ∈ n.children, c.span.start.offset < n.span.start.offset := by
  generalize hsource : Text.ofString "a is not b" = source
  have hread := Environment.standard.readExpression_of_counted none source (fun
    | .ok (.unary _ e span) => decide (e.span.start.offset < span.start.offset)
    | _ => false) (by subst hsource; decide +kernel)
  cases he : Environment.standard.readExpression none source with
  | error e => rw [he] at hread; cases hread
  | ok e =>
    rw [he] at hread
    cases e with
    | unary op e span =>
      refine ⟨_, rfl, .expr (.unary op e span), ?_, .expr e, List.mem_singleton.2 rfl, of_decide_eq_true hread⟩
      rw [Node.descendants_eq]
      exact List.mem_cons_self ..
    | _ => cases hread

end Stencil
