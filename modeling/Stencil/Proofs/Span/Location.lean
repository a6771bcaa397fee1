/-
Locations are true. Every location of a token, of a node and of a mistake is the place of its offset in the
source, and a mistake in the structure of a template is reported where a token begins (`locations_true`).
-/
import Stencil.Proofs.Span.Reading

namespace Stencil

variable {filename : Option Text} {source : Text} {s : Stream}

/-- All spans of a tree are true. -/
def Node.TrueIn (source : Text) (root : Node) : Prop := ∀ n ∈ root.descendants, n.span.TrueIn source

theorem Stream.edge_true (htrue : ∀ t ∈ s.tokens.toList, t.span.TrueIn source) (n : Nat) :
    (s.edge n).TrueIn source := by
  unfold edge
  split
  · exact (htrue _ (s.get_mem _)).1
  · exact (htrue _ (s.get_mem _)).2

theorem Node.Placed.trueIn {n : Node} {a b : Nat} (htrue : ∀ t ∈ s.tokens.toList, t.span.TrueIn source)
    (h : n.Placed s a b) : n.TrueIn source := by
  intro d hd
  obtain ⟨x, y, hplaced⟩ := h.of_mem_descendants hd
  obtain ⟨x, y, -, -, -, hspan, -⟩ := hplaced.edges
  rw [hspan]
  exact ⟨s.edge_true htrue x, s.edge_true htrue y⟩

/-- A template begins at the origin, and is true if its statements are. -/
theorem Node.template_trueIn {t : Template} {q : Nat} (htrue : ∀ t ∈ s.tokens.toList, t.span.TrueIn source)
    (h : Rule.template.Result s 0 0 t q) : (Node.template t).TrueIn source := by
  obtain ⟨-, hbody, hspan⟩ := h
  intro d hd
  rw [descendants_eq] at hd
  rcases List.mem_cons.1 hd with rfl | hd
  · show t.span.TrueIn source
    rw [hspan]
    exact ⟨Location.trueIn_after [] source, s.edge_true htrue _⟩
  · obtain ⟨c, hc, hd⟩ := List.mem_flatMap.1 hd
    exact (hbody c hc).trueIn htrue d hd

/-- Every location that comes from a source is true: those of tokens, of the nodes of trees and of
mistakes, and a mistake that is none of the scan is reported where a token begins. -/
theorem Environment.locations_true (env : Environment) (hb : env.IsBuiltin) (filename : Option Text)
    (source : Text) :
    (∀ ts, env.tokens filename source = .ok ts ∨ env.expressionTokens filename source = .ok ts →
      ∀ t ∈ ts, t.span.TrueIn source) ∧
    (∀ d, env.tokens filename source = .error d ∨ env.expressionTokens filename source = .error d →
      d.TrueIn source filename) ∧
    (∀ doc, env.readTemplate filename source = .ok doc → (Node.template doc.template).TrueIn source) ∧
    (∀ e, env.readExpression filename source = .ok e → (Node.expr e).TrueIn source) ∧
    (∀ d, env.readTemplate filename source = .error (.reported d) →
      d.Found source filename (env.tokens filename source)) ∧
    ∀ d, env.readExpression filename source = .error (.reported d) →
      d.Found source filename (env.expressionTokens filename source) := by
  obtain ⟨htemplate, htemplate'⟩ := readTemplate_yields hb filename source
  obtain ⟨hexpression, hexpression'⟩ := readExpression_yields hb filename source
  have htrue {ts : List Token} {scan : Except Diagnostic (List Token)} (hscan : Scan.Faithful source filename scan)
      (hts : scan = .ok ts) : ∀ t ∈ ts, t.span.TrueIn source := by
    obtain ⟨d, z, hlayout⟩ := hscan.layout ts hts
    exact hlayout.origin_true
  refine ⟨?_, ?_, fun doc hdoc => ?_, fun e he => ?_, htemplate', hexpression'⟩
  · rintro ts (hts | hts)
    · exact htrue tokens_faithful hts
    · exact htrue expressionTokens_faithful hts
  · rintro d (hd | hd)
    · exact (tokens_faithful.mistake d hd).2
    · exact (expressionTokens_faithful.mistake d hd).2
  · obtain ⟨s, hts, q, hresult⟩ := htemplate doc hdoc
    exact Node.template_trueIn (htrue tokens_faithful hts) hresult
  · obtain ⟨s, hts, q, hplaced⟩ := hexpression e he
    exact hplaced.1.trueIn (htrue expressionTokens_faithful hts)

/-- An operand is missing behind line feeds, the second of them in a string. -/
theorem Environment.locations_true_line_feeds :
    let source : Text := "\n\x7b\x7b 'a\nb' + \x7d\x7d"
    withLoopControls.IsBuiltin ∧ ∃ d, withLoopControls.readTemplate none source = .error (.reported d) ∧
      d.location = some ⟨3, 6, 12⟩ ∧ d.Found source none (withLoopControls.tokens none source) := by
  intro source
  have hread := withLoopControls.readTemplate_of_counted none source (fun
    | .error (.reported d) => decide (d.location = some ⟨3, 6, 12⟩)
    | _ => false) (by decide +kernel)
  clear_value source
  cases hd : withLoopControls.readTemplate none source with
  | ok doc => rw [hd] at hread; cases hread
  | error e =>
    rw [hd] at hread
    cases e with
    | fault f => cases hread
    | reported d =>
      refine ⟨withLoopControls_isBuiltin, d, rfl, of_decide_eq_true hread, ?_⟩
      exact (withLoopControls.locations_true withLoopControls_isBuiltin none source).2.2.2.2.1 d hd

end Stencil
