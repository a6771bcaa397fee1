/-
Statements stand in order, and with them the whole tree: the children of every node follow each other in the source,
once they are taken as the source has them (`children_in_order`).
-/
import Stencil.Proofs.Derivation.Scanned
import Stencil.Proofs.Order.Expression
import Stencil.Proofs.Tree.Traversal

namespace Stencil

open Grammar Node

/-! ## Targets -/

namespace Expr

variable {s : Stream} {a b : Nat} {usage : Usage}

mutual

/-- A target stands in order where its expression does. -/
theorem toTarget_ordered (e : Expr) {t : Expr} (h : e.toTarget usage = some t) {a b : Nat}
    (he : (Node.expr e).Ordered s a b) : (Node.expr t).Ordered s a b := by
  cases e with
  | name n u sp =>
    simp only [toTarget] at h
    split at h <;> cases h
    cases he with
    | mk _ hstart ha h => exact .mk trivial hstart ha h
  | tuple items u sp =>
    simp only [toTarget, Option.map_eq_some_iff] at h
    obtain ⟨ts, hts, rfl⟩ := h
    cases he with
    | mk _ hstart ha h => exact .mk trivial hstart ha (toTargets_ordered items hts h)
  | subscript o i u sp =>
    cases h
    cases he with
    | mk _ hstart ha h => exact .mk trivial hstart ha h
  | _ => cases h

theorem toTargets_ordered (es : List Expr) {ts : List Expr} (h : toTargets usage es = some ts) {a b : Nat}
    (hes : Node.Row s a b (ofExprs es)) : Node.Row s a b (ofExprs ts) := by
  cases es with
  | nil => cases h; exact hes
  | cons e es =>
    simp only [toTargets] at h
    split at h
    · cases h
    · rename_i t ht
      simp only [Option.map_eq_some_iff] at h
      obtain ⟨ts, hts, rfl⟩ := h
      cases hes with
      | cons he hes => exact .cons (toTarget_ordered e ht he) (toTargets_ordered es hts hes)

end

end Expr

/-! ## Positions that move on -/

theorem Stream.le_next {s : Stream} (pos : Nat) : pos ≤ s.next pos := by
  unfold next
  split <;> omega

theorem Stream.Imports.le {s : Stream} {pos q : Nat} {n : ImportName} (h : s.Imports pos n q) : pos ≤ q := by
  cases h <;> omega

/-! ## Parts of rules -/

section

variable {s : Stream} {pos q a b : Nat}

/-- Data and interpolations that stand together. -/
theorem output_ordered {es : List Expr} (h : Node.Row s a b (ofExprs es)) : Node.Row s a b (ofStmts (output es)) := by
  cases es with
  | nil => exact .nil h.le
  | cons e es =>
    cases h with
    | cons he h => exact .single (.of_first he rfl rfl h)

theorem Token.pieces_ordered (pos : Nat) :
    Node.Row s (2 * pos) (2 * (pos + 1)) (ofExprs (s.get pos).pieces) := by
  unfold pieces
  split
  · exact .nil (by omega)
  · exact .single (.leaf (.inl ⟨_, rfl⟩) rfl rfl)

theorem statementRule?_given {k : Keyword} {r : Rule .stmt} (h : statementRule? k = some r) : r.given = [] := by
  cases k <;> simp only [statementRule?, Option.some.injEq, reduceCtorEq] at h <;> subst h <;> rfl

/-- The target, the iterable and the filter of a loop. -/
theorem Stream.HeadsLoop.row {reads : Reading}
    (hreads : ∀ ⦃p : Phrase⦄ ⦃r : Rule p⦄ ⦃pos t q⦄, reads r pos t q → Arranges s r pos t q)
    {t iter : Expr} {test : Option Expr} (h : s.HeadsLoop reads pos t iter test q) :
    Node.Row s (2 * pos) (2 * q) (.expr t :: .expr iter :: ofOption test) := by
  obtain ⟨_, ht, hs, _, hi, hf, hf'⟩ := h
  have htarget := Expr.toTarget_ordered _ hs ((hreads ht).expr_from rfl (Nat.le_succ _))
  refine .cons htarget (.cons ((hreads hi).expr_from rfl (Nat.le_succ _)) ?_)
  exact .option hf' fun e he => (hreads (hf e he).2).expr_from rfl (Nat.le_succ _)

end

/-! ## Derivations -/

namespace Arranges

variable {s : Stream} {pos p q a : Nat}

theorem of_stmt {r : Rule .stmt} {st : Stmt} (hr : r.given = []) (h : (Node.stmt st).Ordered s (2 * pos) (2 * q)) :
    Arranges s r pos st q := by
  intro a stop hgiven
  rw [hr] at hgiven
  exact .single (h.mono hgiven.le (Nat.le_refl _))

end Arranges

/-- What is composed of expressions that stand in order does so as well. -/
theorem Composes.arranges {s : Stream} {reads : Reading}
    (hreads : ∀ ⦃p : Phrase⦄ ⦃r : Rule p⦄ ⦃pos t q⦄, reads r pos t q → Arranges s r pos t q) {p : Phrase} {r : Rule p}
    {pos q : Nat} {t : p.Tree} (h : Composes s reads r pos t q) : Arranges s r pos t q := by
  induction h with
  | keyword _ hr _ ih =>
    intro a stop h
    exact (ih.row stop (statementRule?_given hr)).mono h.le (Nat.le_refl _)
  | simple h =>
    intro a stop hgiven
    have he := ((hreads h).expr rfl).mono hgiven.le (Nat.le_refl _)
    refine .single (.of_first he ?_ ?_ (.nil (Nat.le_refl _))) <;> rfl
  | assignment h _ ih =>
    intro a stop hgiven
    exact ih a stop (.single (((hreads h).expr rfl).mono hgiven.le (Nat.le_refl _)))
  | doStatement _ h =>
    intro a stop hgiven
    have he := (hreads h).expr_from rfl (Nat.le_succ _)
    exact .single (.of_token_from hgiven.le trivial rfl (.single he))
  | breakLoop | continueLoop =>
    exact fun a stop h => .single (.of_token_from h.le trivial rfl (.nil (Nat.mul_le_mul_left 2 (Nat.le_succ _))))
  | @assign target _ st _ _ _ ht h =>
    intro a stop hgiven
    have htarget := Expr.toTarget_ordered _ ht hgiven.ordered
    have hstart : target.span.start = st.span.start := by rw [Expr.toTarget_span ht]
    have hvalue := (hreads h).expr_from rfl (Nat.le_succ _)
    exact .single (.of_first htarget hstart rfl (.single hvalue))
  -- bodies
  | @statements ends dropEnd pos p body q hc _ _ _ ih =>
    intro a stop h
    have hle : q ≤ if dropEnd = true then s.next q else q := by
      split
      · exact Stream.le_next q
      · exact Nat.le_refl q
    refine (ih.row stop rfl).mono (Nat.le_trans h.le ?_) (Nat.mul_le_mul_left 2 hle)
    rcases hc with rfl | ⟨-, rfl⟩ <;> omega
  | data _ _ ih =>
    intro a stop h
    refine ih a stop ?_
    rw [Rule.given, ofExprs, List.map_append]
    exact Row.append h (Token.pieces_ordered _)
  | interpolation _ h _ _ ih =>
    intro a stop hgiven
    have he := (hreads h).expr_from rfl (Nat.le_succ _)
    refine ih a stop ?_
    rw [Rule.given, ofExprs, List.map_append]
    exact (Row.snoc hgiven he).mono (Nat.le_refl _) (by omega)
  | endTag => exact fun a stop h => (output_ordered h).mono (Nat.le_refl _) (by omega)
  | tag _ _ _ _ _ ih ihr =>
    intro a stop h
    have hsplice := ih.row_from stop rfl (Nat.le_succ _)
    have hrest := ihr.row_from stop rfl (Nat.le_succ _)
    rw [Phrase.nodes, ofStmts, List.map_append, List.map_append]
    exact ((output_ordered h).append hsplice).append hrest
  | sourceEnd => exact fun _ _ h => output_ordered h
  | template _ ih => exact ih
  -- loops and conditionals
  | loop hh _ _ ih =>
    refine .of_stmt rfl (.of_token trivial rfl ?_)
    exact ((hh.row hreads).append ((ih.row .origin rfl).mono (Nat.le_refl _) (by omega))).append (.nil (Nat.le_refl _))
  | loopElse hh _ _ _ ih ihe =>
    have helse := ihe.row_from .origin rfl (Nat.le_succ _)
    exact .of_stmt rfl (.of_token trivial rfl (((hh.row hreads).append (ih.row .origin rfl)).append helse))
  | conditional _ ht _ _ ih ihr =>
    have htest := (hreads ht).expr_from rfl (Nat.le_succ _)
    exact .of_stmt rfl (.of_token trivial rfl (.cons htest ((ih.row .origin rfl).append (ihr.row _ rfl))))
  | elifBranch _ ht _ _ ih ihr =>
    intro a stop h
    have htest := (hreads ht).expr_from rfl (Nat.le_succ _)
    exact .single (.of_token_from h.le trivial rfl (.cons htest ((ih.row stop rfl).append (ihr.row stop rfl))))
  | elseBranch _ _ ih =>
    exact fun a stop h => (ih.row_from stop rfl (Nat.le_succ _)).mono h.le (Nat.le_refl _)
  | noBranch => exact fun a stop h => .nil (Nat.le_trans h.le (Nat.mul_le_mul_left 2 (Stream.le_next _)))
  -- parts of templates
  | block _ _ _ ih =>
    exact .of_stmt rfl (.of_token trivial rfl (ih.row_from .origin rfl (Nat.le_add_right _ 2)))
  | extend _ h | embed _ h =>
    have he := (hreads h).expr_from rfl (Nat.le_succ _)
    exact .of_stmt rfl (.of_token trivial rfl (.single he))
  | importAs _ h _ _ =>
    have he := (hreads h).expr_from rfl (Nat.le_succ _)
    exact .of_stmt rfl (.of_token trivial rfl ((Row.single he).mono (Nat.le_refl _) (by omega)))
  | importNames _ h _ _ hq ih =>
    have he := (hreads h).expr_from rfl (Nat.le_succ _)
    have hnames := (ih.row .origin rfl).le
    refine .of_stmt rfl (.of_token trivial rfl ((Row.single he).mono (Nat.le_refl _) ?_))
    rcases hq with rfl | ⟨-, rfl⟩ <;> omega
  | nameNone hp _ => exact fun a stop h => .nil (Nat.le_trans h.le (Nat.mul_le_mul_left 2 hp.le))
  | nameLast hp hn _ =>
    exact fun a stop h => .nil (Nat.le_trans h.le (Nat.mul_le_mul_left 2 (Nat.le_trans hp.le hn.le)))
  | nameMore hp hn _ _ ih =>
    intro a stop h
    have hfirst := Nat.mul_le_mul_left 2 (Nat.le_trans hp.le hn.le)
    exact .nil (Nat.le_trans h.le (Nat.le_trans hfirst (ih.row stop rfl).le))
  | print _ h =>
    have hitems := (hreads h).row_from .origin rfl (Nat.le_succ _)
    exact .of_stmt rfl (.of_token trivial rfl hitems)
  -- macros and the blocks that call
  | signature _ _ _ ih =>
    exact fun a stop h => (ih a stop (.nil (Nat.le_trans h.le (by omega)))).mono (Nat.le_refl _) (by omega)
  | signatureEnd => exact fun _ _ h => h
  | required hp _ _ _ ih =>
    intro a stop h
    refine ih a stop ?_
    rw [Rule.given, Signature.sourceNodes_required]
    exact (h.mono (Nat.le_refl _) (Nat.mul_le_mul_left 2 hp.le)).snoc (.leaf trivial rfl rfl)
  | optional hp _ _ h _ ih =>
    intro a stop hgiven
    have he := (hreads h).expr_from rfl (Nat.le_succ _)
    refine ih a stop ?_
    rw [Rule.given, Signature.sourceNodes_optional]
    refine Row.snoc (Row.snoc ?_ (.leaf trivial rfl rfl)) he
    exact hgiven.mono (Nat.le_refl _) (Nat.mul_le_mul_left 2 hp.le)
  | define _ _ _ _ ihs ih =>
    have hsignature := ihs.row_from .origin rfl (Nat.le_add_right _ 2)
    exact .of_stmt rfl (.of_token trivial rfl (hsignature.append (ih.row .origin rfl)))
  | @callBlock pos sig p _ _ _ _ _ _ _ _ hs' he _ ihs ih =>
    have hsignature : Row s (2 * pos) (2 * p) sig.sourceNodes := by
      by_cases ho : (s.get (pos + 1)).kind = .symbol .openParen
      · exact (ihs ho).row_from .origin rfl (Nat.le_succ _)
      · obtain ⟨rfl, rfl⟩ := hs' ho
        exact .nil (by omega)
    exact .of_stmt rfl (.of_token trivial rfl (hsignature.append (.cons ((hreads he).expr rfl) (ih.row .origin rfl))))
  | filterBlock _ he _ ih =>
    have hfilter := (hreads he).expr_from rfl (Nat.le_succ _)
    exact .of_stmt rfl (.of_token trivial rfl (.cons hfilter (ih.row .origin rfl)))

theorem Composes.template_start {s : Stream} {reads : Reading} {pos q : Nat} {t : Template}
    (h : Composes s reads .template pos t q) : t.span.start = .origin := by
  cases h with
  | template => rfl

/-! ## Trees that are read -/

/-- The tree follows the source. The children of every node, taken as the source has them, begin one behind the other;
the node yields these children, and in this order unless it reorders them. Where no node does so and no test is
negated, a walk enters the nodes in the order in which they begin, and a search finds them in that order. -/
structure Node.FollowsSource (root : Node) : Prop where
  children : ∀ n ∈ root.descendants, n.sourceChildren.Pairwise Precedes ∧ n.sourceChildren.Perm n.children
  plain : ∀ n ∈ root.descendants, ¬n.Reorders → n.children.Pairwise Precedes
  walk : (∀ n ∈ root.descendants, ¬n.Reorders ∧ ¬n.IsNegatedTest) →
    ((root.walk none).filterMap Event.entered?).Pairwise Precedes ∧
      ∀ typeName, (root.findAll typeName).Pairwise Precedes

section

variable {s : Stream} {n : Node} {a b : Nat}

/-- A tree follows the source if the children of its nodes begin one behind the other, and all nodes do so where they
yield their children in the order of the source. -/
theorem Node.FollowsSource.of_pairwise (h : ∀ d ∈ n.descendants, d.sourceChildren.Pairwise Precedes)
    (hwalk : (∀ d ∈ n.descendants, ¬d.Reorders ∧ ¬d.IsNegatedTest) → n.descendants.Pairwise Precedes) :
    n.FollowsSource where
  children d hd := ⟨h d hd, sourceChildren_perm d⟩
  plain d hd hn := by
    rw [← sourceChildren_eq hn]
    exact h d hd
  walk hplain := by
    rw [walk_entered]
    exact ⟨hwalk hplain, fun _ => (hwalk hplain).filter _⟩

variable (hedge : ∀ m n, m ≤ n → (s.edge m).offset ≤ (s.edge n).offset)
include hedge

theorem Node.Ordered.sourceChildren_pairwise (h : n.Ordered s a b) : n.sourceChildren.Pairwise Precedes := by
  cases h with
  | mk _ _ _ h => exact h.pairwise hedge
  | negated => exact List.pairwise_singleton ..

theorem Node.Ordered.followsSource (h : n.Ordered s a b) : n.FollowsSource := by
  refine .of_pairwise (fun d hd => ?_) fun hplain => (h.walk hedge hplain).1
  obtain ⟨x, y, hd⟩ := h.of_mem_descendants hd
  exact hd.sourceChildren_pairwise hedge

/-- A template begins at the origin, before all its statements. -/
theorem Template.followsSource {t : Template} (hstart : t.span.start = .origin) (h : Node.Row s a b (ofStmts t.body)) :
    (Node.template t).FollowsSource := by
  refine .of_pairwise (fun d hd => ?_) fun hplain => ?_
  · rw [descendants_eq] at hd
    rcases List.mem_cons.1 hd with rfl | hd
    · exact h.pairwise hedge
    · obtain ⟨x, y, hd⟩ := h.of_mem_descendants hd
      exact hd.sourceChildren_pairwise hedge
  · rw [descendants_eq] at hplain ⊢
    refine .cons (fun d _ => ?_) (h.walk hedge (List.forall_mem_cons.1 hplain).2).1
    show t.span.start.offset ≤ d.span.start.offset
    rw [hstart]
    exact Nat.zero_le _

end

/-- The tree of a template, and of an expression that stands alone, follows the source. -/
theorem Environment.children_in_order (env : Environment) (hb : env.IsBuiltin) (filename : Option Text)
    (source : Text) :
    (∀ doc, env.readTemplate filename source = .ok doc → (Node.template doc.template).FollowsSource) ∧
      ∀ e, env.readExpression filename source = .ok e → (Node.expr e).FollowsSource := by
  constructor
  · intro doc hdoc
    obtain ⟨s, d, z, -, hlayout, q, h⟩ := readTemplate_composes hb hdoc
    have hbody := (h.arranges fun _ _ _ _ _ h => h.1.arranges).row .origin rfl
    exact Template.followsSource (fun _ _ => hlayout.edge_le) h.template_start hbody
  · intro e he
    obtain ⟨s, n, hts, -, q, h, -⟩ := readExpression_derives he
    obtain ⟨d, z, hlayout⟩ := expressionTokens_faithful.layout _ hts
    exact (h.arranges.expr rfl).followsSource fun _ _ => hlayout.edge_le

/-- A loop with a filter over a call with arguments of both sorts. -/
theorem Environment.children_in_order_loop :
    let source : Text := "{% for x in f(y, z=1) if x %}{{ x|g(2) }}{% endfor %}"
    withLoopControls.IsBuiltin ∧ ∃ doc, withLoopControls.readTemplate none source = .ok doc ∧
      (Node.template doc.template).descendants.length = 13 ∧ (Node.template doc.template).FollowsSource := by
  intro source
  have hread := withLoopControls.readTemplate_of_counted none source (fun
    | .ok t => (Node.template t).descendants.length == 13
    | .error _ => false) (by decide +kernel)
  clear_value source
  cases hdoc : withLoopControls.readTemplate none source with
  | error e => rw [hdoc] at hread; cases hread
  | ok doc =>
    rw [hdoc] at hread
    refine ⟨withLoopControls_isBuiltin, doc, rfl, of_decide_eq_true hread, ?_⟩
    exact (withLoopControls.children_in_order withLoopControls_isBuiltin none source).1 doc hdoc

/-- The expression is a conditional whose value begins before its test. -/
def Expr.hasValueFirst : Expr → Bool
  | .cond condition value _ _ => decide (value.span.start.offset < condition.span.start.offset)
  | _ => false

/-- The test of a conditional expression comes before its value, which begins before it. -/
theorem Environment.conditional_yields_test_first :
    ∃ e, Environment.standard.readExpression none "1 if b else 2" = .ok e ∧
      ¬(Node.expr e).children.Pairwise Node.Precedes := by
  generalize hsource : Text.ofString "1 if b else 2" = source
  have hread := Environment.standard.readExpression_of_counted none source (·.toOption.any Expr.hasValueFirst)
    (by subst hsource; decide +kernel)
  cases he : Environment.standard.readExpression none source with
  | error e => rw [he] at hread; cases hread
  | ok e =>
    rw [he] at hread
    cases e with
    | cond test value other span =>
      refine ⟨_, rfl, fun h => ?_⟩
      have hle : test.span.start.offset ≤ value.span.start.offset :=
        (List.pairwise_cons.1 h).1 _ (List.mem_cons_self ..)
      exact absurd hle (Nat.not_le.2 (of_decide_eq_true hread))
    | _ => cases hread

end Stencil
