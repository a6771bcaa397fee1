/-
Expressions stand in order. A rule turns nodes that stand in order before its position into nodes that stand in order
up to its end (`Arranges`); for a derivation this is shown rule by rule.
-/
import Stencil.Proofs.Derivation.Advance
import Stencil.Proofs.Order.Basic

namespace Stencil

open Grammar Node

/-! ## Rules -/

/-- The nodes of what is read. A list of branches amounts to an else body whose conditionals end at a place. -/
def Phrase.nodes (stop : Location) : (p : Phrase) → p.Tree → List Node
  | .expr, e => [.expr e]
  | .exprs, es => ofExprs es
  | .pairs, ps => ps.map pair
  | .operands, os => os.map operand
  | .arguments, args => ofArguments args
  | .signature, g => g.sourceNodes
  | .stmt, st => [.stmt st]
  | .splice, sp => ofStmts sp.toList
  | .body, ss => ofStmts ss
  | .branches, bs => ofStmts (nestBranches stop bs)
  | .names, _ => []
  | .template, t => ofStmts t.body

/-- The nodes that a rule has been given. -/
def Rule.given : {p : Phrase} → Rule p → List Node
  | _, .condRest e | _, .binaryRest _ e | _, .suffixes e | _, .subscript e | _, .call e | _, .filter e
  | _, .filterRest e | _, .test e | _, .assign e => [.expr e]
  | _, .filterChain input | _, .singleFilter input => ofOption input
  | _, .argumentsRest _ args => ofArguments args
  | _, .content _ pending => ofExprs pending
  | _, .signatureRest sofar => sofar.sourceNodes
  | _, _ => []

/-- Behind nodes in order that the rule has been given it reads nodes in order. -/
def Arranges (s : Stream) {p : Phrase} (r : Rule p) (pos : Nat) (t : p.Tree) (q : Nat) : Prop :=
  ∀ a stop, Row s a (2 * pos) r.given → Row s a (2 * q) (p.nodes stop t)

namespace Arranges

variable {s : Stream} {pos p q a : Nat}

/-- What a rule reads by itself stands from its position on, and from every one before. -/
theorem row_from {ph : Phrase} {r : Rule ph} {t : ph.Tree} (h : Arranges s r pos t q) (stop : Location)
    (hr : r.given = []) (hle : p ≤ pos) : Row s (2 * p) (2 * q) (ph.nodes stop t) :=
  h _ stop (by rw [hr]; exact .nil (Nat.mul_le_mul_left 2 hle))

theorem row {ph : Phrase} {r : Rule ph} {t : ph.Tree} (h : Arranges s r pos t q) (stop : Location) (hr : r.given = []) :
    Row s (2 * pos) (2 * q) (ph.nodes stop t) := h.row_from stop hr (Nat.le_refl pos)

theorem expr_from {r : Rule .expr} {e : Expr} (h : Arranges s r pos e q) (hr : r.given = []) (hle : p ≤ pos) :
    (Node.expr e).Ordered s (2 * p) (2 * q) := (h.row_from .origin hr hle).ordered

theorem expr {r : Rule .expr} {e : Expr} (h : Arranges s r pos e q) (hr : r.given = []) :
    (Node.expr e).Ordered s (2 * pos) (2 * q) := h.expr_from hr (Nat.le_refl pos)

/-- What a rule reads behind an expression stands where that begins. -/
theorem behind {r : Rule .expr} {e e' : Expr} (h : Arranges s r pos e' q) (hr : r.given = [.expr e])
    (he : (Node.expr e).Ordered s a (2 * pos)) : (Node.expr e').Ordered s a (2 * q) :=
  (h a .origin (by rw [hr]; exact .single he)).ordered

theorem of_ordered {r : Rule .expr} {e : Expr} (hr : r.given = [])
    (h : (Node.expr e).Ordered s (2 * pos) (2 * q)) : Arranges s r pos e q := by
  intro a stop hgiven
  rw [hr] at hgiven
  exact .single (h.mono hgiven.le (Nat.le_refl _))

end Arranges

/-! ## Single tokens -/

section

variable {s : Stream} {pos p q : Nat} {e : Expr}

/-- A node without children that begins with a token. -/
theorem Node.Ordered.leaf {n : Node} (hw : n.Written s) (hstart : n.span.start = (s.get pos).span.start)
    (h : n.sourceChildren = []) : n.Ordered s (2 * pos) (2 * (pos + 1)) :=
  .of_token hw hstart (by rw [h]; exact .nil (by omega))

theorem Token.Denotes.ordered {c : Constant} (h : (s.get pos).Denotes c) :
    (Node.expr (.const c (s.get pos).span)).Ordered s (2 * pos) (2 * (pos + 1)) := .leaf (.inr ⟨pos, h⟩) rfl rfl

theorem Token.literal?_ordered (h : (s.get pos).literal? = some e) :
    (Node.expr e).Ordered s (2 * pos) (2 * (pos + 1)) := by
  have hconst {c : Constant} (hc : (s.get pos).Denotes c) := hc.ordered
  unfold Token.literal? at h
  unfold Token.Denotes at hconst
  generalize (s.get pos).kind = k at h hconst
  split at h
  · cases h
    unfold nameExpr
    split
    · rename_i c hc
      exact hconst hc
    · exact .leaf trivial rfl rfl
  · obtain ⟨c, hc, rfl⟩ := Option.map_eq_some_iff.1 h
    exact hconst hc
  · cases h
    exact hconst rfl
  · cases h
    exact hconst rfl
  · cases h

theorem Token.attribute?_ordered (h : (s.get pos).attribute? = some e) :
    (Node.expr e).Ordered s (2 * pos) (2 * (pos + 1)) := by
  have hconst {c : Constant} (hc : (s.get pos).Denotes c) := hc.ordered
  unfold Token.attribute? at h
  unfold Token.Denotes at hconst
  generalize (s.get pos).kind = k at h hconst
  split at h
  · cases h
    exact .leaf (.inl ⟨_, rfl⟩) rfl rfl
  · obtain ⟨c, hc, rfl⟩ := Option.map_eq_some_iff.1 h
    exact hconst hc
  · cases h

/-! ## Parts of rules -/

theorem TupleItem.rule_given (item : TupleItem) : item.rule.given = [] := by cases item <;> rfl

theorem operandRule_given (op : BinaryOp) : (operandRule op).given = [] := by cases op <;> rfl

theorem suffixRule?_given {k : TokenKind} {r : Rule .expr} (h : suffixRule? e k = some r) : r.given = [.expr e] := by
  unfold suffixRule? at h
  split at h <;> cases h <;> rfl

/-! ## Arguments, which grow at their end -/

theorem Node.ofArguments_mk (es : List Expr) (ks : List KeywordArg) (o o' : Option Expr) :
    ofArguments (.mk es ks o o') = ofExprs es ++ ks.map keyword ++ ofOption o ++ ofOption o' := rfl

theorem Node.ofArguments_positional (es : List Expr) (e : Expr) :
    ofArguments (.mk (es ++ [e]) [] none none) = ofArguments (.mk es [] none none) ++ [.expr e] := by
  simp [ofArguments_mk, ofExprs, ofOption]

theorem Node.ofArguments_keyword (es : List Expr) (ks : List KeywordArg) (k : KeywordArg) :
    ofArguments (.mk es (ks ++ [k]) none none) = ofArguments (.mk es ks none none) ++ [.keyword k] := by
  simp [ofArguments_mk, ofExprs, ofOption]

theorem Node.ofArguments_spread (es : List Expr) (ks : List KeywordArg) (e : Expr) :
    ofArguments (.mk es ks (some e) none) = ofArguments (.mk es ks none none) ++ [.expr e] := by
  simp [ofArguments_mk, ofExprs, ofOption]

theorem Node.ofArguments_keywordSpread (es : List Expr) (ks : List KeywordArg) (o : Option Expr) (e : Expr) :
    ofArguments (.mk es ks o (some e)) = ofArguments (.mk es ks o none) ++ [.expr e] := by
  simp [ofArguments_mk, ofExprs, ofOption]

/-! ## Expressions that rules put together -/

/-- Parentheses around a tuple are a part of it. -/
theorem withParens_ordered {b : Nat} {span : Span} (hstart : span.start = (s.get pos).span.start)
    (h : (Node.expr e).Ordered s (2 * (pos + 1)) b) : (Node.expr (withParens e span)).Ordered s (2 * pos) b := by
  cases e with
  | tuple items u sp =>
    cases h with
    | mk _ _ ha h => exact .of_token trivial hstart (h.mono (by omega) (Nat.le_refl _))
  | _ => exact h.mono (by omega) (Nat.le_refl _)

/-- The index between brackets, of which the first one stands at the position. -/
theorem bracketed_ordered {stop : Location} {es : List Expr} {b : Nat} (h : Row s (2 * (pos + 1)) b (ofExprs es)) :
    (Node.expr (bracketed (s.get pos) stop es)).Ordered s (2 * pos) b := by
  rcases es with _ | ⟨e, _ | ⟨e', es⟩⟩
  · have hle := h.le
    exact .mk trivial (s.edge_finish pos).symm (by omega) (.nil (by omega))
  · exact h.ordered.mono (by omega) (Nat.le_refl _)
  · cases h with
    | cons he h =>
      obtain ⟨x, hx, ha, he⟩ := he.start
      exact .mk trivial hx (by omega) (.cons he h)

/-- A test stands where its subject begins, and so does the `not` of a negated one, which begins at the word `is`. -/
theorem testExpr_ordered {negated : Bool} {subject : Expr} {name : Text} {args : Arguments} {stop : Location}
    {a b : Nat} (hsubject : (Node.expr subject).Ordered s a (2 * pos)) (hargs : Row s (2 * pos) b (ofArguments args)) :
    (Node.expr (testExpr negated (s.get pos).span.start subject name args stop)).Ordered s a b := by
  have hpositive : (Node.expr (.test subject name args ⟨subject.span.start, stop⟩)).Ordered s a b :=
    .of_first hsubject rfl rfl hargs
  cases negated with
  | false => exact hpositive
  | true => exact .negated (s.edge_start pos).symm hsubject.le hargs.le hpositive

end

/-! ## Derivations -/

theorem Derives.arranges {s : Stream} {ph : Phrase} {r : Rule ph} {pos q : Nat} {t : ph.Tree}
    (h : Derives s r pos t q) : Arranges s r pos t q := by
  induction h with
  | conditional _ ih | unconditional _ ih | bracket _ _ ih | brace _ _ ih | unaryEnd _ _ ih | plain _ _ ih => exact ih
  | condEnd | binaryEnd | suffixEnd | filterNone | filterEnd => exact fun _ _ h => h
  | cond _ _ ihv ihr | suffixed _ _ ihv ihr | filterChain _ _ ihv ihr =>
    exact fun a stop h => ihr a stop (ihv a stop h)
  -- operators
  | condMore _ _ _ _ _ iht iho ihr =>
    intro a stop h
    refine ihr a stop (.single (.of_first h.ordered rfl rfl ?_))
    exact .cons (iht.expr_from rfl (Nat.le_succ _)) (.single (iho.expr_from rfl (Nat.le_succ _)))
  | @binary op _ _ _ _ _ _ _ ihl ihr =>
    intro a stop h
    refine ihr a stop (ihl a stop ?_)
    rw [operandRule_given]
    exact h
  | binaryMore _ _ _ ih ihr =>
    intro a stop h
    refine ihr a stop (.single (.of_first h.ordered rfl rfl (.single ?_)))
    exact ih.expr_from (operandRule_given _) (Nat.le_succ _)
  | compareOne _ hr ih ihr =>
    intro a stop h
    exact .single ((ih a stop h).ordered.mono (Nat.le_refl _) (ihr.row stop rfl).le)
  | compareMany _ _ _ ih ihr =>
    exact fun a stop h => .single (.of_first (ih a stop h).ordered rfl rfl (ihr.row stop rfl))
  | operandEnd => exact fun _ _ h => .nil h.le
  | operandMore ho _ _ ih ihr =>
    intro a stop h
    have hoperand := ih.expr_from rfl (Nat.le_of_lt ho.lt)
    exact .cons (.of_token_from h.le trivial rfl (.single hoperand)) (ihr.row stop rfl)
  | unaryMore _ _ ih =>
    exact .of_ordered rfl (.of_token trivial rfl (.single (ih.expr_from rfl (Nat.le_succ _))))
  -- primary expressions
  | literal hl => exact .of_ordered rfl (Token.literal?_ordered hl)
  | parens _ _ _ ih => exact .of_ordered rfl (withParens_ordered rfl ((ih.expr rfl).mono (Nat.le_refl _) (by omega)))
  | tupleNone => exact .of_ordered rfl (.of_token trivial rfl (.nil (Nat.le_refl _)))
  | @tupleOne item _ _ _ _ _ _ ih => exact .of_ordered rfl (ih.expr item.rule_given)
  | @tupleMany item _ _ _ _ _ _ _ _ _ ih ihr =>
    exact .of_ordered rfl (.of_token trivial rfl (.cons (ih.expr item.rule_given) (ihr.row .origin rfl)))
  | tupleEnd => exact fun _ _ h => .nil (Nat.le_trans h.le (by omega))
  | @tupleLast item _ _ _ _ _ _ _ ih =>
    exact fun a stop h => .single ((ih.expr_from item.rule_given (Nat.le_succ _)).mono h.le (Nat.le_refl _))
  | @tupleMore item _ _ _ _ _ _ _ _ _ _ ih ihr =>
    intro a stop h
    exact .cons ((ih.expr_from item.rule_given (Nat.le_succ _)).mono h.le (Nat.le_refl _)) (ihr.row stop rfl)
  | list _ _ _ ih | dict _ _ _ ih =>
    have hitems := ih.row_from .origin rfl (Nat.le_succ _)
    exact .of_ordered rfl (.of_token trivial rfl (hitems.mono (Nat.le_refl _) (by omega)))
  | listEnd hp | dictEnd hp =>
    intro a stop h
    refine .nil (Nat.le_trans h.le (Nat.mul_le_mul_left 2 ?_))
    exact hp.elim (fun h => Nat.le_of_eq h.symm) Stream.Enters.le
  | listMore hp _ _ ih ihr | printMore _ hp _ _ ih ihr | indexMore _ hp _ _ ih ihr =>
    intro a stop h
    exact .cons ((ih.expr_from rfl hp.le).mono h.le (Nat.le_refl _)) (ihr.row stop rfl)
  | dictMore hp _ _ _ _ ihk ihv ihr =>
    intro a stop h
    have hkey := (ihk.expr_from rfl hp.le).mono h.le (Nat.le_refl _)
    have hvalue := ihv.expr_from rfl (Nat.le_succ _)
    exact .cons (.of_first hkey rfl rfl (.single hvalue)) (ihr.row stop rfl)
  | printEnd | indexEnd => exact fun _ _ h => .nil h.le
  -- subscripts
  | suffixMore hk _ _ ih ihs =>
    intro a stop h
    exact ihs a stop (.single (ih.behind (suffixRule?_given hk) h.ordered))
  | dot _ hl =>
    intro a stop h
    refine .single (.of_first h.ordered rfl rfl (.single ?_))
    exact (Token.attribute?_ordered hl).mono (by omega) (Nat.le_refl _)
  | index _ _ _ ih =>
    intro a stop h
    refine .single (.of_first h.ordered rfl rfl (.single (bracketed_ordered ?_)))
    exact (ih.row .origin rfl).mono (Nat.le_refl _) (by omega)
  | @slice pos p q r t start stop step _ hstart' _ _ hstop' hr _ hstep' ihstart ihstop ihstep =>
    have hcolon : r = q ∨ r = q + 1 := hr.imp And.left And.right
    have hfirst : Row s (2 * pos) (2 * p) (ofOption start) := .option hstart' fun e he => (ihstart e he).expr rfl
    have hsecond : Row s (2 * (p + 1)) (2 * q) (ofOption stop) := .option hstop' fun e he => (ihstop e he).expr rfl
    have hthird : Row s (2 * r) (2 * t) (ofOption step) := .option hstep' fun e he => (ihstep e he).expr rfl
    refine .of_ordered rfl (.of_token trivial rfl ((hfirst.append (hsecond.mono ?_ ?_)).append hthird))
    · exact Nat.mul_le_mul_left 2 (Nat.le_succ p)
    · omega
  -- arguments
  | call _ ih =>
    exact fun a stop h => .single (.of_first h.ordered rfl rfl (ih.row stop rfl))
  | «arguments» _ _ _ ih =>
    intro a stop h
    refine (ih a stop (.nil ?_)).mono (Nat.le_refl _) (by omega)
    exact Nat.le_trans h.le (by omega)
  | argumentEnd hp =>
    intro a stop h
    refine h.mono (Nat.le_refl _) (Nat.mul_le_mul_left 2 ?_)
    exact hp.elim (fun h => Nat.le_of_eq h.symm) fun h => h.2.le
  | positional hp _ _ ih ihr =>
    intro a stop h
    have he := ih.expr_from rfl hp.le
    refine ihr a stop ?_
    rw [Rule.given, ofArguments_positional]
    exact Row.snoc h he
  | keyword hp _ _ _ _ ih ihr =>
    intro a stop h
    have he := ih.expr_from rfl (Nat.le_add_right _ 2)
    refine ihr a stop ?_
    rw [Rule.given, ofArguments_keyword]
    exact Row.snoc h (.of_token_from (Nat.mul_le_mul_left 2 hp.le) trivial rfl (.single he))
  | spread hp _ _ _ ih ihr =>
    intro a stop h
    have he := ih.expr_from rfl (Nat.le_succ_of_le hp.le)
    refine ihr a stop ?_
    rw [Rule.given, ofArguments_spread]
    exact Row.snoc h he
  | keywordSpread hp _ _ _ ih ihr =>
    intro a stop h
    have he := ih.expr_from rfl (Nat.le_succ_of_le hp.le)
    refine ihr a stop ?_
    rw [Rule.given, ofArguments_keywordSpread]
    exact Row.snoc h he
  -- filters and tests
  | filterSome _ _ ih =>
    exact fun a stop h => ih a stop (h.mono (Nat.le_refl _) (by omega))
  | filterMore _ _ _ ih ihr =>
    intro a stop h
    exact ihr a stop (ih a stop (h.mono (Nat.le_refl _) (by omega)))
  | @singleFilter input pos args q _ _ h' ih =>
    intro a stop h
    have hargs : Row s (2 * pos) (2 * q) (ofArguments args) := by
      by_cases ho : (s.get (pos + 1)).kind = .symbol .openParen
      · exact (ih ho).row_from stop rfl (Nat.le_succ _)
      · obtain ⟨rfl, rfl⟩ := h' ho
        exact .nil (by omega)
    cases input with
    | none => exact .single (.of_token_from h.le trivial rfl hargs)
    | some e => exact .single (.of_first h.ordered rfl rfl hargs)
  | testPlain hi _ _ =>
    intro a stop h
    exact .single (testExpr_ordered h.ordered (.nil (Nat.mul_le_mul_left 2 (Nat.le_succ_of_le (Nat.le_of_lt hi.lt)))))
  | testParens hi _ _ _ ih =>
    intro a stop h
    exact .single (testExpr_ordered h.ordered (ih.row_from stop rfl (Nat.le_succ_of_le (Nat.le_of_lt hi.lt))))
  | testArgument hi _ _ _ ih =>
    intro a stop h
    have he := ih.expr_from rfl (Nat.le_succ_of_le (Nat.le_of_lt hi.lt))
    exact .single (testExpr_ordered h.ordered (.single he))

end Stencil
