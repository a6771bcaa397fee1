/-
The rules for operators, primary expressions, tuples, lists and dictionaries: what they read can be derived,
if that holds of the rules inside them (`Grammar.Sound`). Each proof takes the success of its rule apart, look
by look and rule by rule, and arrives at one of the constructors of `Derives`.
-/
import Stencil.Proofs.Derivation.Basic
import Stencil.Proofs.Derivation.Outcome

namespace Stencil

/-- The trees of a sort are expressions or parts of them. -/
def Phrase.isExpression : Phrase → Bool
  | expr | exprs | pairs | operands | arguments => true
  | _ => false

/-- The grammar reads only expressions that can be derived. -/
def Grammar.Sound (g : Grammar) (s : Stream) : Prop :=
  ∀ ⦃p : Phrase⦄, p.isExpression = true → ∀ ⦃r : Rule p⦄ ⦃pos : Nat⦄ ⦃t : p.Tree⦄ ⦃q : Nat⦄,
    g r s pos = .ok t q → Derives s r pos t q

namespace Grammar

open Stencil.Parser

variable {g : Grammar} {s : Stream} {pos q : Nat} {e : Expr}

namespace Sound

theorem expr (hg : g.Sound s) {r : Rule .expr} (h : g r s pos = .ok e q) : Derives s r pos e q := hg rfl h

theorem exprs (hg : g.Sound s) {r : Rule .exprs} {es : List Expr} (h : g r s pos = .ok es q) :
    Derives s r pos es q := hg rfl h

end Sound

/-! ## Conditional expressions -/

theorem expression_derives (hg : g.Sound s) {conditional : Bool} (h : expression g conditional s pos = .ok e q) :
    Derives s (.expression conditional) pos e q := by
  cases conditional with
  | true => exact .conditional (hg.expr h)
  | false => exact .unconditional (hg.expr h)

theorem cond_derives (hg : g.Sound s) (h : cond g s pos = .ok e q) : Derives s .cond pos e q := by
  unfold cond at h
  obtain ⟨value, p, hvalue, hrest⟩ := bind_eq_ok.1 h
  exact .cond (hg.expr hvalue) (hg.expr hrest)

theorem condRest_derives (hg : g.Sound s) {value : Expr} (h : condRest g value s pos = .ok e q) :
    Derives s (.condRest value) pos e q := by
  unfold condRest at h
  obtain ⟨hif, h⟩ | ⟨hif, h⟩ := checkKeyword_eq_ok.1 h
  · rw [advance_bind_of hif nofun] at h
    obtain ⟨test, p, htest, h⟩ := bind_eq_ok.1 h
    obtain ⟨helse, h⟩ := expectKeyword_eq_ok.1 h
    obtain ⟨other, p', hother, hrest⟩ := bind_eq_ok.1 h
    exact .condMore hif (hg.expr htest) helse (hg.expr hother) (hg.expr hrest)
  · obtain ⟨rfl, rfl⟩ := pure_eq_ok.1 h
    exact .condEnd hif

/-! ## Operators -/

theorem binary_derives (hg : g.Sound s) {op : BinaryOp} (h : binary g op s pos = .ok e q) :
    Derives s (.binary op) pos e q := by
  unfold binary at h
  obtain ⟨left, p, hleft, hrest⟩ := bind_eq_ok.1 h
  exact .binary (hg.expr hleft) (hg.expr hrest)

theorem operatorKind_ne (op : BinaryOp) : operatorKind op ≠ .eof := by cases op <;> nofun

theorem binaryRest_derives (hg : g.Sound s) {op : BinaryOp} {left : Expr} (h : binaryRest g op left s pos = .ok e q) :
    Derives s (.binaryRest op left) pos e q := by
  unfold binaryRest at h
  obtain ⟨hop, h⟩ | ⟨hop, h⟩ := check_eq_ok.1 h
  · rw [List.mem_singleton] at hop
    rw [advance_bind_of hop (operatorKind_ne op)] at h
    obtain ⟨right, p, hright, hrest⟩ := bind_eq_ok.1 h
    exact .binaryMore hop (hg.expr hright) (hg.expr hrest)
  · obtain ⟨rfl, rfl⟩ := pure_eq_ok.1 h
    exact .binaryEnd fun hk => hop (List.mem_singleton.2 hk)

theorem compare_derives (hg : g.Sound s) (h : compare g s pos = .ok e q) : Derives s .compare pos e q := by
  unfold compare at h
  obtain ⟨first, p, hfirst, h⟩ := bind_eq_ok.1 h
  obtain ⟨operands, q', hrest, h⟩ := bind_eq_ok.1 h
  have hrest : Derives s .compareRest p operands q' := hg rfl hrest
  obtain ⟨hnil, h⟩ | ⟨hne, h⟩ := ite_eq_ok.1 h
  · obtain ⟨rfl, rfl⟩ := pure_eq_ok.1 h
    rw [List.isEmpty_iff] at hnil
    subst hnil
    exact .compareOne (hg.expr hfirst) hrest
  · rw [previousEnd_bind] at h
    obtain ⟨rfl, rfl⟩ := pure_eq_ok.1 h
    exact .compareMany (hg.expr hfirst) hrest fun hnil => hne (List.isEmpty_iff.2 hnil)

/-- The operator of a comparison is read over, or nothing is read where no comparison goes on. -/
theorem comparisonOp_ok {o : Option CompareOp} {p : Nat} (h : comparisonOp s pos = .ok o p) :
    (o = none ∧ p = pos ∧ ∀ op p, ¬s.Compares pos op p) ∨ ∃ op, o = some op ∧ s.Compares pos op p := by
  unfold comparisonOp at h
  rw [current_bind] at h
  generalize hop : comparison? (s.get pos).kind = o' at h
  cases o' with
  | some op =>
    have hne : (s.get pos).kind ≠ .eof := fun hk => by rw [hk] at hop; cases hop
    simp only [advance_bind hne] at h
    obtain ⟨rfl, rfl⟩ := pure_eq_ok.1 h
    exact .inr ⟨op, rfl, .one hop⟩
  | none =>
    simp only [peek_bind, Stream.ahead_one] at h
    obtain ⟨⟨hnot, hin⟩, h⟩ | ⟨hnot, h⟩ := ite_eq_ok.1 h
    · rw [skip_two_bind (by rw [hnot]; nofun) (by rw [hin]; nofun)] at h
      obtain ⟨rfl, rfl⟩ := pure_eq_ok.1 h
      exact .inr ⟨.notIn, rfl, .notIn hnot hin⟩
    · obtain ⟨rfl, rfl⟩ := pure_eq_ok.1 h
      refine .inl ⟨rfl, rfl, fun op p hc => ?_⟩
      cases hc with
      | one hone => rw [hop] at hone; cases hone
      | notIn hn hi => exact hnot ⟨hn, hi⟩

theorem compareRest_derives (hg : g.Sound s) {os : List Operand} (h : compareRest g s pos = .ok os q) :
    Derives s .compareRest pos os q := by
  unfold compareRest at h
  rw [current_bind] at h
  obtain ⟨o, p, hop, h⟩ := bind_eq_ok.1 h
  obtain ⟨rfl, rfl, hend⟩ | ⟨op, rfl, hcompares⟩ := comparisonOp_ok hop
  · obtain ⟨rfl, rfl⟩ := pure_eq_ok.1 h
    exact .operandEnd hend
  · obtain ⟨operand, p', hoperand, h⟩ := bind_eq_ok.1 h
    obtain ⟨rest, q', hrest, h⟩ := bind_eq_ok.1 h
    obtain ⟨rfl, rfl⟩ := pure_eq_ok.1 h
    exact .operandMore hcompares (hg.expr hoperand) (hg rfl hrest)

theorem unary_derives (hg : g.Sound s) (h : unary g s pos = .ok e q) : Derives s .unary pos e q := by
  unfold unary at h
  rw [current_bind] at h
  generalize hop : unaryOp? (s.get pos).kind = o at h
  cases o with
  | none => exact .unaryEnd hop (hg.expr h)
  | some op =>
    have hne : (s.get pos).kind ≠ .eof := fun hk => by rw [hk] at hop; cases hop
    simp only [advance_bind hne] at h
    obtain ⟨operand, p, hoperand, h⟩ := bind_eq_ok.1 h
    obtain ⟨rfl, rfl⟩ := pure_eq_ok.1 h
    exact .unaryMore hop (hg.expr hoperand)

/-! ## Primary expressions -/

theorem integer_eq_ok {t : Token} : integer t s pos = .ok e q ↔
    (Constant.ofInteger? t.value).map (.const · t.span) = some e ∧ pos = q := by
  unfold integer
  cases Constant.ofInteger? t.value with
  | none => simp [faultWith_ne_ok]
  | some c => simp [pure_eq_ok]

theorem atom_derives (hg : g.Sound s) (h : atom g s pos = .ok e q) : Derives s (.primary false) pos e q := by
  unfold atom at h
  rw [current_bind] at h
  generalize hk : (s.get pos).kind = k at h
  split at h
  case h_1 =>
    rw [advance_bind_of hk nofun] at h
    obtain ⟨rfl, rfl⟩ := pure_eq_ok.1 h
    exact .literal (by rw [Token.literal?, hk])
  case h_2 =>
    rw [advance_bind_of hk nofun] at h
    obtain ⟨he, rfl⟩ := integer_eq_ok.1 h
    exact .literal (by rw [Token.literal?, hk]; exact he)
  case h_3 =>
    rw [advance_bind_of hk nofun] at h
    obtain ⟨rfl, rfl⟩ := pure_eq_ok.1 h
    exact .literal (by rw [Token.literal?, hk])
  case h_4 =>
    rw [advance_bind_of hk nofun] at h
    obtain ⟨rfl, rfl⟩ := pure_eq_ok.1 h
    exact .literal (by rw [Token.literal?, hk])
  case h_5 =>
    rw [advance_bind_of hk nofun] at h
    obtain ⟨inner, p, hinner, h⟩ := bind_eq_ok.1 h
    obtain ⟨hclose, h⟩ := expectSymbol_eq_ok.1 h
    rw [previousEnd_bind] at h
    obtain ⟨rfl, rfl⟩ := pure_eq_ok.1 h
    exact .parens hk (hg.expr hinner) hclose
  case h_6 => exact .bracket hk (hg.expr h)
  case h_7 => exact .brace hk (hg.expr h)
  case h_8 => exact (report_ne_ok.1 h).elim

theorem primary_derives (hg : g.Sound s) {withSuffixes : Bool} (h : primary g withSuffixes s pos = .ok e q) :
    Derives s (.primary withSuffixes) pos e q := by
  unfold primary at h
  obtain ⟨e', p, hatom, h⟩ := bind_eq_ok.1 h
  have hatom := atom_derives hg hatom
  cases withSuffixes with
  | true => exact .suffixed hatom (hg.expr h)
  | false =>
    obtain ⟨rfl, rfl⟩ := pure_eq_ok.1 h
    exact hatom

/-! ## Tuples -/

theorem tupleItem_derives (hg : g.Sound s) {item : TupleItem} (h : tupleItem g item s pos = .ok e q) :
    Derives s item.rule pos e q := by
  cases item <;> exact hg.expr h

theorem tuple_derives (hg : g.Sound s) {item : TupleItem} (h : tuple g item s pos = .ok e q) :
    Derives s (.tuple item) pos e q := by
  unfold tuple at h
  rw [current_bind] at h
  obtain ⟨hend, h⟩ | ⟨hmore, h⟩ := check_eq_ok.1 h
  · obtain ⟨rfl, rfl⟩ := pure_eq_ok.1 h
    exact .tupleNone hend
  · obtain ⟨first, p, hfirst, h⟩ := bind_eq_ok.1 h
    have hfirst := tupleItem_derives hg hfirst
    obtain ⟨hcomma, h⟩ | ⟨hcomma, h⟩ := checkSymbol_eq_ok.1 h
    · obtain ⟨rest, p', hrest, h⟩ := bind_eq_ok.1 h
      rw [previousEnd_bind] at h
      obtain ⟨rfl, rfl⟩ := pure_eq_ok.1 h
      exact .tupleMany hmore hfirst hcomma (hg.exprs hrest)
    · obtain ⟨rfl, rfl⟩ := pure_eq_ok.1 h
      exact .tupleOne hmore hfirst hcomma

theorem tupleRest_derives (hg : g.Sound s) {item : TupleItem} {es : List Expr} (h : tupleRest g item s pos = .ok es q) :
    Derives s (.tupleRest item) pos es q := by
  unfold tupleRest at h
  obtain ⟨hcomma, h⟩ := expectSymbol_eq_ok.1 h
  obtain ⟨hend, h⟩ | ⟨hmore, h⟩ := check_eq_ok.1 h
  · obtain ⟨rfl, rfl⟩ := pure_eq_ok.1 h
    exact .tupleEnd hcomma hend
  · obtain ⟨first, p, hfirst, h⟩ := bind_eq_ok.1 h
    have hfirst := tupleItem_derives hg hfirst
    obtain ⟨hnext, h⟩ | ⟨hnext, h⟩ := checkSymbol_eq_ok.1 h
    · obtain ⟨rest, p', hrest, h⟩ := bind_eq_ok.1 h
      obtain ⟨rfl, rfl⟩ := pure_eq_ok.1 h
      exact .tupleMore hcomma hmore hfirst hnext (hg.exprs hrest)
    · obtain ⟨rfl, rfl⟩ := pure_eq_ok.1 h
      exact .tupleLast hcomma hmore hfirst hnext

/-! ## Lists and dictionaries -/

theorem list_derives (hg : g.Sound s) (h : list g s pos = .ok e q) : Derives s .list pos e q := by
  unfold list at h
  obtain ⟨hopen, h⟩ := expectSymbol_eq_ok.1 h
  obtain ⟨items, p, hitems, h⟩ := bind_eq_ok.1 h
  obtain ⟨hclose, h⟩ := expectSymbol_eq_ok.1 h
  rw [previousEnd_bind] at h
  obtain ⟨rfl, rfl⟩ := pure_eq_ok.1 h
  exact .list hopen (hg.exprs hitems) hclose

theorem listItems_derives (hg : g.Sound s) {first : Bool} {es : List Expr} (h : listItems g first s pos = .ok es q) :
    Derives s (.listItems first) pos es q := by
  unfold listItems at h
  obtain ⟨hend, h⟩ | ⟨-, h⟩ := checkSymbol_eq_ok.1 h
  · obtain ⟨rfl, rfl⟩ := pure_eq_ok.1 h
    exact .listEnd (.inl rfl) hend
  · obtain ⟨p, hp, h⟩ := enters_of_ok h
    obtain ⟨hend, h⟩ | ⟨-, h⟩ := checkSymbol_eq_ok.1 h
    · obtain ⟨rfl, rfl⟩ := pure_eq_ok.1 h
      exact .listEnd (.inr hp) hend
    · obtain ⟨item, p', hitem, h⟩ := bind_eq_ok.1 h
      obtain ⟨rest, q', hrest, h⟩ := bind_eq_ok.1 h
      obtain ⟨rfl, rfl⟩ := pure_eq_ok.1 h
      exact .listMore hp (hg.expr hitem) (hg.exprs hrest)

theorem dict_derives (hg : g.Sound s) (h : dict g s pos = .ok e q) : Derives s .dict pos e q := by
  unfold dict at h
  obtain ⟨hopen, h⟩ := expectSymbol_eq_ok.1 h
  obtain ⟨items, p, hitems, h⟩ := bind_eq_ok.1 h
  obtain ⟨hclose, h⟩ := expectSymbol_eq_ok.1 h
  rw [previousEnd_bind] at h
  obtain ⟨rfl, rfl⟩ := pure_eq_ok.1 h
  exact .dict hopen (hg rfl hitems) hclose

theorem dictItems_derives (hg : g.Sound s) {first : Bool} {ps : List Pair} (h : dictItems g first s pos = .ok ps q) :
    Derives s (.dictItems first) pos ps q := by
  unfold dictItems at h
  obtain ⟨hend, h⟩ | ⟨-, h⟩ := checkSymbol_eq_ok.1 h
  · obtain ⟨rfl, rfl⟩ := pure_eq_ok.1 h
    exact .dictEnd (.inl rfl) hend
  · obtain ⟨p, hp, h⟩ := enters_of_ok h
    obtain ⟨hend, h⟩ | ⟨-, h⟩ := checkSymbol_eq_ok.1 h
    · obtain ⟨rfl, rfl⟩ := pure_eq_ok.1 h
      exact .dictEnd (.inr hp) hend
    · obtain ⟨key, p', hkey, h⟩ := bind_eq_ok.1 h
      obtain ⟨hcolon, h⟩ := expectSymbol_eq_ok.1 h
      obtain ⟨value, p'', hvalue, h⟩ := bind_eq_ok.1 h
      obtain ⟨rest, q', hrest, h⟩ := bind_eq_ok.1 h
      obtain ⟨rfl, rfl⟩ := pure_eq_ok.1 h
      exact .dictMore hp (hg.expr hkey) hcolon (hg.expr hvalue) (hg rfl hrest)

/-! ## Printed expressions -/

theorem printItems_derives (hg : g.Sound s) {first : Bool} {es : List Expr} (h : printItems g first s pos = .ok es q) :
    Derives s (.printItems first) pos es q := by
  unfold printItems at h
  obtain ⟨hend, h⟩ | ⟨hmore, h⟩ := check_eq_ok.1 h
  · obtain ⟨rfl, rfl⟩ := pure_eq_ok.1 h
    exact .printEnd hend
  · obtain ⟨p, hp, h⟩ := enters_of_ok h
    obtain ⟨item, p', hitem, h⟩ := bind_eq_ok.1 h
    obtain ⟨rest, q', hrest, h⟩ := bind_eq_ok.1 h
    obtain ⟨rfl, rfl⟩ := pure_eq_ok.1 h
    exact .printMore hmore hp (hg.expr hitem) (hg.exprs hrest)

end Grammar
end Stencil
