/-
The extent of expressions. Each rule for expressions reads one whose span covers the tokens that are read, up to the
parentheses of groups at both ends (`run_spans`); so an expression that stands alone covers its source up to them
(`expression_spanned`).
-/
import Stencil.Proofs.Context.Depth
import Stencil.Proofs.Derivation.Advance
import Stencil.Proofs.Leaves.Inside
import Stencil.Proofs.Span.Group

namespace Stencil

/-! ## Tokens -/

/-- An expression that one token writes spans this token. -/
theorem Token.literal_encloses {t : Token} {e : Expr} (h : t.literal? = some e) :
    e.span = t.span ∧ e.isEnclosed = true := by
  unfold literal? at h
  split at h
  · cases h
    unfold Grammar.nameExpr
    split <;> exact ⟨rfl, rfl⟩
  · obtain ⟨c, -, rfl⟩ := Option.map_eq_some_iff.1 h
    exact ⟨rfl, rfl⟩
  · cases h
    exact ⟨rfl, rfl⟩
  · cases h
    exact ⟨rfl, rfl⟩
  · cases h

theorem Grammar.operatorKind_not_mem (op : BinaryOp) : operatorKind op ∉ operandEnds := by
  cases op <;> decide

theorem Grammar.unaryOp_not_mem {k : TokenKind} {op : UnaryOp} (h : unaryOp? k = some op) : k ∉ operandEnds := by
  rintro hk
  unfold operandEnds at hk
  simp only [List.mem_cons, List.not_mem_nil, or_false] at hk
  rcases hk with rfl | rfl | rfl | rfl | rfl | rfl | rfl <;> cases h

/-! ## Rules -/

/-- What a rule has read from a position up to another one is spanned by the tokens there; a rule that goes on from an
expression comes to one that is spanned from where that began. The empty tuple between parentheses has no tokens. -/
def Rule.Spans (g₀ : Grammar) (s : Stream) : Rule .expr → Nat → Expr → Nat → Prop
  | .condRest given, pos, e, q | .binaryRest _ given, pos, e, q | .suffixes given, pos, e, q
  | .subscript given, pos, e, q | .call given, pos, e, q | .filter given, pos, e, q | .filterRest given, pos, e, q
  | .test given, pos, e, q => ∀ a, given.Spanned g₀ s a pos → e.Spanned g₀ s a q
  | .filterChain input, pos, e, q | .singleFilter input, pos, e, q =>
    ∀ given a m, input = some given → given.Spanned g₀ s a m → m ≤ pos → e.Spanned g₀ s a q
  | .tuple _, pos, e, q =>
    s.Fresh pos → e.Spanned g₀ s pos q ∨ e.isTuple = true ∧ (s.get pos).kind ∈ Grammar.tupleEnds ∧ q = pos
  | .subscriptItem, _, _, _ => True
  | _, pos, e, q => s.Fresh pos → e.Spanned g₀ s pos q

namespace Grammar

open Stencil.Parser

/-- The rules of a grammar span what they read, and the tuples it reads are those of the whole grammar. -/
structure Spans (g g₀ : Grammar) (s : Stream) : Prop where
  sound : g.Sound s
  reads : ∀ ⦃pos e q⦄, g (.tuple (.expression true)) s pos = .ok e q → g₀ (.tuple (.expression true)) s pos = .ok e q
  spans : ∀ ⦃r : Rule .expr⦄ ⦃pos e q⦄, g r s pos = .ok e q → r.Spans g₀ s pos e q

variable {g₀ g : Grammar} {s : Stream} {pos a p q : Nat} {e given : Expr}

/-- The operands of an operator are expressions of their own. -/
theorem Spans.operand (hg : g.Spans g₀ s) {op : BinaryOp} (h : g (operandRule op) s pos = .ok e q)
    (hfresh : s.Fresh pos) : e.Spanned g₀ s pos q := by
  have h := hg.spans h
  cases op <;> exact h hfresh

/-! ## Operators -/

theorem expression_spans (hg : g.Spans g₀ s) {conditional : Bool} (h : expression g conditional s pos = .ok e q)
    (hfresh : s.Fresh pos) : e.Spanned g₀ s pos q := by
  cases conditional with
  | true => exact hg.spans h hfresh
  | false => exact hg.spans h hfresh

theorem cond_spans (hg : g.Spans g₀ s) (h : cond g s pos = .ok e q) (hfresh : s.Fresh pos) :
    e.Spanned g₀ s pos q := by
  unfold cond at h
  obtain ⟨value, p, hvalue, hrest⟩ := bind_eq_ok.1 h
  exact hg.spans hrest pos (hg.spans hvalue hfresh)

theorem condRest_spans (hg : g.Spans g₀ s) (h : condRest g given s pos = .ok e q) (hgiven : given.Spanned g₀ s a pos) :
    e.Spanned g₀ s a q := by
  unfold condRest at h
  obtain ⟨hif, h⟩ | ⟨-, h⟩ := checkKeyword_eq_ok.1 h
  · rw [advance_bind_of hif nofun] at h
    obtain ⟨test, p, htest, h⟩ := bind_eq_ok.1 h
    obtain ⟨helse, h⟩ := expectKeyword_eq_ok.1 h
    obtain ⟨other, p', hother, hrest⟩ := bind_eq_ok.1 h
    have hother : other.Spanned g₀ s (p + 1) p' := hg.spans hother (.succ helse (by decide))
    have hle : pos + 1 ≤ p := (hg.sound.expr htest).le
    exact hg.spans hrest a (hgiven.between hother (by omega) rfl rfl rfl)
  · obtain ⟨rfl, rfl⟩ := pure_eq_ok.1 h
    exact hgiven

theorem binary_spans (hg : g.Spans g₀ s) {op : BinaryOp} (h : binary g op s pos = .ok e q) (hfresh : s.Fresh pos) :
    e.Spanned g₀ s pos q := by
  unfold binary at h
  obtain ⟨left, p, hleft, hrest⟩ := bind_eq_ok.1 h
  exact hg.spans hrest pos (hg.operand hleft hfresh)

theorem binaryRest_spans (hg : g.Spans g₀ s) {op : BinaryOp} (h : binaryRest g op given s pos = .ok e q)
    (hgiven : given.Spanned g₀ s a pos) : e.Spanned g₀ s a q := by
  unfold binaryRest at h
  obtain ⟨hop, h⟩ | ⟨-, h⟩ := check_eq_ok.1 h
  · rw [List.mem_singleton] at hop
    rw [advance_bind_of hop (operatorKind_ne op)] at h
    obtain ⟨right, p, hright, hrest⟩ := bind_eq_ok.1 h
    have hright : right.Spanned g₀ s (pos + 1) p := hg.operand hright (.succ hop (operatorKind_not_mem op))
    exact hg.spans hrest a (hgiven.between hright (Nat.le_succ pos) rfl rfl rfl)
  · obtain ⟨rfl, rfl⟩ := pure_eq_ok.1 h
    exact hgiven

theorem compare_spans (hg : g.Spans g₀ s) (h : compare g s pos = .ok e q) (hfresh : s.Fresh pos) :
    e.Spanned g₀ s pos q := by
  unfold compare at h
  obtain ⟨first, p, hfirst, h⟩ := bind_eq_ok.1 h
  obtain ⟨operands, q', hrest, h⟩ := bind_eq_ok.1 h
  have hfirst : first.Spanned g₀ s pos p := hg.spans hfirst hfresh
  have hrest : Derives s .compareRest p operands q' := hg.sound rfl hrest
  obtain ⟨hnil, h⟩ | ⟨-, h⟩ := ite_eq_ok.1 h
  · obtain ⟨rfl, rfl⟩ := pure_eq_ok.1 h
    rw [List.isEmpty_iff] at hnil
    subst hnil
    cases hrest
    exact hfirst
  · rw [previousEnd_bind] at h
    obtain ⟨rfl, rfl⟩ := pure_eq_ok.1 h
    exact hfirst.behind hrest.le rfl rfl rfl

theorem unary_spans (hg : g.Spans g₀ s) (h : unary g s pos = .ok e q) (hfresh : s.Fresh pos) :
    e.Spanned g₀ s pos q := by
  unfold unary at h
  rw [current_bind] at h
  generalize hop : unaryOp? (s.get pos).kind = o at h
  cases o with
  | none => exact hg.spans h hfresh
  | some op =>
    have hne : (s.get pos).kind ≠ .eof := fun hk => by rw [hk] at hop; cases hop
    simp only [advance_bind hne] at h
    obtain ⟨operand, p, hoperand, h⟩ := bind_eq_ok.1 h
    obtain ⟨rfl, rfl⟩ := pure_eq_ok.1 h
    exact .before (hg.spans hoperand (.succ rfl (unaryOp_not_mem hop)))

/-! ## Primary expressions -/

theorem withParens_of_tuple {span : Span} (h : e.isTuple = true) : (withParens e span).span = span := by
  cases e <;> first | rfl | cases h

theorem isEnclosed_withParens {span : Span} (h : e.isTuple = true) : (withParens e span).isEnclosed = true := by
  cases e <;> first | rfl | cases h

theorem withParens_of_not_tuple {span : Span} (h : e.isTuple = false) : withParens e span = e := by
  cases e <;> first | rfl | cases h

/-- Parentheses belong to a tuple between them, and group any other expression. -/
theorem parens_spans (hg : g.Spans g₀ s) (hopen : (s.get pos).kind = .symbol .openParen)
    (h : g (.tuple (.expression true)) s (pos + 1) = .ok e p) (hclose : (s.get p).kind = .symbol .closeParen)
    (hfresh : s.Fresh pos) :
    (withParens e ⟨(s.get pos).span.start, s.endBefore (p + 1)⟩).Spanned g₀ s pos (p + 1) := by
  have hle : pos + 1 ≤ p := (hg.sound.expr h).le
  cases htuple : e.isTuple with
  | true => exact .whole (by omega) (withParens_of_tuple htuple) (isEnclosed_withParens htuple)
  | false =>
    rw [withParens_of_not_tuple htuple]
    obtain he | ⟨hno, -⟩ := hg.spans h (.succ hopen (by decide))
    · exact he.group ⟨hopen, hclose, hfresh, e, hg.reads h, htuple⟩ htuple
    · rw [htuple] at hno
      cases hno

theorem list_spanned (h : Derives s .list pos e q) : e.Spanned g s pos q := by
  cases h with
  | list _ hitems => exact .whole (Nat.lt_succ_of_lt hitems.le) rfl rfl

theorem dict_spanned (h : Derives s .dict pos e q) : e.Spanned g s pos q := by
  cases h with
  | dict _ hitems => exact .whole (Nat.lt_succ_of_lt hitems.le) rfl rfl

theorem atom_spans (hg : g.Spans g₀ s) (h : atom g s pos = .ok e q) (hfresh : s.Fresh pos) :
    e.Spanned g₀ s pos q := by
  by_cases hopen : (s.get pos).kind = .symbol .openParen
  · unfold atom at h
    rw [current_bind, hopen] at h
    simp only [advance_bind_of hopen nofun] at h
    obtain ⟨inner, p, hinner, h⟩ := bind_eq_ok.1 h
    obtain ⟨hclose, h⟩ := expectSymbol_eq_ok.1 h
    rw [previousEnd_bind] at h
    obtain ⟨rfl, rfl⟩ := pure_eq_ok.1 h
    exact parens_spans hg hopen hinner hclose hfresh
  · cases atom_derives hg.sound h with
    | literal hliteral =>
      obtain ⟨hspan, henclosed⟩ := Token.literal_encloses hliteral
      refine .whole (Nat.lt_succ_self pos) ?_ henclosed
      rw [s.endBefore_of_pos (Nat.succ_pos pos)]
      exact hspan
    | parens ho => exact absurd ho hopen
    | bracket _ hlist => exact list_spanned hlist
    | brace _ hdict => exact dict_spanned hdict

theorem primary_spans (hg : g.Spans g₀ s) {withSuffixes : Bool} (h : primary g withSuffixes s pos = .ok e q)
    (hfresh : s.Fresh pos) : e.Spanned g₀ s pos q := by
  unfold primary at h
  obtain ⟨e', p, hatom, h⟩ := bind_eq_ok.1 h
  have hatom := atom_spans hg hatom hfresh
  cases withSuffixes with
  | true => exact hg.spans h pos hatom
  | false =>
    obtain ⟨rfl, rfl⟩ := pure_eq_ok.1 h
    exact hatom

theorem tupleItem_spans (hg : g.Spans g₀ s) {item : TupleItem} (h : tupleItem g item s pos = .ok e q)
    (hfresh : s.Fresh pos) : e.Spanned g₀ s pos q := by
  cases item with
  | primary => exact hg.spans h hfresh
  | expression conditional => exact hg.spans h hfresh

theorem tuple_spans (hg : g.Spans g₀ s) {item : TupleItem} (h : tuple g item s pos = .ok e q)
    (hfresh : s.Fresh pos) :
    e.Spanned g₀ s pos q ∨ e.isTuple = true ∧ (s.get pos).kind ∈ tupleEnds ∧ q = pos := by
  unfold tuple at h
  rw [current_bind] at h
  obtain ⟨hk, h⟩ | ⟨-, h⟩ := check_eq_ok.1 h
  · obtain ⟨rfl, rfl⟩ := pure_eq_ok.1 h
    exact .inr ⟨rfl, hk, rfl⟩
  · obtain ⟨first, p, hfirst, h⟩ := bind_eq_ok.1 h
    have hfirst := tupleItem_spans hg hfirst hfresh
    obtain ⟨-, h⟩ | ⟨-, h⟩ := checkSymbol_eq_ok.1 h
    · obtain ⟨rest, p', hrest, h⟩ := bind_eq_ok.1 h
      rw [previousEnd_bind] at h
      obtain ⟨rfl, rfl⟩ := pure_eq_ok.1 h
      exact .inl (.whole (Nat.lt_of_lt_of_le hfirst.lt (hg.sound.exprs hrest).le) rfl rfl)
    · obtain ⟨rfl, rfl⟩ := pure_eq_ok.1 h
      exact .inl hfirst

/-! ## Suffixes -/

theorem suffixes_spans (hg : g.Spans g₀ s) (h : suffixes g given s pos = .ok e q)
    (hgiven : given.Spanned g₀ s a pos) : e.Spanned g₀ s a q := by
  unfold suffixes at h
  rw [current_bind] at h
  generalize (s.get pos).kind = k at h
  split at h
  case h_6 =>
    obtain ⟨rfl, rfl⟩ := pure_eq_ok.1 h
    exact hgiven
  all_goals
    obtain ⟨e', p, hsuffix, hrest⟩ := bind_eq_ok.1 h
    exact hg.spans hrest a (hg.spans hsuffix a hgiven)

theorem subscript_spans (hg : g.Spans g₀ s) (h : subscript g given s pos = .ok e q)
    (hgiven : given.Spanned g₀ s a pos) : e.Spanned g₀ s a q := by
  cases subscript_derives hg.sound h with
  | dot => exact hgiven.behind (Nat.le_add_right pos 2) rfl rfl rfl
  | index _ hitems => exact hgiven.behind (Nat.le_succ_of_le (Nat.le_of_succ_le hitems.le)) rfl rfl rfl

theorem call_spans (hg : g.Spans g₀ s) (h : call g given s pos = .ok e q) (hgiven : given.Spanned g₀ s a pos) :
    e.Spanned g₀ s a q := by
  cases call_derives hg.sound h with
  | call hargs => exact hgiven.behind hargs.le rfl rfl rfl

theorem filter_spans (hg : g.Spans g₀ s) (h : filter g given s pos = .ok e q) (hgiven : given.Spanned g₀ s a pos) :
    e.Spanned g₀ s a q := by
  unfold filter at h
  obtain ⟨hpipe, h⟩ | ⟨-, h⟩ := checkSymbol_eq_ok.1 h
  · rw [advance_bind_of hpipe nofun] at h
    exact hg.spans h given a pos rfl hgiven (Nat.le_succ pos)
  · obtain ⟨rfl, rfl⟩ := pure_eq_ok.1 h
    exact hgiven

theorem singleFilter_spans (hg : g.Spans g₀ s) (h : singleFilter g (some given) s pos = .ok e q)
    (hgiven : given.Spanned g₀ s a p) (hp : p ≤ pos) : e.Spanned g₀ s a q := by
  have hd := singleFilter_derives hg.sound h
  have hle := hd.le
  cases hd with
  | singleFilter => exact hgiven.behind (Nat.le_trans hp hle) rfl rfl rfl

theorem filterChain_spans (hg : g.Spans g₀ s) (h : filterChain g (some given) s pos = .ok e q)
    (hgiven : given.Spanned g₀ s a p) (hp : p ≤ pos) : e.Spanned g₀ s a q := by
  unfold filterChain at h
  obtain ⟨first, p', hfirst, hrest⟩ := bind_eq_ok.1 h
  exact hg.spans hrest a (hg.spans hfirst given a p rfl hgiven hp)

theorem filterRest_spans (hg : g.Spans g₀ s) (h : filterRest g given s pos = .ok e q)
    (hgiven : given.Spanned g₀ s a pos) : e.Spanned g₀ s a q := by
  unfold filterRest at h
  obtain ⟨hpipe, h⟩ | ⟨-, h⟩ := checkSymbol_eq_ok.1 h
  · rw [advance_bind_of hpipe nofun] at h
    obtain ⟨next, p, hnext, hrest⟩ := bind_eq_ok.1 h
    exact hg.spans hrest a (hg.spans hnext given a pos rfl hgiven (Nat.le_succ pos))
  · obtain ⟨rfl, rfl⟩ := pure_eq_ok.1 h
    exact hgiven

/-- A test begins with its subject; the `not` around a negated one begins behind it. -/
theorem testExpr_spans {negated : Bool} {name : Text} {args : Arguments} (hi : s.Tests pos negated p) (hp : p ≤ q)
    (hgiven : given.Spanned g₀ s a pos) :
    (testExpr negated (s.get pos).span.start given name args (s.endBefore q)).Spanned g₀ s a q := by
  have hlt := hi.lt
  cases hi with
  | plain => exact hgiven.behind (by omega) rfl rfl rfl
  | negated hi hn => exact .negated hi hn hgiven.lt (by omega)

theorem test_spans (hg : g.Spans g₀ s) (h : test g given s pos = .ok e q) (hgiven : given.Spanned g₀ s a pos) :
    e.Spanned g₀ s a q := by
  cases test_derives hg.sound h with
  | testPlain hi => exact testExpr_spans hi (Nat.le_succ _) hgiven
  | testParens hi _ _ hargs => exact testExpr_spans hi (Nat.le_of_succ_le hargs.le) hgiven
  | testArgument hi _ _ he => exact testExpr_spans hi (Nat.le_of_succ_le he.le) hgiven

/-! ## The whole grammar -/

/-- One step of the grammar spans what it reads, if the tuples that it reads are those of the whole grammar. -/
theorem step_spans (hg : g.Spans g₀ s) (find : Text → Option Extension) ⦃r : Rule .expr⦄ ⦃pos : Nat⦄ ⦃e : Expr⦄
    ⦃q : Nat⦄ (h : step find g r s pos = .ok e q) : r.Spans g₀ s pos e q := by
  cases r with
  | expression conditional => exact expression_spans hg h
  | cond => exact cond_spans hg h
  | condRest value => exact fun a => condRest_spans hg h
  | binary op => exact binary_spans hg h
  | binaryRest op left => exact fun a => binaryRest_spans hg h
  | compare => exact compare_spans hg h
  | unary => exact unary_spans hg h
  | primary withSuffixes => exact primary_spans hg h
  | tuple item => exact tuple_spans hg h
  | list => exact fun _ => list_spanned (list_derives hg.sound h)
  | dict => exact fun _ => dict_spanned (dict_derives hg.sound h)
  | suffixes given => exact fun a => suffixes_spans hg h
  | subscript given => exact fun a => subscript_spans hg h
  | subscriptItem => trivial
  | call given => exact fun a => call_spans hg h
  | filter given => exact fun a => filter_spans hg h
  | filterChain input =>
    rintro given a m rfl
    exact filterChain_spans hg h
  | filterRest given => exact fun a => filterRest_spans hg h
  | singleFilter input =>
    rintro given a m rfl
    exact singleFilter_spans hg h
  | test given => exact fun a => test_spans hg h

/-- The readings at every depth are spanned by the tokens; their groups are those of the whole grammar. -/
theorem run_spans (hlast : s.last.kind = .eof) (find : Text → Option Extension) (n : Nat) :
    (run find n).Spans (ofExtensions find) s := by
  have reads (n : Nat) ⦃pos : Nat⦄ ⦃e : Expr⦄ ⦃q : Nat⦄ (h : run find n (.tuple (.expression true)) s pos = .ok e q) :
      ofExtensions find (.tuple (.expression true)) s pos = .ok e q := (Gives.of_run hlast rfl h).grammar
  induction n with
  | zero => exact ⟨run_sound find s 0, reads 0, fun _ _ _ _ h => (faultWith_ne_ok.1 h).elim⟩
  | succ n ih => exact ⟨run_sound find s (n + 1), reads (n + 1), step_spans ih find⟩

theorem ofExtensions_spans {find : Text → Option Extension} (hlast : s.last.kind = .eof) {r : Rule .expr}
    (h : ofExtensions find r s pos = .ok e q) : r.Spans (ofExtensions find) s pos e q := by
  rw [ofExtensions_apply] at h
  exact (run_spans hlast find _).spans h

end Grammar

/-! ## Sources -/

namespace Environment

/-- The span of an expression that stands alone reaches over all tokens of its source, but for the parentheses of groups
at both ends and what stands before the word `is` of a negated test. -/
theorem expression_spanned (env : Environment) (filename : Option Text) (source : Text) {e : Expr}
    (h : env.readExpression filename source = .ok e) :
    ∃ (s : Stream) (n : Nat), env.expressionTokens filename source = .ok s.tokens.toList ∧ s.Closes n ∧
      e.Spanned env.grammar s 0 n := by
  obtain ⟨s, n, hts, hcloses, q, hread, hend⟩ := readExpression_reads h
  obtain rfl := hcloses.eq_end (Grammar.ofExtensions_sound _ s rfl hread) hend
  have hsize := hcloses.1
  have hlast : s.last.kind = .eof := by
    rw [← s.get_last]
    exact (hcloses.2 _).2 (by omega)
  refine ⟨s, q, hts, hcloses, ?_⟩
  obtain he | ⟨-, hk, rfl⟩ := Grammar.ofExtensions_spans hlast hread fun i hi => absurd hi (Nat.succ_ne_zero i).symm
  · exact he
  · -- the empty tuple does not stand before the end of a source
    rw [hend] at hk
    exact absurd hk (by decide)

/-- The inner one of two groups is a part of the sum that it begins, and neither is a part of its span. -/
theorem expression_spanned_groups :
    let source : Text := "((a) + b)"
    ∃ e, standard.readExpression none source = .ok e ∧ e.span = ⟨⟨1, 3, 2⟩, ⟨1, 9, 8⟩⟩ ∧
      ∃ (s : Stream) (n : Nat), standard.expressionTokens none source = .ok s.tokens.toList ∧ s.Closes n ∧
        e.Spanned standard.grammar s 0 n := by
  intro source
  have hread := standard.readExpression_of_counted none source (fun
    | .ok e => decide (e.span = ⟨⟨1, 3, 2⟩, ⟨1, 9, 8⟩⟩)
    | .error _ => false) (by decide +kernel)
  clear_value source
  cases he : standard.readExpression none source with
  | error e => rw [he] at hread; cases hread
  | ok e =>
    rw [he] at hread
    exact ⟨e, rfl, of_decide_eq_true hread, expression_spanned standard none source he⟩

/-- A sum that ends with a group does not end with the last token. -/
theorem group_sticks_out :
    ∃ e ts, standard.readExpression none "a + (b)" = .ok e ∧ standard.expressionTokens none "a + (b)" = .ok ts ∧
      ts.map (·.kind) = [.name, .symbol .plus, .symbol .openParen, .name, .symbol .closeParen, .eof] ∧
      (ts[0]?.map (·.span.start)) = some e.span.start ∧ ts[4]?.map (·.span.finish) ≠ some e.span.finish := by
  generalize hsource : Text.ofString "a + (b)" = source
  have hread := standard.expressionTokens_of_counted none source (fun scan =>
    match scan, standard.readTokens none standard.grammar.wholeExpression scan with
    | .ok ts, .ok e =>
      decide (ts.map (·.kind) = [.name, .symbol .plus, .symbol .openParen, .name, .symbol .closeParen, .eof] ∧
        (ts[0]?.map (·.span.start)) = some e.span.start ∧ ts[4]?.map (·.span.finish) ≠ some e.span.finish)
    | _, _ => false) (by subst hsource; decide +kernel)
  unfold readExpression
  generalize standard.expressionTokens none source = scan at hread ⊢
  generalize standard.readTokens none standard.grammar.wholeExpression scan = outcome at hread ⊢
  cases scan with
  | error e => cases hread
  | ok ts =>
    cases outcome with
    | error e => cases hread
    | ok e => exact ⟨e, ts, rfl, rfl, of_decide_eq_true hread⟩

end Environment
end Stencil
