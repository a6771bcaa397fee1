/-
The rules for what follows a primary expression, and the grammar as a whole: whatever it reads as an expression
or a part of one can be derived (`run_sound`).
-/
import Stencil.Grammar.Run
import Stencil.Proofs.Derivation.Expression

namespace Stencil.Grammar

open Stencil.Parser

variable {g : Grammar} {s : Stream} {pos q : Nat} {e : Expr}

theorem Sound.args (hg : g.Sound s) {r : Rule .arguments} {args : Arguments} (h : g r s pos = .ok args q) :
    Derives s r pos args q := hg rfl h

/-! ## Subscripts -/

theorem suffixes_derives (hg : g.Sound s) {object : Expr} (h : suffixes g object s pos = .ok e q) :
    Derives s (.suffixes object) pos e q := by
  have more {r : Rule .expr} (hr : suffixRule? object (s.get pos).kind = some r)
      (h : (g r >>= fun e => g (.suffixes e)) s pos = .ok e q) : Derives s (.suffixes object) pos e q := by
    obtain ⟨e', p, hsuffix, hrest⟩ := bind_eq_ok.1 h
    exact .suffixMore hr (hg.expr hsuffix) (hg.expr hrest)
  unfold suffixes at h
  rw [current_bind] at h
  generalize hk : (s.get pos).kind = k at h more
  split at h
  case h_6 hdot hbracket hparen hpipe his =>
    obtain ⟨rfl, rfl⟩ := pure_eq_ok.1 h
    refine .suffixEnd ?_
    rw [hk]
    unfold suffixRule?
    split
    · exact absurd rfl hdot
    · exact absurd rfl hbracket
    · exact absurd rfl hparen
    · exact absurd rfl hpipe
    · exact absurd rfl his
    · rfl
  all_goals exact more rfl h

theorem dotIndex_ok (h : dotIndex s pos = .ok e q) : (s.get pos).attribute? = some e ∧ q = pos + 1 := by
  unfold dotIndex at h
  rw [current_bind] at h
  unfold Token.attribute?
  generalize hk : (s.get pos).kind = k at h ⊢
  split at h
  · obtain ⟨index, p, hindex, h⟩ := bind_eq_ok.1 h
    obtain ⟨rfl, rfl⟩ := pure_eq_ok.1 hindex
    simp only [advance_bind_of hk nofun] at h
    obtain ⟨rfl, rfl⟩ := pure_eq_ok.1 h
    exact ⟨rfl, rfl⟩
  · obtain ⟨index, p, hindex, h⟩ := bind_eq_ok.1 h
    obtain ⟨hconstant, rfl⟩ := integer_eq_ok.1 hindex
    simp only [advance_bind_of hk nofun] at h
    obtain ⟨rfl, rfl⟩ := pure_eq_ok.1 h
    exact ⟨hconstant, rfl⟩
  · obtain ⟨index, p, hindex, -⟩ := bind_eq_ok.1 h
    exact (report_ne_ok.1 hindex).elim

/-- The index between brackets. -/
theorem bracketIndex_eq_ok {opened : Token} : bracketIndex g opened s pos = .ok e q ↔
    ∃ es p, g (.subscriptItems true) s pos = .ok es p ∧ (s.get p).kind = .symbol .closeBracket ∧ q = p + 1 ∧
      e = bracketed opened (s.endBefore p) es := by
  unfold bracketIndex
  rw [bind_eq_ok]
  constructor
  · rintro ⟨es, p, hitems, h⟩
    rw [previousEnd_bind] at h
    obtain ⟨hclose, h⟩ := expectSymbol_eq_ok.1 h
    refine ⟨es, p, hitems, hclose, ?_⟩
    match es with
    | [] | [_] | _ :: _ :: _ =>
      obtain ⟨rfl, rfl⟩ := pure_eq_ok.1 h
      exact ⟨rfl, rfl⟩
  · rintro ⟨es, p, hitems, hclose, rfl, rfl⟩
    refine ⟨es, p, hitems, ?_⟩
    rw [previousEnd_bind]
    refine expectSymbol_eq_ok.2 ⟨hclose, ?_⟩
    match es with
    | [] | [_] | _ :: _ :: _ => rfl

theorem subscript_derives (hg : g.Sound s) {object : Expr} (h : subscript g object s pos = .ok e q) :
    Derives s (.subscript object) pos e q := by
  unfold subscript at h
  rw [advance_bind_eq] at h
  generalize hk : (s.get pos).kind = k at h
  split at h
  · rw [Stream.next_of_ne (by rw [hk]; nofun)] at h
    obtain ⟨index, p, hindex, h⟩ := bind_eq_ok.1 h
    simp only [previousEnd_bind] at h
    obtain ⟨rfl, rfl⟩ := pure_eq_ok.1 h
    obtain ⟨hattribute, rfl⟩ := dotIndex_ok hindex
    exact .dot hk hattribute
  · rw [Stream.next_of_ne (by rw [hk]; nofun)] at h
    obtain ⟨index, p, hindex, h⟩ := bind_eq_ok.1 h
    simp only [previousEnd_bind] at h
    obtain ⟨rfl, rfl⟩ := pure_eq_ok.1 h
    obtain ⟨es, p, hitems, hclose, rfl, rfl⟩ := bracketIndex_eq_ok.1 hindex
    exact .index hk (hg.exprs hitems) hclose
  · obtain ⟨index, p, hindex, -⟩ := bind_eq_ok.1 h
    exact (faultWith_ne_ok.1 hindex).elim

theorem subscriptItems_derives (hg : g.Sound s) {first : Bool} {es : List Expr}
    (h : subscriptItems g first s pos = .ok es q) : Derives s (.subscriptItems first) pos es q := by
  unfold subscriptItems at h
  obtain ⟨hend, h⟩ | ⟨hmore, h⟩ := checkSymbol_eq_ok.1 h
  · obtain ⟨rfl, rfl⟩ := pure_eq_ok.1 h
    exact .indexEnd hend
  · obtain ⟨p, hp, h⟩ := enters_of_ok h
    obtain ⟨item, p', hitem, h⟩ := bind_eq_ok.1 h
    obtain ⟨rest, q', hrest, h⟩ := bind_eq_ok.1 h
    obtain ⟨rfl, rfl⟩ := pure_eq_ok.1 h
    exact .indexMore hmore hp (hg.expr hitem) (hg.exprs hrest)

/-- The step of a slice: the colon before it may be missing together with it. -/
theorem sliceStep_ok (hg : g.Sound s) {step : Option Expr} (h : sliceStep g s pos = .ok step q) :
    ∃ p, (p = pos ∧ step = none ∨ (s.get pos).kind = .symbol .colon ∧ p = pos + 1) ∧
      (∀ e, step = some e → Derives s (.expression true) p e q) ∧ (step = none → q = p) := by
  unfold sliceStep at h
  obtain ⟨hcolon, h⟩ | ⟨-, h⟩ := checkSymbol_eq_ok.1 h
  · rw [advance_bind_of hcolon nofun] at h
    refine ⟨pos + 1, .inr ⟨hcolon, rfl⟩, ?_⟩
    obtain ⟨-, h⟩ | ⟨-, h⟩ := check_eq_ok.1 h
    · obtain ⟨rfl, rfl⟩ := pure_eq_ok.1 h
      exact ⟨nofun, fun _ => rfl⟩
    · obtain ⟨e, p, he, h⟩ := bind_eq_ok.1 h
      obtain ⟨rfl, rfl⟩ := pure_eq_ok.1 h
      exact ⟨fun _ he' => Option.some.inj he' ▸ hg.expr he, nofun⟩
  · obtain ⟨rfl, rfl⟩ := pure_eq_ok.1 h
    exact ⟨pos, .inl ⟨rfl, rfl⟩, nofun, fun _ => rfl⟩

theorem sliceRest_derives (hg : g.Sound s) {p : Nat} (start : Option Expr)
    (hstart : ∀ e, start = some e → Derives s (.expression true) pos e p) (hstart' : start = none → p = pos)
    (hcolon : (s.get p).kind = .symbol .colon)
    (h : sliceRest g (s.get pos).span.start start s (p + 1) = .ok e q) : Derives s .subscriptItem pos e q := by
  unfold sliceRest at h
  have last (stop : Option Expr) {p' : Nat} (hstop : ∀ e, stop = some e → Derives s (.expression true) (p + 1) e p')
      (hstop' : stop = none → p' = p + 1)
      (h : (sliceStep g >>= fun step => previousEnd >>= fun finish =>
        (pure (.slice start stop step ⟨(s.get pos).span.start, finish⟩) : Parser Expr)) s p' = .ok e q) :
      Derives s .subscriptItem pos e q := by
    obtain ⟨step, q', hstep, h⟩ := bind_eq_ok.1 h
    rw [previousEnd_bind] at h
    obtain ⟨rfl, rfl⟩ := pure_eq_ok.1 h
    obtain ⟨r, hr, hstep, hstep'⟩ := sliceStep_ok hg hstep
    exact .slice hstart hstart' hcolon hstop hstop' hr hstep hstep'
  obtain ⟨-, h⟩ | ⟨-, h⟩ := check_eq_ok.1 h
  · exact last none nofun (fun _ => rfl) h
  · obtain ⟨stop, p', hstop, h⟩ := bind_eq_ok.1 h
    exact last (some stop) (fun _ he => Option.some.inj he ▸ hg.expr hstop) nofun h

theorem subscriptItem_derives (hg : g.Sound s) (h : subscriptItem g s pos = .ok e q) :
    Derives s .subscriptItem pos e q := by
  unfold subscriptItem at h
  rw [current_bind] at h
  obtain ⟨hcolon, h⟩ | ⟨-, h⟩ := checkSymbol_eq_ok.1 h
  · rw [advance_bind_of hcolon nofun] at h
    exact sliceRest_derives hg none nofun (fun _ => rfl) hcolon h
  · obtain ⟨e', p, he, h⟩ := bind_eq_ok.1 h
    have he := hg.expr he
    obtain ⟨hcolon, h⟩ | ⟨hcolon, h⟩ := checkSymbol_eq_ok.1 h
    · rw [advance_bind_of hcolon nofun] at h
      exact sliceRest_derives hg (some e') (fun _ hsome => Option.some.inj hsome ▸ he) nofun hcolon h
    · obtain ⟨rfl, rfl⟩ := pure_eq_ok.1 h
      exact .plain he hcolon

/-! ## Arguments -/

theorem call_derives (hg : g.Sound s) {callee : Expr} (h : call g callee s pos = .ok e q) :
    Derives s (.call callee) pos e q := by
  unfold call at h
  obtain ⟨args, p, hargs, h⟩ := bind_eq_ok.1 h
  rw [previousEnd_bind] at h
  obtain ⟨rfl, rfl⟩ := pure_eq_ok.1 h
  exact .call (hg.args hargs)

theorem arguments_derives (hg : g.Sound s) {args : Arguments} (h : Grammar.arguments g s pos = .ok args q) :
    Derives s .arguments pos args q := by
  unfold Grammar.arguments at h
  obtain ⟨hopen, h⟩ := expectSymbol_eq_ok.1 h
  obtain ⟨args', p, hargs, h⟩ := bind_eq_ok.1 h
  obtain ⟨hclose, h⟩ := expectSymbol_eq_ok.1 h
  obtain ⟨rfl, rfl⟩ := pure_eq_ok.1 h
  exact .arguments hopen (hg.args hargs) hclose

theorem ensureOrder_eq_ok {opened : Location} {valid : Bool} {f : Unit → Parser Arguments} {args : Arguments} :
    (ensureOrder opened valid >>= f) s pos = .ok args q ↔ valid = true ∧ f () s pos = .ok args q := by
  cases valid with
  | true => exact (and_iff_right rfl).symm
  | false => exact iff_of_false nofun fun h => nomatch h.1

/-- The next argument, behind those that have been read, and what follows it. -/
theorem argument_derives (hg : g.Sound s) {opened : Location} {args args' args'' : Arguments} {start p : Nat}
    (hp : s.Enters (noneRead args) start pos) (h : argument g opened args s pos = .ok args' p)
    (hrest : Derives s (.argumentsRest opened args') p args'' q) :
    Derives s (.argumentsRest opened args) start args'' q := by
  obtain ⟨positional, keywords, spread, keywordSpread⟩ := args
  unfold argument at h
  obtain ⟨hstar, h⟩ | ⟨-, h⟩ := checkSymbol_eq_ok.1 h
  · obtain ⟨horder, h⟩ := ensureOrder_eq_ok.1 h
    rw [advance_bind_of hstar nofun] at h
    obtain ⟨e, p', he, h⟩ := bind_eq_ok.1 h
    obtain ⟨rfl, rfl⟩ := pure_eq_ok.1 h
    simp only [Bool.and_eq_true, Option.isNone_iff_eq_none] at horder
    obtain ⟨rfl, rfl⟩ := horder
    exact .spread hp hstar (hg.expr he) hrest
  obtain ⟨hstars, h⟩ | ⟨-, h⟩ := checkSymbol_eq_ok.1 h
  · obtain ⟨horder, h⟩ := ensureOrder_eq_ok.1 h
    rw [advance_bind_of hstars nofun] at h
    obtain ⟨e, p', he, h⟩ := bind_eq_ok.1 h
    obtain ⟨rfl, rfl⟩ := pure_eq_ok.1 h
    rw [Option.isNone_iff_eq_none] at horder
    subst horder
    exact .keywordSpread hp hstars (hg.expr he) hrest
  obtain ⟨horder, h⟩ := ensureOrder_eq_ok.1 h
  simp only [Bool.and_eq_true, Option.isNone_iff_eq_none] at horder
  obtain ⟨rfl, rfl⟩ := horder
  rw [current_bind, peek_bind, Stream.ahead_one] at h
  obtain ⟨⟨hname, hassign⟩, h⟩ | ⟨-, h⟩ := ite_eq_ok.1 h
  · rw [skip_two_bind (by rw [hname]; nofun) (by rw [hassign]; nofun)] at h
    obtain ⟨e, p', he, h⟩ := bind_eq_ok.1 h
    obtain ⟨rfl, rfl⟩ := pure_eq_ok.1 h
    exact .keyword hp hname hassign (hg.expr he) hrest
  · obtain ⟨horder, h⟩ := ensureOrder_eq_ok.1 h
    obtain ⟨e, p', he, h⟩ := bind_eq_ok.1 h
    obtain ⟨rfl, rfl⟩ := pure_eq_ok.1 h
    rw [List.isEmpty_iff] at horder
    subst horder
    exact .positional hp (hg.expr he) hrest

theorem argumentsRest_derives (hg : g.Sound s) {opened : Location} {args args' : Arguments}
    (h : argumentsRest g opened args s pos = .ok args' q) : Derives s (.argumentsRest opened args) pos args' q := by
  unfold argumentsRest at h
  obtain ⟨hclose, h⟩ | ⟨-, h⟩ := checkSymbol_eq_ok.1 h
  · obtain ⟨rfl, rfl⟩ := pure_eq_ok.1 h
    exact .argumentEnd (.inl rfl) hclose
  · obtain ⟨p, hp, h⟩ := enters_of_ok h
    cases hnone : noneRead args with
    | true =>
      -- before the first argument the closing parenthesis is not looked for again
      simp only [hnone, Bool.not_true, Bool.false_and, Bool.false_eq_true, if_false] at h
      rw [checkSymbol, check_bind] at h
      obtain ⟨args'', p', hargument, hrest⟩ := bind_eq_ok.1 h
      exact argument_derives hg hp hargument (hg.args hrest)
    | false =>
      simp only [hnone, Bool.not_false, Bool.true_and] at h
      obtain ⟨hclose, h⟩ | ⟨-, h⟩ := checkSymbol_eq_ok.1 h
      · obtain ⟨rfl, rfl⟩ := pure_eq_ok.1 h
        exact .argumentEnd (.inr ⟨hnone, hnone ▸ hp⟩) hclose
      · obtain ⟨args'', p', hargument, hrest⟩ := bind_eq_ok.1 h
        exact argument_derives hg hp hargument (hg.args hrest)

/-! ## Filters and tests -/

theorem filter_derives (hg : g.Sound s) {input : Expr} (h : filter g input s pos = .ok e q) :
    Derives s (.filter input) pos e q := by
  unfold filter at h
  obtain ⟨hpipe, h⟩ | ⟨hpipe, h⟩ := checkSymbol_eq_ok.1 h
  · rw [advance_bind_of hpipe nofun] at h
    exact .filterSome hpipe (hg.expr h)
  · obtain ⟨rfl, rfl⟩ := pure_eq_ok.1 h
    exact .filterNone hpipe

theorem filterChain_derives (hg : g.Sound s) {input : Option Expr} (h : filterChain g input s pos = .ok e q) :
    Derives s (.filterChain input) pos e q := by
  unfold filterChain at h
  obtain ⟨first, p, hfirst, hrest⟩ := bind_eq_ok.1 h
  exact .filterChain (hg.expr hfirst) (hg.expr hrest)

theorem filterRest_derives (hg : g.Sound s) {input : Expr} (h : filterRest g input s pos = .ok e q) :
    Derives s (.filterRest input) pos e q := by
  unfold filterRest at h
  obtain ⟨hpipe, h⟩ | ⟨hpipe, h⟩ := checkSymbol_eq_ok.1 h
  · rw [advance_bind_of hpipe nofun] at h
    obtain ⟨next, p, hnext, hrest⟩ := bind_eq_ok.1 h
    exact .filterMore hpipe (hg.expr hnext) (hg.expr hrest)
  · obtain ⟨rfl, rfl⟩ := pure_eq_ok.1 h
    exact .filterEnd hpipe

theorem singleFilter_derives (hg : g.Sound s) {input : Option Expr} (h : singleFilter g input s pos = .ok e q) :
    Derives s (.singleFilter input) pos e q := by
  unfold singleFilter at h
  obtain ⟨hname, h⟩ := expect_name_eq_ok.1 h
  obtain ⟨args, p, hargs, h⟩ := bind_eq_ok.1 h
  rw [previousEnd_bind] at h
  unfold optionalArguments at hargs
  have hresult : e = .filter input (s.get pos).value args
      ⟨(input.map (·.span.start)).getD (s.get pos).span.start, s.endBefore p⟩ ∧ q = p := by
    cases input <;> obtain ⟨rfl, rfl⟩ := pure_eq_ok.1 h <;> exact ⟨rfl, rfl⟩
  obtain ⟨rfl, rfl⟩ := hresult
  obtain ⟨hopen, hargs⟩ | ⟨hopen, hargs⟩ := checkSymbol_eq_ok.1 hargs
  · exact .singleFilter hname (fun _ => hg.args hargs) fun hno => absurd hopen hno
  · obtain ⟨rfl, rfl⟩ := pure_eq_ok.1 hargs
    exact .singleFilter hname (fun hyes => absurd hyes hopen) fun _ => ⟨rfl, rfl⟩

/-- The name and the arguments of a test, behind the word `is` and the word `not` if there is one. -/
theorem testRest_derives (hg : g.Sound s) {subject : Expr} {negated : Bool} {p : Nat} (hi : s.Tests pos negated p)
    (h : (expect .name >>= fun name => testArguments g >>= fun args => previousEnd >>= fun stop =>
      (pure (testExpr negated (s.get pos).span.start subject name.value args stop) : Parser Expr)) s p = .ok e q) :
    Derives s (.test subject) pos e q := by
  obtain ⟨hname, h⟩ := expect_name_eq_ok.1 h
  obtain ⟨args, p', hargs, h⟩ := bind_eq_ok.1 h
  rw [previousEnd_bind] at h
  obtain ⟨rfl, rfl⟩ := pure_eq_ok.1 h
  unfold testArguments at hargs
  obtain ⟨hopen, hargs⟩ | ⟨hopen, hargs⟩ := checkSymbol_eq_ok.1 hargs
  · exact .testParens hi hname hopen (hg.args hargs)
  obtain ⟨hbare, hargs⟩ | ⟨hbare, hargs⟩ := check_eq_ok.1 hargs
  · obtain ⟨e, p', he, hargs⟩ := bind_eq_ok.1 hargs
    obtain ⟨rfl, rfl⟩ := pure_eq_ok.1 hargs
    exact .testArgument hi hname hbare (hg.expr he)
  · obtain ⟨rfl, rfl⟩ := pure_eq_ok.1 hargs
    exact .testPlain hi hname fun hmem => (List.mem_cons.1 hmem).elim hopen hbare

theorem test_derives (hg : g.Sound s) {subject : Expr} (h : test g subject s pos = .ok e q) :
    Derives s (.test subject) pos e q := by
  unfold test at h
  obtain ⟨his, h⟩ := expectKeyword_eq_ok.1 h
  rw [checkKeyword, check_bind] at h
  by_cases hnot : (s.get (pos + 1)).kind = .keyword .notOp
  · have hb : [TokenKind.keyword .notOp].contains (s.get (pos + 1)).kind = true := by rw [hnot]; rfl
    simp only [hb, if_true, advance_bind_of hnot (by decide)] at h
    exact testRest_derives hg (.negated his hnot) h
  · have hb : [TokenKind.keyword .notOp].contains (s.get (pos + 1)).kind = false := by
      rw [Bool.eq_false_iff, ne_eq, List.contains_iff_mem, List.mem_singleton]
      exact hnot
    simp only [hb, Bool.false_eq_true, if_false] at h
    exact testRest_derives hg (.plain his hnot) h

/-! ## The whole grammar -/

/-- One step of the grammar reads only what can be derived, whatever extensions there are. -/
theorem step_sound (hg : g.Sound s) (find : Text → Option Extension) : (step find g).Sound s := by
  intro p hp r pos t q h
  cases r with
  | expression conditional => exact expression_derives hg h
  | cond => exact cond_derives hg h
  | condRest value => exact condRest_derives hg h
  | binary op => exact binary_derives hg h
  | binaryRest op left => exact binaryRest_derives hg h
  | compare => exact compare_derives hg h
  | compareRest => exact compareRest_derives hg h
  | unary => exact unary_derives hg h
  | primary withSuffixes => exact primary_derives hg h
  | tuple item => exact tuple_derives hg h
  | tupleRest item => exact tupleRest_derives hg h
  | list => exact list_derives hg h
  | listItems first => exact listItems_derives hg h
  | dict => exact dict_derives hg h
  | dictItems first => exact dictItems_derives hg h
  | printItems first => exact printItems_derives hg h
  | suffixes e => exact suffixes_derives hg h
  | subscript object => exact subscript_derives hg h
  | subscriptItems first => exact subscriptItems_derives hg h
  | subscriptItem => exact subscriptItem_derives hg h
  | call callee => exact call_derives hg h
  | «arguments» => exact arguments_derives hg h
  | argumentsRest opened args => exact argumentsRest_derives hg h
  | filter input => exact filter_derives hg h
  | filterChain input => exact filterChain_derives hg h
  | filterRest e => exact filterRest_derives hg h
  | singleFilter input => exact singleFilter_derives hg h
  | test subject => exact test_derives hg h
  | _ => cases hp

theorem run_sound (find : Text → Option Extension) (s : Stream) (n : Nat) : (run find n).Sound s := by
  induction n with
  | zero => exact fun _ _ _ _ _ _ h => (faultWith_ne_ok.1 h).elim
  | succ n ih => exact step_sound ih find

theorem ofExtensions_sound (find : Text → Option Extension) (s : Stream) : (ofExtensions find).Sound s := by
  intro p hp r pos t q h
  rw [ofExtensions_apply] at h
  exact run_sound find s _ hp h

end Stencil.Grammar
