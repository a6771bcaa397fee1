/-
The word `if` behind an iterable. On the left an expression without a conditional at its top is read up to the end of
its tag; on the right the word `if` stands in the place of that end. The readings meet the edge alike
(`Parallel.Meets`), since the rules that may come to it ask for no `if` there: whatever asks for one is inside of
brackets, or is the argument of a test that has none, and a tuple asks whether its tag ends behind a comma only.
-/
import Stencil.Proofs.Context.Edge
import Stencil.Proofs.Writing.Reading

namespace Stencil

open Grammar

/-- An argument without parentheses begins at the position, behind the name of a test. -/
def Stream.BareArgument (s : Stream) (pos : Nat) : Prop :=
  ∃ i negated p, s.Tests i negated p ∧ (s.get p).kind = .name ∧ pos = p + 1 ∧ (s.get pos).kind ∈ bareArgumentStarts

namespace Parallel

variable {α β : Type} {m : Parallel}

variable (m) in
/-- Behind the horizon the tag ends on the left and a guard begins on the right, and no comma stands before it. -/
structure Guarded : Prop where
  tagEnd : (m.left.get (m.horizon + 1)).kind = .blockEnd
  guard : (m.right.get (m.horizon + 1 + m.offset)).kind = .keyword .ifTag
  noComma : (m.left.get m.horizon).kind ≠ .symbol .comma

/-- Where the tag ends no symbol can be expected. -/
theorem Guarded.expectSymbol_ne (hm : m.Guarded) {c : Symbol} {f : Token → Parser α} (a : α) (q : Nat) :
    (Parser.expectSymbol c >>= f) m.left (m.horizon + 1) ≠ .ok a q := by
  intro hok
  obtain ⟨hk, -⟩ := Parser.expectSymbol_eq_ok.1 hok
  rw [hm.tagEnd] at hk
  cases hk

variable {mv : α → α} {mv' : β → β} {x y z w : Parser α} {g g' : Token → Parser β} {pos : Nat}

namespace Meets

/-! ## Looking and moving -/

/-- The current token is the same on both sides, or the two have come to the edge. -/
theorem current (hm : m.Guarded) (h : m.Meets mv' (g (m.left.get pos)) (g' ((m.left.get pos).mapPlaces m.move)) pos)
    (hedge : pos = m.horizon + 1 → ∀ t t', t.kind = .blockEnd → t'.kind = .keyword .ifTag →
      m.Meets mv' (g t) (g' t') pos) :
    m.Meets mv' (Parser.current >>= g) (Parser.current >>= g') pos := by
  rcases Nat.lt_or_ge m.horizon pos with hlt | hle
  · intro b r hok
    refine ⟨(h hok).1, fun hr => ?_⟩
    obtain rfl : pos = m.horizon + 1 := by have := (h hok).1; omega
    exact (hedge rfl _ _ hm.tagEnd hm.guard hok).2 hr
  · exact .here hle h

/-- Kinds are asked for that tell the two sides of the edge not apart. -/
theorem checked (hm : m.Guarded) {ks : List TokenKind}
    (hks : pos = m.horizon + 1 → ks.contains (.keyword .ifTag) = ks.contains .blockEnd) {f f' : Bool → Parser β}
    (k : ∀ b, (b = true → (m.left.get pos).kind ∈ ks) → (b = false → (m.left.get pos).kind ∉ ks) →
      m.Meets mv' (f b) (f' b) pos) :
    m.Meets mv' (Parser.check ks >>= f) (Parser.check ks >>= f') pos := by
  refine .alike (fun hedge => ?_) k
  subst hedge
  rw [hm.tagEnd, hm.guard, hks rfl]

theorem check (hm : m.Guarded) {ks : List TokenKind}
    (hks : pos = m.horizon + 1 → ks.contains (.keyword .ifTag) = ks.contains .blockEnd)
    (ht : m.Meets mv x y pos) (he : m.Meets mv z w pos) :
    m.Meets mv (Parser.check ks >>= fun b => if b = true then x else z)
      (Parser.check ks >>= fun b => if b = true then y else w) pos :=
  checked hm hks fun _ _ _ => .ite Iff.rfl (fun _ => ht) fun _ => he

/-- The current token and the kind of the one behind it are asked for, the first of them not at the edge. -/
theorem pair (hm : m.Guarded) {k k' : TokenKind} (hk : (k, k') ∈ lookahead) {z z' w w' : Parser β}
    (ht : m.Meets mv' z z' pos) (he : m.Meets mv' w w' pos) :
    m.Meets mv'
      (Parser.peek 1 >>= fun next => if (m.left.get pos).kind = k ∧ next.kind = k' then z else w)
      (Parser.peek 1 >>= fun next => if (m.left.get pos).kind = k ∧ next.kind = k' then z' else w') pos := by
  intro b r hok
  rw [Parser.peek_bind, Stream.ahead_one] at hok
  rw [Parser.peek_bind, Stream.ahead_one]
  by_cases hhere : (m.left.get pos).kind = k
  · -- what stands behind the current token is the same on both sides, for the current one is not the edge
    have hsame (hle : pos ≤ m.horizon + 1) :
        (m.right.get (pos + m.offset + 1)).kind = k' ↔ (m.left.get (pos + 1)).kind = k' := by
      refine m.next pos (Nat.le_of_lt_succ (Nat.lt_of_le_of_ne hle ?_)) k k' hk hhere
      rintro rfl
      rw [← hhere, hm.tagEnd] at hk
      simp [lookahead] at hk
    obtain ⟨⟨-, hnext⟩, hok⟩ | ⟨hnot, hok⟩ := Parser.ite_eq_ok.1 hok
    · obtain ⟨hle, hy⟩ := ht hok
      refine ⟨hle, fun hr => ?_⟩
      rw [if_pos ⟨hhere, (hsame (Nat.le_trans hle hr)).2 hnext⟩]
      exact hy hr
    · obtain ⟨hle, hy⟩ := he hok
      refine ⟨hle, fun hr => ?_⟩
      rw [if_neg fun h => hnot ⟨hhere, (hsame (Nat.le_trans hle hr)).1 h.2⟩]
      exact hy hr
  · rw [if_neg fun h => hhere h.1] at hok
    rw [if_neg fun h => hhere h.1]
    exact he hok

theorem advance (hm : m.Guarded) : m.Meets (Token.mapPlaces m.move) Parser.advance Parser.advance pos := by
  intro t q hok
  have hright (hle : pos ≤ m.horizon) : Parser.advance m.right (pos + m.offset) =
      .ok ((m.left.get pos).mapPlaces m.move) (m.left.next pos + m.offset) := by
    unfold Parser.advance Stream.next
    simp only [m.same pos hle, Token.kind_mapPlaces]
    by_cases hk : (m.left.get pos).kind = .eof
    · rw [if_pos hk, if_pos hk]
    · rw [if_neg hk, if_neg hk, Nat.add_right_comm]
  obtain ⟨rfl, rfl⟩ : m.left.get pos = t ∧ m.left.next pos = q := Reply.ok.inj hok
  by_cases hk : (m.left.get pos).kind = .eof
  · rw [Stream.next, if_pos hk] at hright ⊢
    refine ⟨Nat.le_refl _, fun hle => hright (Nat.le_of_lt_succ (Nat.lt_of_le_of_ne hle ?_))⟩
    rintro rfl
    rw [hm.tagEnd] at hk
    cases hk
  · rw [Stream.next, if_neg hk] at hright ⊢
    exact ⟨Nat.le_succ _, fun hle => hright (Nat.le_of_succ_le_succ hle)⟩

end Meets
end Parallel

/-! ## Rules -/

/-- The rule asks for no `if`, whatever it comes to: no conditional expression stands at its end. -/
def Rule.isTight : {p : Phrase} → Rule p → Bool
  | _, .expression c => !c
  | _, .tupleRest item => item == .expression false
  | _, .binary _ | _, .binaryRest _ _ | _, .compare | _, .compareRest | _, .unary | _, .primary _ | _, .list
  | _, .dict | _, .suffixes _ | _, .subscript _ | _, .call _ | _, .arguments | _, .filter _ | _, .filterChain _
  | _, .filterRest _ | _, .singleFilter _ | _, .test _ => true
  | _, _ => false

/-- A grammar on the right meets the edge as a grammar on the left does, and carries on what it reads before it. -/
structure Parallel.MeetsRules (m : Parallel) (g g' : Grammar) : Prop where
  edge : m.Guarded
  carries : m.CarriesRules g g'
  /-- No argument of a test that has no parentheses comes to the edge. -/
  bare : ∀ pos e, m.left.BareArgument pos → g (.expression true) m.left pos ≠ .ok e (m.horizon + 1)
  meets : ∀ ⦃p : Phrase⦄ (r : Rule p) ⦃pos : Nat⦄, r.isTight = true →
    m.Meets (p.mapPlaces m.move) (g r) (g' (r.mapPlaces m.move)) pos

namespace Parallel.MeetsRules

variable {m : Parallel} {g g' : Grammar} {pos : Nat}

theorem expr (h : m.MeetsRules g g') {r r' : Rule .expr} (ht : r.isTight = true) (hr : r' = r.mapPlaces m.move) :
    m.Meets (Expr.mapPlaces m.move) (g r) (g' r') pos := by
  rw [hr]
  exact h.meets r ht

end Parallel.MeetsRules

namespace Grammar

open Parallel Stencil.Parser

variable {m : Parallel} {g g' : Grammar} {pos : Nat}

/-! ## Operators -/

theorem operand_meets (h : m.MeetsRules g g') (op : BinaryOp) :
    m.Meets (Expr.mapPlaces m.move) (g (operandRule op)) (g' (operandRule op)) pos := by
  cases op <;> exact h.expr rfl rfl

theorem binary_meets (h : m.MeetsRules g g') (op : BinaryOp) :
    m.Meets (Expr.mapPlaces m.move) (binary g op) (binary g' op) pos :=
  (operand_meets h op).bind fun left _ => h.meets (.binaryRest op left) rfl

theorem binaryRest_meets (h : m.MeetsRules g g') (op : BinaryOp) (left : Expr) :
    m.Meets (Expr.mapPlaces m.move) (binaryRest g op left) (binaryRest g' op (left.mapPlaces m.move)) pos := by
  unfold binaryRest
  refine .check h.edge (fun _ => by cases op <;> rfl) ?_ (.pure rfl)
  refine (Meets.advance h.edge).bind fun _ _ => (operand_meets h op).bind fun right _ => h.expr rfl ?_
  simp

theorem compare_meets (h : m.MeetsRules g g') : m.Meets (Expr.mapPlaces m.move) (compare g) (compare g') pos := by
  unfold compare
  refine (h.expr rfl rfl).bind fun first _ => (h.meets .compareRest rfl).bind fun operands _ => ?_
  refine .ite (by simp) (fun _ => .pure rfl) fun _ => Meets.previousEnd.bind fun stop _ => .pure ?_
  simp

/-- The end of a tag and a guard write no comparison. -/
theorem comparisonOp_edge (hm : m.Guarded) : comparisonOp m.left (m.horizon + 1) = .ok none (m.horizon + 1) ∧
    comparisonOp m.right (m.horizon + 1 + m.offset) = .ok none (m.horizon + 1 + m.offset) :=
  ⟨comparisonOp_eq_none (by rw [hm.tagEnd]; decide), comparisonOp_eq_none (by rw [hm.guard]; decide)⟩

theorem comparisonOp_meets (h : m.MeetsRules g g') (hpos : pos ≠ m.horizon + 1) :
    m.Meets id comparisonOp comparisonOp pos := by
  unfold comparisonOp
  refine .current h.edge ?_ fun hedge => absurd hedge hpos
  simp only [Token.kind_mapPlaces]
  split
  · exact (Meets.advance h.edge).bind fun _ _ => .pure rfl
  · refine .pair h.edge (by decide) ?_ (.pure rfl)
    exact ((Meets.advance h.edge).bind fun _ _ => Meets.advance h.edge).bind fun _ _ => .pure rfl

theorem compareRest_meets (h : m.MeetsRules g g') :
    m.Meets (List.map (Operand.mapPlaces m.move)) (compareRest g) (compareRest g') pos := by
  unfold compareRest
  by_cases hpos : pos = m.horizon + 1
  · subst hpos
    obtain ⟨hleft, hright⟩ := comparisonOp_edge h.edge
    refine .current h.edge ?_ fun _ _ _ _ _ => .known id hleft hright (.pure rfl)
    exact .known id hleft hright (.pure rfl)
  · refine .current h.edge ((comparisonOp_meets h hpos).bind fun op _ => ?_) fun hedge => absurd hedge hpos
    cases op with
    | none => exact .pure rfl
    | some op =>
      refine (h.expr rfl rfl).bind fun operand _ => (h.meets .compareRest rfl).bind fun rest _ => .pure ?_
      simp

theorem unary_meets (h : m.MeetsRules g g') :
    m.Meets (Expr.mapPlaces m.move) (unary g) (unary g') pos := by
  unfold unary
  refine .current h.edge ?_ fun _ t t' ht ht' => ?_
  · simp only [Token.kind_mapPlaces]
    split
    · exact h.expr rfl rfl
    · refine (Meets.advance h.edge).bind fun _ _ => (h.expr rfl rfl).bind fun operand _ => .pure ?_
      simp
  · rw [ht, ht']
    exact h.expr rfl rfl

/-! ## Primary expressions -/

theorem integer_meets (t : Token) :
    m.Meets (Expr.mapPlaces m.move) (integer t) (integer (t.mapPlaces m.move)) pos := by
  unfold integer
  rw [Token.value_mapPlaces]
  split
  · exact .pure (by simp)
  · exact .fail fun _ _ => faultWith_ne_ok.1

theorem atom_meets (h : m.MeetsRules g g') : m.Meets (Expr.mapPlaces m.move) (atom g) (atom g') pos := by
  unfold atom
  refine .current h.edge ?_ fun _ t t' ht ht' => ?_
  · simp only [Token.kind_mapPlaces]
    split
    · exact (Meets.advance h.edge).bind fun _ _ => .pure (nameExpr_mapPlaces ..)
    · exact (Meets.advance h.edge).bind fun _ _ => integer_meets _
    · exact (Meets.advance h.edge).bind fun _ _ => .pure (by simp)
    · exact (Meets.advance h.edge).bind fun _ _ => .pure (by simp)
    · refine (Meets.advance h.edge).bind fun _ _ => ?_
      refine .within (h.carries (.tuple (.expression true)) trivial) (fun _ => h.edge.expectSymbol_ne) fun inner _ => ?_
      refine .expect nofun fun _ => Meets.previousEnd.bind fun stop _ => .pure ?_
      exact withParens_mapPlaces m.move inner ⟨_, stop⟩
    · exact h.expr rfl rfl
    · exact h.expr rfl rfl
    · exact .fail fun _ _ => report_ne_ok.1
  · rw [ht]
    exact .fail fun _ _ => report_ne_ok.1

theorem primary_meets (h : m.MeetsRules g g') (withSuffixes : Bool) :
    m.Meets (Expr.mapPlaces m.move) (primary g withSuffixes) (primary g' withSuffixes) pos :=
  (atom_meets h).bind fun _ _ => .ite Iff.rfl (fun _ => h.expr rfl rfl) fun _ => .pure rfl

theorem list_meets (h : m.MeetsRules g g') : m.Meets (Expr.mapPlaces m.move) (list g) (list g') pos := by
  unfold list
  refine .expect nofun fun _ => ?_
  refine .within (h.carries (.listItems true) trivial) (fun _ => h.edge.expectSymbol_ne) fun items _ => ?_
  refine .expect nofun fun _ => Meets.previousEnd.bind fun stop _ => .pure ?_
  simp

theorem dict_meets (h : m.MeetsRules g g') : m.Meets (Expr.mapPlaces m.move) (dict g) (dict g') pos := by
  unfold dict
  refine .expect nofun fun _ => ?_
  refine .within (h.carries (.dictItems true) trivial) (fun _ => h.edge.expectSymbol_ne) fun items _ => ?_
  refine .expect nofun fun _ => Meets.previousEnd.bind fun stop _ => .pure ?_
  simp

/-! ## Suffixes -/

theorem suffixes_meets (h : m.MeetsRules g g') (e : Expr) :
    m.Meets (Expr.mapPlaces m.move) (suffixes g e) (suffixes g' (e.mapPlaces m.move)) pos := by
  have again {r r' : Rule .expr} (hr : r.isTight = true) (hr' : r' = r.mapPlaces m.move) :
      m.Meets (Expr.mapPlaces m.move) (g r >>= fun e => g (.suffixes e)) (g' r' >>= fun e => g' (.suffixes e)) pos :=
    (h.expr hr hr').bind fun _ _ => h.expr rfl rfl
  unfold suffixes
  refine .current h.edge ?_ fun _ t t' ht ht' => ?_
  · simp only [Token.kind_mapPlaces]
    split
    · exact again rfl rfl
    · exact again rfl rfl
    · exact again rfl rfl
    · exact again rfl rfl
    · exact again rfl rfl
    · exact .pure rfl
  · rw [ht, ht']
    exact .pure rfl

theorem dotIndex_meets (h : m.MeetsRules g g') : m.Meets (Expr.mapPlaces m.move) dotIndex dotIndex pos := by
  unfold dotIndex
  extract_lets after
  have hafter (index : Expr) (q : Nat) :
      m.Meets (Expr.mapPlaces m.move) (after index) (after (index.mapPlaces m.move)) q :=
    (Meets.advance h.edge).bind fun _ _ => .pure rfl
  refine .current h.edge ?_ fun _ t t' ht _ => ?_
  · simp only [Token.kind_mapPlaces]
    split
    · have hname := hafter (.const (.text (m.left.get pos).value) (m.left.get pos).span) pos
      rw [Expr.mapPlaces] at hname
      exact hname
    · exact (integer_meets _).bind hafter
    · exact .fail fun _ _ => report_ne_ok.1
  · rw [ht]
    exact .fail fun _ _ => report_ne_ok.1

theorem bracketIndex_meets (h : m.MeetsRules g g') (opened : Token) :
    m.Meets (Expr.mapPlaces m.move) (bracketIndex g opened) (bracketIndex g' (opened.mapPlaces m.move)) pos := by
  unfold bracketIndex
  refine .within (h.carries (.subscriptItems true) trivial) (fun _ => h.edge.expectSymbol_ne) fun items _ => ?_
  refine Meets.previousEnd.bind fun stop _ => .expect nofun fun _ => ?_
  rcases items with _ | ⟨e, _ | ⟨e', es⟩⟩
  · exact .pure (by simp)
  · exact .pure rfl
  · exact .pure (by simp)

theorem subscript_meets (h : m.MeetsRules g g') (object : Expr) :
    m.Meets (Expr.mapPlaces m.move) (subscript g object) (subscript g' (object.mapPlaces m.move)) pos := by
  unfold subscript
  refine (Meets.advance h.edge).bind fun token _ => ?_
  extract_lets after after'
  have hafter (index : Expr) (q : Nat) :
      m.Meets (Expr.mapPlaces m.move) (after index) (after' (index.mapPlaces m.move)) q :=
    Meets.previousEnd.bind fun stop _ => .pure (by simp)
  simp only [Token.kind_mapPlaces]
  split
  · exact (dotIndex_meets h).bind hafter
  · exact (bracketIndex_meets h token).bind hafter
  · exact .fail fun _ _ hok => (bind_eq_ok.1 hok).elim fun _ ⟨_, hf, _⟩ => faultWith_ne_ok.1 hf

theorem call_meets (h : m.MeetsRules g g') (callee : Expr) :
    m.Meets (Expr.mapPlaces m.move) (call g callee) (call g' (callee.mapPlaces m.move)) pos := by
  unfold call
  refine (h.meets .arguments rfl).bind fun args _ => Meets.previousEnd.bind fun stop _ => .pure ?_
  simp

theorem arguments_meets (h : m.MeetsRules g g') :
    m.Meets (Arguments.mapPlaces m.move) (arguments g) (arguments g') pos := by
  unfold «arguments»
  refine .expect nofun fun _ => ?_
  refine .within (h.carries (.argumentsRest _ .empty) trivial) (fun _ => h.edge.expectSymbol_ne) fun args _ => ?_
  exact .expect nofun fun _ => .pure rfl

/-! ## Filters and tests -/

theorem filter_meets (h : m.MeetsRules g g') (input : Expr) :
    m.Meets (Expr.mapPlaces m.move) (filter g input) (filter g' (input.mapPlaces m.move)) pos := by
  unfold filter
  refine .check h.edge (fun _ => rfl) ((Meets.advance h.edge).bind fun _ _ => h.expr rfl ?_) (.pure rfl)
  simp

theorem optionalArguments_meets (h : m.MeetsRules g g') :
    m.Meets (Arguments.mapPlaces m.move) (optionalArguments g) (optionalArguments g') pos := by
  unfold optionalArguments
  exact .check h.edge (fun _ => rfl) (h.meets .arguments rfl) (.pure (by simp [Arguments.empty]))

theorem singleFilter_meets (h : m.MeetsRules g g') (input : Option Expr) :
    m.Meets (Expr.mapPlaces m.move) (singleFilter g input)
      (singleFilter g' (input.map (Expr.mapPlaces m.move))) pos := by
  unfold singleFilter
  refine .expect nofun fun _ => (optionalArguments_meets h).bind fun args _ => ?_
  refine Meets.previousEnd.bind fun stop _ => .pure ?_
  cases input <;> simp

theorem filterChain_meets (h : m.MeetsRules g g') (input : Option Expr) :
    m.Meets (Expr.mapPlaces m.move) (filterChain g input)
      (filterChain g' (input.map (Expr.mapPlaces m.move))) pos :=
  (h.expr rfl rfl).bind fun _ _ => h.expr rfl rfl

theorem filterRest_meets (h : m.MeetsRules g g') (e : Expr) :
    m.Meets (Expr.mapPlaces m.move) (filterRest g e) (filterRest g' (e.mapPlaces m.move)) pos := by
  unfold filterRest
  refine .check h.edge (fun _ => rfl) ((Meets.advance h.edge).bind fun _ _ => ?_) (.pure rfl)
  exact (h.expr rfl rfl).bind fun e _ => h.expr rfl rfl

/-- The arguments of a test that begin behind its name. -/
theorem testArguments_meets (h : m.MeetsRules g g')
    (hbare : (m.left.get pos).kind ∈ bareArgumentStarts → m.left.BareArgument pos) :
    m.Meets (Arguments.mapPlaces m.move) (testArguments g) (testArguments g') pos := by
  unfold testArguments
  refine .check h.edge (fun _ => rfl) (h.meets .arguments rfl) ?_
  refine .checked h.edge (fun _ => rfl) fun b hyes _ => ?_
  refine .ite Iff.rfl (fun hb => ?_) fun _ => .pure (by simp [Arguments.empty])
  have hargument : m.Meets (Expr.mapPlaces m.move) (g (.expression true)) (g' (.expression true)) pos := by
    intro e q hok
    obtain ⟨hle, hy⟩ := (h.carries (.expression true) trivial).of_ok hok
    refine ⟨hle, fun hq => hy (Nat.le_of_lt_succ (Nat.lt_of_le_of_ne hq ?_))⟩
    rintro rfl
    exact h.bare pos e (hbare (hyes hb)) hok
  exact hargument.bind fun _ _ => .pure (by simp)

/-- The name and the arguments of a test, behind the word `is` and the word `not` if there is one. -/
theorem testRest_meets (h : m.MeetsRules g g') (subject : Expr) {negated : Bool} {i : Nat}
    (hi : m.left.Tests i negated pos) (start : Location) :
    m.Meets (Expr.mapPlaces m.move)
      (expect .name >>= fun name => testArguments g >>= fun args => previousEnd >>= fun stop =>
        pure (testExpr negated start subject name.value args stop))
      (expect .name >>= fun name => testArguments g' >>= fun args => previousEnd >>= fun stop =>
        pure (testExpr negated (m.move start) (subject.mapPlaces m.move) name.value args stop)) pos := by
  refine .expect nofun fun hname => ?_
  refine (testArguments_meets h fun hk => ⟨i, negated, pos, hi, hname, rfl, hk⟩).bind fun args _ => ?_
  refine Meets.previousEnd.bind fun stop _ => .pure ?_
  cases negated <;> simp [testExpr]

theorem test_meets (h : m.MeetsRules g g') (subject : Expr) :
    m.Meets (Expr.mapPlaces m.move) (test g subject) (test g' (subject.mapPlaces m.move)) pos := by
  unfold test
  refine .expect nofun fun his => .checked h.edge (fun _ => rfl) fun negated hyes hno => ?_
  cases negated with
  | true =>
    have hnot := List.mem_singleton.1 (hyes rfl)
    exact .past hnot nofun (testRest_meets h subject (.negated his hnot) (m.left.get pos).span.start)
  | false =>
    have hnot := mt List.mem_singleton.2 (hno rfl)
    exact testRest_meets h subject (.plain his hnot) (m.left.get pos).span.start

/-! ## Tuples -/

theorem tupleItem_meets (h : m.MeetsRules g g') :
    m.Meets (Expr.mapPlaces m.move) (tupleItem g (.expression false)) (tupleItem g' (.expression false)) pos :=
  h.expr rfl rfl

/-- Behind a comma that does not come to the edge the next item is asked for alike. -/
theorem tupleRest_meets (h : m.MeetsRules g g') :
    m.Meets (List.map (Expr.mapPlaces m.move)) (tupleRest g (.expression false))
      (tupleRest g' (.expression false)) pos := by
  unfold tupleRest
  refine .expect nofun fun hcomma => .check h.edge (fun hedge => ?_) (.pure rfl) ?_
  · obtain rfl : pos = m.horizon := Nat.succ.inj hedge
    exact absurd hcomma h.edge.noComma
  · refine (tupleItem_meets h).bind fun e _ => .check h.edge (fun _ => rfl) ?_ (.pure rfl)
    exact (h.meets (.tupleRest (.expression false)) rfl).bind fun rest _ => .pure rfl

/-- A tuple that begins before the edge. -/
theorem tuple_meets (h : m.MeetsRules g g') (hpos : pos ≤ m.horizon) :
    m.Meets (Expr.mapPlaces m.move) (tuple g (.expression false)) (tuple g' (.expression false)) pos := by
  have hne : pos ≠ m.horizon + 1 := Nat.ne_of_lt (Nat.lt_succ_of_le hpos)
  unfold tuple
  refine .current h.edge ?_ fun hedge => absurd hedge hne
  refine .check h.edge (fun hedge => absurd hedge hne) (.pure (by simp)) ?_
  refine (tupleItem_meets h).bind fun first _ => .check h.edge (fun _ => rfl) ?_ (.pure rfl)
  refine (h.meets (.tupleRest (.expression false)) rfl).bind fun rest _ => ?_
  exact Meets.previousEnd.bind fun stop _ => .pure (by simp)

/-! ## The whole grammar -/

/-- One step of the grammar meets the edge if the rules inside it do. -/
theorem step_meets (h : m.MeetsRules g g') (find find' : Text → Option Extension) {p : Phrase} (r : Rule p)
    (ht : r.isTight = true) :
    m.Meets (p.mapPlaces m.move) (step find g r) (step find' g' (r.mapPlaces m.move)) pos := by
  cases r with
  | expression c =>
    cases c with
    | true => cases ht
    | false => exact h.expr (r := .binary .or) rfl rfl
  | binary op => exact binary_meets h op
  | binaryRest op left => exact binaryRest_meets h op left
  | compare => exact compare_meets h
  | compareRest => exact compareRest_meets h
  | unary => exact unary_meets h
  | primary withSuffixes => exact primary_meets h withSuffixes
  | tupleRest item =>
    obtain rfl : item = .expression false := beq_iff_eq.1 ht
    exact tupleRest_meets h
  | list => exact list_meets h
  | dict => exact dict_meets h
  | suffixes e => exact suffixes_meets h e
  | subscript object => exact subscript_meets h object
  | call callee => exact call_meets h callee
  | «arguments» => exact arguments_meets h
  | filter input => exact filter_meets h input
  | filterChain input => exact filterChain_meets h input
  | filterRest e => exact filterRest_meets h e
  | singleFilter input => exact singleFilter_meets h input
  | test subject => exact test_meets h subject
  | _ => cases ht

/-- At every depth the rules meet the edge, if no argument without parentheses comes to it at any depth. -/
theorem run_meets {find : Text → Option Extension} (hm : m.Guarded) (hx : FindsBuiltin find)
    (hbare : ∀ n pos e, m.left.BareArgument pos → run find n (.expression true) m.left pos ≠ .ok e (m.horizon + 1))
    (n : Nat) : m.MeetsRules (run find n) (run find n) where
  edge := hm
  carries := run_carries hx (fun _ _ _ => rfl) n
  bare := hbare n
  meets := by
    induction n with
    | zero => exact fun _ _ _ _ => .fail fun _ _ => faultWith_ne_ok.1
    | succ n ih =>
      intro p r pos ht
      exact step_meets ⟨hm, run_carries hx (fun _ _ _ => rfl) n, hbare n, ih⟩ find find r ht

end Grammar
end Stencil
