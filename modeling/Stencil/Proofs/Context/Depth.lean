/-
Readings at more depth. What a rule for expressions reads at one depth it reads at every greater depth, whatever the
extensions of the language are (`run_refines`): only a depth that is too low can stand in its way. Each rule is shown
to read what it has read with rules inside it that read no less.
-/
import Stencil.Proofs.Derivation.Expression
import Stencil.Proofs.Writing.Given

namespace Stencil

/-- The second reader reads whatever the first one does. -/
def Parser.Refines {α : Type} (x y : Parser α) : Prop :=
  ∀ ⦃s : Stream⦄ ⦃pos : Nat⦄ ⦃a : α⦄ ⦃q : Nat⦄, x s pos = .ok a q → y s pos = .ok a q

/-- The second grammar reads whatever expressions the first one does. -/
def Grammar.Refines (g g' : Grammar) : Prop :=
  ∀ ⦃p : Phrase⦄, p.isExpression = true → ∀ r : Rule p, Parser.Refines (g r) (g' r)

namespace Parser.Refines

variable {α β : Type} {x y : Parser α} {f f' : α → Parser β}

theorem refl : Refines x x := fun _ _ _ _ h => h

theorem bind (h : Refines x y) (k : ∀ a, Refines (f a) (f' a)) : Refines (x >>= f) (y >>= f') := by
  intro s pos b q hb
  obtain ⟨a, p, hx, hf⟩ := Parser.bind_eq_ok.1 hb
  exact Parser.bind_eq_ok.2 ⟨a, p, h hx, k a hf⟩

/-- The two go on differently behind one reader. -/
theorem behind (k : ∀ a, Refines (f a) (f' a)) : Refines (x >>= f) (x >>= f') := bind refl k

theorem ite {c : Prop} [Decidable c] {z w : Parser α} (ht : Refines x y) (he : Refines z w) :
    Refines (if c then x else z) (if c then y else w) := by
  split
  · exact ht
  · exact he

/-- One of two readers is chosen by the current token. -/
theorem check {ks : List TokenKind} {z w : Parser α} (ht : Refines x y) (he : Refines z w) :
    Refines (Parser.check ks >>= fun b => if b = true then x else z)
      (Parser.check ks >>= fun b => if b = true then y else w) := behind fun _ => ite ht he

end Parser.Refines

namespace Grammar

open Stencil.Parser

variable {g g' : Grammar}

/-! ## Operators -/

theorem expression_refines (h : g.Refines g') (conditional : Bool) :
    Parser.Refines (expression g conditional) (expression g' conditional) := .ite (h rfl .cond) (h rfl (.binary .or))

theorem cond_refines (h : g.Refines g') : Parser.Refines (cond g) (cond g') :=
  (h rfl (.binary .or)).bind fun value => h rfl (.condRest value)

theorem condRest_refines (h : g.Refines g') (value : Expr) :
    Parser.Refines (condRest g value) (condRest g' value) := by
  unfold condRest
  refine .check (.behind fun _ => (h rfl (.binary .or)).bind fun test => .behind fun _ => ?_) .refl
  exact (h rfl .cond).bind fun other => h rfl (.condRest _)

theorem binary_refines (h : g.Refines g') (op : BinaryOp) : Parser.Refines (binary g op) (binary g' op) :=
  (h rfl (operandRule op)).bind fun left => h rfl (.binaryRest op left)

theorem binaryRest_refines (h : g.Refines g') (op : BinaryOp) (left : Expr) :
    Parser.Refines (binaryRest g op left) (binaryRest g' op left) := by
  unfold binaryRest
  refine .check (.behind fun _ => ?_) .refl
  exact (h rfl (operandRule op)).bind fun right => h rfl (.binaryRest op _)

theorem compare_refines (h : g.Refines g') : Parser.Refines (compare g) (compare g') := by
  unfold compare
  exact (h rfl (.binary .add)).bind fun first => (h rfl .compareRest).bind fun operands => .refl

theorem compareRest_refines (h : g.Refines g') : Parser.Refines (compareRest g) (compareRest g') := by
  unfold compareRest
  refine .behind fun token => .behind fun op => ?_
  cases op with
  | none => exact .refl
  | some op => exact (h rfl (.binary .add)).bind fun operand => (h rfl .compareRest).bind fun rest => .refl

theorem unary_refines (h : g.Refines g') : Parser.Refines (unary g) (unary g') := by
  unfold unary
  refine .behind fun token => ?_
  split
  · exact h rfl (.primary true)
  · exact .behind fun _ => (h rfl .unary).bind fun operand => .refl

/-! ## Primary expressions -/

theorem atom_refines (h : g.Refines g') : Parser.Refines (atom g) (atom g') := by
  unfold atom
  refine .behind fun token => ?_
  split
  case h_5 => exact .behind fun _ => (h rfl (.tuple (.expression true))).bind fun inner => .refl
  case h_6 => exact h rfl .list
  case h_7 => exact h rfl .dict
  all_goals exact .refl

theorem primary_refines (h : g.Refines g') (withSuffixes : Bool) :
    Parser.Refines (primary g withSuffixes) (primary g' withSuffixes) :=
  (atom_refines h).bind fun e => .ite (h rfl (.suffixes e)) .refl

theorem tupleItem_refines (h : g.Refines g') (item : TupleItem) :
    Parser.Refines (tupleItem g item) (tupleItem g' item) := by
  cases item with
  | primary => exact h rfl (.primary true)
  | expression conditional => exact h rfl (.expression conditional)

theorem tuple_refines (h : g.Refines g') (item : TupleItem) : Parser.Refines (tuple g item) (tuple g' item) := by
  unfold tuple
  refine .behind fun token => .check .refl ?_
  exact (tupleItem_refines h item).bind fun first => .check ((h rfl (.tupleRest item)).bind fun _ => .refl) .refl

theorem tupleRest_refines (h : g.Refines g') (item : TupleItem) :
    Parser.Refines (tupleRest g item) (tupleRest g' item) := by
  unfold tupleRest
  refine .behind fun _ => .check .refl ?_
  exact (tupleItem_refines h item).bind fun e => .check ((h rfl (.tupleRest item)).bind fun _ => .refl) .refl

/-- What follows the comma before every item but the first one. -/
theorem comma_refines {α : Type} {first : Bool} {x y : Parser α} (h : Parser.Refines x y) :
    Parser.Refines (if (!first) = true then do let _ ← expectSymbol .comma; x else x)
      (if (!first) = true then do let _ ← expectSymbol .comma; y else y) := .ite (.behind fun _ => h) h

theorem list_refines (h : g.Refines g') : Parser.Refines (list g) (list g') := by
  unfold list
  exact .behind fun opened => (h rfl (.listItems true)).bind fun items => .refl

theorem listItems_refines (h : g.Refines g') (first : Bool) :
    Parser.Refines (listItems g first) (listItems g' first) := by
  unfold listItems
  refine .check .refl (comma_refines (.check .refl ?_))
  exact (h rfl (.expression true)).bind fun e => (h rfl (.listItems false)).bind fun _ => .refl

theorem dict_refines (h : g.Refines g') : Parser.Refines (dict g) (dict g') := by
  unfold dict
  exact .behind fun opened => (h rfl (.dictItems true)).bind fun items => .refl

theorem dictItems_refines (h : g.Refines g') (first : Bool) :
    Parser.Refines (dictItems g first) (dictItems g' first) := by
  unfold dictItems
  refine .check .refl (comma_refines (.check .refl ?_))
  refine (h rfl (.expression true)).bind fun key => .behind fun _ => (h rfl (.expression true)).bind fun value => ?_
  exact (h rfl (.dictItems false)).bind fun _ => .refl

theorem printItems_refines (h : g.Refines g') (first : Bool) :
    Parser.Refines (printItems g first) (printItems g' first) := by
  unfold printItems
  refine .check .refl (comma_refines ?_)
  exact (h rfl (.expression true)).bind fun e => (h rfl (.printItems false)).bind fun _ => .refl

/-! ## Suffixes -/

theorem suffixes_refines (h : g.Refines g') (e : Expr) : Parser.Refines (suffixes g e) (suffixes g' e) := by
  have again (r : Rule .expr) :
      Parser.Refines (g r >>= fun e => g (.suffixes e)) (g' r >>= fun e => g' (.suffixes e)) :=
    (h rfl r).bind fun e => h rfl (.suffixes e)
  unfold suffixes
  refine .behind fun token => ?_
  split
  · exact again (.subscript e)
  · exact again (.subscript e)
  · exact again (.call e)
  · exact again (.filter e)
  · exact again (.test e)
  · exact .refl

theorem subscript_refines (h : g.Refines g') (object : Expr) :
    Parser.Refines (subscript g object) (subscript g' object) := by
  have hindex (opened : Token) : Parser.Refines (bracketIndex g opened) (bracketIndex g' opened) :=
    (h rfl (.subscriptItems true)).bind fun items => .refl
  unfold subscript
  refine .behind fun token => ?_
  split
  · exact .refl
  · exact (hindex token).bind fun index => .refl
  · exact .refl

theorem subscriptItems_refines (h : g.Refines g') (first : Bool) :
    Parser.Refines (subscriptItems g first) (subscriptItems g' first) := by
  unfold subscriptItems
  refine .check .refl (comma_refines ?_)
  exact (h rfl .subscriptItem).bind fun e => (h rfl (.subscriptItems false)).bind fun _ => .refl

theorem sliceRest_refines (h : g.Refines g') (begun : Location) (start : Option Expr) :
    Parser.Refines (sliceRest g begun start) (sliceRest g' begun start) := by
  have hstep : Parser.Refines (sliceStep g) (sliceStep g') :=
    .check (.behind fun _ => .check .refl ((h rfl (.expression true)).bind fun _ => .refl)) .refl
  unfold sliceRest
  refine .behind fun _ => .ite (hstep.bind fun _ => .refl) ?_
  exact (h rfl (.expression true)).bind fun e => hstep.bind fun _ => .refl

theorem subscriptItem_refines (h : g.Refines g') : Parser.Refines (subscriptItem g) (subscriptItem g') := by
  unfold subscriptItem
  refine .behind fun token => .check (.behind fun _ => sliceRest_refines h _ none) ?_
  exact (h rfl (.expression true)).bind fun e => .check (.behind fun _ => sliceRest_refines h _ (some e)) .refl

theorem call_refines (h : g.Refines g') (callee : Expr) : Parser.Refines (call g callee) (call g' callee) :=
  (h rfl .arguments).bind fun _ => .refl

theorem arguments_refines (h : g.Refines g') :
    Parser.Refines (Grammar.arguments g) (Grammar.arguments g') :=
  .behind fun opened => (h rfl (.argumentsRest opened.span.start .empty)).bind fun _ => .refl

theorem argument_refines (h : g.Refines g') (opened : Location) (args : Arguments) :
    Parser.Refines (argument g opened args) (argument g' opened args) := by
  have he {α : Type} (f : Expr → Parser α) :
      Parser.Refines (g (.expression true) >>= f) (g' (.expression true) >>= f) :=
    (h rfl (.expression true)).bind fun e => .refl
  obtain ⟨positional, keywords, spread, keywordSpread⟩ := args
  unfold argument
  refine .check (.behind fun _ => .behind fun _ => he _) (.check (.behind fun _ => .behind fun _ => he _) ?_)
  refine .behind fun _ => .behind fun token => .behind fun next => .ite (.behind fun _ => he _) ?_
  exact .behind fun _ => he _

theorem argumentsRest_refines (h : g.Refines g') (opened : Location) (args : Arguments) :
    Parser.Refines (argumentsRest g opened args) (argumentsRest g' opened args) := by
  have hmore : Parser.Refines (argument g opened args >>= fun args => g (.argumentsRest opened args))
      (argument g' opened args >>= fun args => g' (.argumentsRest opened args)) :=
    (argument_refines h opened args).bind fun args => h rfl (.argumentsRest opened args)
  unfold argumentsRest
  have hlast : Parser.Refines
      (checkSymbol .closeParen >>= fun b => if (!noneRead args && b) = true then pure args else
        argument g opened args >>= fun args => g (.argumentsRest opened args))
      (checkSymbol .closeParen >>= fun b => if (!noneRead args && b) = true then pure args else
        argument g' opened args >>= fun args => g' (.argumentsRest opened args)) :=
    .behind fun _ => .ite .refl hmore
  exact .check .refl (.ite (.behind fun _ => hlast) hlast)

theorem filter_refines (h : g.Refines g') (input : Expr) : Parser.Refines (filter g input) (filter g' input) :=
  .check (.behind fun _ => h rfl (.filterChain (some input))) .refl

theorem optionalArguments_refines (h : g.Refines g') :
    Parser.Refines (optionalArguments g) (optionalArguments g') := .check (h rfl .arguments) .refl

theorem singleFilter_refines (h : g.Refines g') (input : Option Expr) :
    Parser.Refines (singleFilter g input) (singleFilter g' input) :=
  .behind fun _ => (optionalArguments_refines h).bind fun _ => .refl

theorem filterChain_refines (h : g.Refines g') (input : Option Expr) :
    Parser.Refines (filterChain g input) (filterChain g' input) :=
  (h rfl (.singleFilter input)).bind fun e => h rfl (.filterRest e)

theorem filterRest_refines (h : g.Refines g') (e : Expr) : Parser.Refines (filterRest g e) (filterRest g' e) :=
  .check (.behind fun _ => (h rfl (.singleFilter (some e))).bind fun e => h rfl (.filterRest e)) .refl

theorem test_refines (h : g.Refines g') (subject : Expr) : Parser.Refines (test g subject) (test g' subject) := by
  have hargs : Parser.Refines (testArguments g) (testArguments g') :=
    .check (h rfl .arguments) (.check ((h rfl (.expression true)).bind fun _ => .refl) .refl)
  have hname {f f' : Token → Parser Expr} (k : ∀ t, Parser.Refines (f t) (f' t)) :
      Parser.Refines (expect .name >>= f) (expect .name >>= f') := .behind k
  unfold test
  refine .behind fun token => .behind fun negated => .ite (.behind fun _ => ?_) ?_
  · exact hname fun name => hargs.bind fun args => .refl
  · exact hname fun name => hargs.bind fun args => .refl

/-! ## The whole grammar -/

/-- One step of the grammar reads what it reads with rules inside it that read no less. Extensions take no part. -/
theorem step_refines (h : g.Refines g') (find find' : Text → Option Extension) :
    (step find g).Refines (step find' g') := by
  intro p hp r
  cases r with
  | expression conditional => exact expression_refines h conditional
  | cond => exact cond_refines h
  | condRest value => exact condRest_refines h value
  | binary op => exact binary_refines h op
  | binaryRest op left => exact binaryRest_refines h op left
  | compare => exact compare_refines h
  | compareRest => exact compareRest_refines h
  | unary => exact unary_refines h
  | primary withSuffixes => exact primary_refines h withSuffixes
  | tuple item => exact tuple_refines h item
  | tupleRest item => exact tupleRest_refines h item
  | list => exact list_refines h
  | listItems first => exact listItems_refines h first
  | dict => exact dict_refines h
  | dictItems first => exact dictItems_refines h first
  | printItems first => exact printItems_refines h first
  | suffixes e => exact suffixes_refines h e
  | subscript object => exact subscript_refines h object
  | subscriptItems first => exact subscriptItems_refines h first
  | subscriptItem => exact subscriptItem_refines h
  | call callee => exact call_refines h callee
  | «arguments» => exact arguments_refines h
  | argumentsRest opened args => exact argumentsRest_refines h opened args
  | filter input => exact filter_refines h input
  | filterChain input => exact filterChain_refines h input
  | filterRest e => exact filterRest_refines h e
  | singleFilter input => exact singleFilter_refines h input
  | test subject => exact test_refines h subject
  | _ => cases hp

/-- What is read of expressions at one depth is read at every greater one. -/
theorem run_refines (find find' : Text → Option Extension) {n n' : Nat} (hn : n ≤ n') :
    (run find n).Refines (run find' n') := by
  induction n generalizing n' with
  | zero => exact fun _ _ _ _ _ _ _ h => (faultWith_ne_ok.1 h).elim
  | succ n ih =>
    obtain ⟨n', rfl⟩ : ∃ k, n' = k + 1 := ⟨n' - 1, by omega⟩
    exact step_refines (ih (Nat.le_of_succ_le_succ hn)) find find'

variable {find find' : Text → Option Extension} {p : Phrase} {r : Rule p} {s : Stream} {pos q : Nat} {t : p.Tree}

/-- Every depth above its weight gives what is read of an expression at some depth. -/
theorem Gives.of_run (hlast : s.last.kind = .eof) (hp : p.isExpression = true) {n : Nat}
    (h : run find n r s pos = .ok t q) : Gives find' s r pos t q := by
  have hr : r.isStatement = false := by cases r <;> first | rfl | cases hp
  intro m hm
  -- two depths that are both above the weight make no difference
  have hsame (k : Nat) (hk : 32 * (s.tokens.size - 1 - pos) + r.rank < k) :
      ofExtensions find' r s pos = run find' k r s pos := by
    have hweight : (s.frame hlast pos True False).weight r pos < k := by
      show 32 * (max pos (s.tokens.size - 1) - pos) + r.rank < k
      omega
    exact (ofExtensions_reads (nofun : (s.frame hlast pos True False).Knows find')
      (s.frame_shallow hlast pos True False) r ⟨Nat.le_refl _, Nat.le_max_left ..⟩ hweight
      fun hs => by rw [hr] at hs; cases hs).1
  rw [← hsame m hm, hsame (max m n) (by omega)]
  exact run_refines find find' (Nat.le_max_right m n) hp r h

end Grammar
end Stencil
