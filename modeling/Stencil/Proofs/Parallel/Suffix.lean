/-
The rules for attributes and subscripts, calls, filters and tests are carried on, if the rules inside them are. The
two-token look at `name=` is the only one that goes past the current token here.
-/
import Stencil.Proofs.Parallel.Expression

namespace Stencil.Grammar

open Parallel

variable {m : Parallel} {g g' : Grammar} {pos : Nat}

/-! ## Suffixes -/

theorem suffixes_carries (h : m.CarriesRules g g') (e : Expr) :
    m.Carries (Expr.mapPlaces m.move) (suffixes g e) (suffixes g' (e.mapPlaces m.move)) pos := by
  have again (r : Rule .expr) :
      m.Carries (Expr.mapPlaces m.move) (g r >>= fun e => g (.suffixes e))
        (g' (r.mapPlaces m.move) >>= fun e => g' (.suffixes e)) pos :=
    (h r trivial).bind fun e _ => h (.suffixes e) trivial
  unfold suffixes
  refine .current ?_
  simp only [Token.kind_mapPlaces]
  split
  · exact again (.subscript e)
  · exact again (.subscript e)
  · exact again (.call e)
  · exact again (.filter e)
  · exact again (.test e)
  · exact .pure rfl

/-! ## Subscripts -/

theorem dotIndex_carries : m.Carries (Expr.mapPlaces m.move) dotIndex dotIndex pos := by
  unfold dotIndex
  refine .current ?_
  extract_lets after
  have hafter (index : Expr) (q : Nat) :
      m.Carries (Expr.mapPlaces m.move) (after index) (after (index.mapPlaces m.move)) q :=
    Carries.advance.bind fun _ _ => .pure rfl
  simp only [Token.kind_mapPlaces]
  split
  · have hname := hafter (.const (.text (m.left.get pos).value) (m.left.get pos).span) pos
    rw [Expr.mapPlaces] at hname
    exact hname
  · exact (integer_carries _).bind hafter
  · exact .report

theorem bracketIndex_carries (h : m.CarriesRules g g') (opened : Token) :
    m.Carries (Expr.mapPlaces m.move) (bracketIndex g opened) (bracketIndex g' (opened.mapPlaces m.move)) pos := by
  unfold bracketIndex
  refine (h (.subscriptItems true) trivial).bind fun items _ => Carries.previousEnd.bind fun stop _ => ?_
  refine Carries.expect.bind fun _ _ => ?_
  rcases items with _ | ⟨e, _ | ⟨e', es⟩⟩
  · exact .pure (by simp)
  · exact .pure rfl
  · exact .pure (by simp)

theorem subscript_carries (h : m.CarriesRules g g') (object : Expr) :
    m.Carries (Expr.mapPlaces m.move) (subscript g object) (subscript g' (object.mapPlaces m.move)) pos := by
  unfold subscript
  refine Carries.advance.bind fun token _ => ?_
  extract_lets after after'
  have hafter (index : Expr) (q : Nat) :
      m.Carries (Expr.mapPlaces m.move) (after index) (after' (index.mapPlaces m.move)) q :=
    Carries.previousEnd.bind fun stop _ => .pure (by simp)
  simp only [Token.kind_mapPlaces]
  split
  · exact dotIndex_carries.bind hafter
  · exact (bracketIndex_carries h token).bind hafter
  · exact .fault

theorem subscriptItems_carries (h : m.CarriesRules g g') (first : Bool) :
    m.Carries (List.map (Expr.mapPlaces m.move)) (subscriptItems g first) (subscriptItems g' first) pos := by
  unfold subscriptItems
  refine .check (.pure rfl) ?_
  extract_lets rest rest'
  refine comma_carries Iff.rfl fun q => (h .subscriptItem trivial).bind fun e _ => ?_
  exact (h (.subscriptItems false) trivial).bind fun es _ => .pure rfl

theorem sliceStep_carries (h : m.CarriesRules g g') :
    m.Carries (Option.map (Expr.mapPlaces m.move)) (sliceStep g) (sliceStep g') pos := by
  unfold sliceStep
  refine .check (Carries.advance.bind fun _ _ => .check (.pure rfl) ?_) (.pure rfl)
  exact (h (.expression true) trivial).bind fun e _ => .pure rfl

theorem sliceRest_carries (h : m.CarriesRules g g') (begun : Location) (start : Option Expr) :
    m.Carries (Expr.mapPlaces m.move) (sliceRest g begun start)
      (sliceRest g' (m.move begun) (start.map (Expr.mapPlaces m.move))) pos := by
  unfold sliceRest
  refine Carries.checked.bind fun b q => ?_
  extract_lets rest rest'
  have hrest (stop : Option Expr) (q : Nat) :
      m.Carries (Expr.mapPlaces m.move) (rest stop) (rest' (stop.map (Expr.mapPlaces m.move))) q := by
    refine (sliceStep_carries h).bind fun step _ => Carries.previousEnd.bind fun stop _ => .pure ?_
    simp
  refine .ite Iff.rfl (fun _ => hrest none q) fun _ => ?_
  exact (h (.expression true) trivial).bind fun e => hrest (some e)

theorem subscriptItem_carries (h : m.CarriesRules g g') :
    m.Carries (Expr.mapPlaces m.move) (subscriptItem g) (subscriptItem g') pos := by
  unfold subscriptItem
  refine .current (.check (Carries.advance.bind fun _ _ => sliceRest_carries h _ none) ?_)
  refine (h (.expression true) trivial).bind fun e _ => .check ?_ (.pure rfl)
  exact Carries.advance.bind fun _ _ => sliceRest_carries h _ (some e)

/-! ## Arguments -/

theorem call_carries (h : m.CarriesRules g g') (callee : Expr) :
    m.Carries (Expr.mapPlaces m.move) (call g callee) (call g' (callee.mapPlaces m.move)) pos := by
  unfold call
  refine (h .arguments trivial).bind fun args _ => Carries.previousEnd.bind fun stop _ => .pure ?_
  simp

theorem arguments_carries (h : m.CarriesRules g g') :
    m.Carries (Arguments.mapPlaces m.move) (arguments g) (arguments g') pos := by
  unfold «arguments»
  refine Carries.expect.bind fun opened _ => (h (.argumentsRest opened.span.start .empty) trivial).bind fun args _ => ?_
  exact Carries.expect.bind fun _ _ => .pure rfl

@[simp] theorem noneRead_mapPlaces (f : Location → Location) (args : Arguments) :
    noneRead (args.mapPlaces f) = noneRead args := by
  obtain ⟨positional, keywords, spread, keywordSpread⟩ := args
  rcases positional with _ | ⟨e, es⟩ <;> rcases keywords with _ | ⟨k, ks⟩ <;> cases spread <;>
    cases keywordSpread <;> simp [noneRead]

theorem ensureOrder_carries (opened : Location) (valid : Bool) :
    m.Carries id (ensureOrder opened valid) (ensureOrder (m.move opened) valid) pos :=
  .ite Iff.rfl (fun _ => .pure rfl) fun _ => .report

theorem argument_carries (h : m.CarriesRules g g') (opened : Location) (args : Arguments) :
    m.Carries (Arguments.mapPlaces m.move) (argument g opened args)
      (argument g' (m.move opened) (args.mapPlaces m.move)) pos := by
  obtain ⟨positional, keywords, spread, keywordSpread⟩ := args
  simp only [Arguments.mapPlaces, Expr.mapPlacesAll_eq_map, KeywordArg.mapPlacesAll_eq_map,
    Expr.mapPlacesOption_eq_map, argument, Option.isNone_map, List.isEmpty_map]
  refine .check ?spread (.check ?keywordSpread ?plain)
  case spread =>
    refine (ensureOrder_carries opened _).bind fun _ _ => Carries.advance.bind fun _ _ => ?_
    exact (h (.expression true) trivial).bind fun e _ => .pure (by simp)
  case keywordSpread =>
    refine (ensureOrder_carries opened _).bind fun _ _ => Carries.advance.bind fun _ _ => ?_
    exact (h (.expression true) trivial).bind fun e _ => .pure (by simp)
  case plain =>
    refine (ensureOrder_carries opened _).bind fun _ q => .current ?_
    simp only [Token.kind_mapPlaces]
    refine .pair (by decide) (fun _ => Carries.skip_two.bind fun _ _ => ?_) ?_
    · exact (h (.expression true) trivial).bind fun value _ => .pure (by simp)
    · refine (ensureOrder_carries opened _).bind fun _ _ => ?_
      exact (h (.expression true) trivial).bind fun e _ => .pure (by simp)

theorem argumentsRest_carries (h : m.CarriesRules g g') (opened : Location) (args : Arguments) :
    m.Carries (Arguments.mapPlaces m.move) (argumentsRest g opened args)
      (argumentsRest g' (m.move opened) (args.mapPlaces m.move)) pos := by
  unfold argumentsRest
  refine .check (.pure rfl) ?_
  extract_lets rest rest'
  have hrest (q : Nat) : m.Carries (Arguments.mapPlaces m.move) (rest ()) (rest' ()) q := by
    refine Carries.checked.bind fun closed _ => .ite (by simp) (fun _ => .pure rfl) fun _ => ?_
    exact (argument_carries h opened args).bind fun args _ => h (.argumentsRest opened args) trivial
  exact comma_carries (by simp) hrest

/-! ## Filters and tests -/

theorem filter_carries (h : m.CarriesRules g g') (input : Expr) :
    m.Carries (Expr.mapPlaces m.move) (filter g input) (filter g' (input.mapPlaces m.move)) pos := by
  unfold filter
  refine .check (Carries.advance.bind fun _ _ => h.rule .expr trivial ?_) (.pure rfl)
  simp

theorem optionalArguments_carries (h : m.CarriesRules g g') :
    m.Carries (Arguments.mapPlaces m.move) (optionalArguments g) (optionalArguments g') pos := by
  unfold optionalArguments
  exact .check (h .arguments trivial) (.pure (by simp [Arguments.empty]))

theorem singleFilter_carries (h : m.CarriesRules g g') (input : Option Expr) :
    m.Carries (Expr.mapPlaces m.move) (singleFilter g input)
      (singleFilter g' (input.map (Expr.mapPlaces m.move))) pos := by
  unfold singleFilter
  refine Carries.expect.bind fun name _ => (optionalArguments_carries h).bind fun args _ => ?_
  refine Carries.previousEnd.bind fun stop _ => .pure ?_
  cases input <;> simp

theorem filterChain_carries (h : m.CarriesRules g g') (input : Option Expr) :
    m.Carries (Expr.mapPlaces m.move) (filterChain g input)
      (filterChain g' (input.map (Expr.mapPlaces m.move))) pos :=
  (h (.singleFilter input) trivial).bind fun e _ => h (.filterRest e) trivial

theorem filterRest_carries (h : m.CarriesRules g g') (e : Expr) :
    m.Carries (Expr.mapPlaces m.move) (filterRest g e) (filterRest g' (e.mapPlaces m.move)) pos := by
  unfold filterRest
  refine .check (Carries.advance.bind fun _ _ => ?_) (.pure rfl)
  exact (h (.singleFilter (some e)) trivial).bind fun e _ => h (.filterRest e) trivial

theorem testArguments_carries (h : m.CarriesRules g g') :
    m.Carries (Arguments.mapPlaces m.move) (testArguments g) (testArguments g') pos := by
  unfold testArguments
  refine .check (h .arguments trivial) (.check ?_ (.pure (by simp [Arguments.empty])))
  exact (h (.expression true) trivial).bind fun e _ => .pure (by simp)

theorem test_carries (h : m.CarriesRules g g') (subject : Expr) :
    m.Carries (Expr.mapPlaces m.move) (test g subject) (test g' (subject.mapPlaces m.move)) pos := by
  unfold test
  refine Carries.expect.bind fun token _ => Carries.checked.bind fun negated q => ?_
  extract_lets rest rest'
  have hrest (q : Nat) : m.Carries (Expr.mapPlaces m.move) (rest ()) (rest' ()) q := by
    refine Carries.expect.bind fun name _ => (testArguments_carries h).bind fun args _ => ?_
    refine Carries.previousEnd.bind fun stop _ => ?_
    exact .ite Iff.rfl (fun _ => .pure (by simp)) fun _ => .pure (by simp)
  exact .ite Iff.rfl (fun _ => Carries.advance.bind fun _ => hrest) fun _ => hrest q

end Stencil.Grammar
