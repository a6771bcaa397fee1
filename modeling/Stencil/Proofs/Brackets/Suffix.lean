/-
The rules for attributes and subscripts, calls, filters and tests agree in every enclosure below which their
parts agree. A subscript and the arguments of a call open a bracket.
-/
import Stencil.Grammar.Suffix
import Stencil.Proofs.Brackets.Expression

namespace Stencil.Grammar

open Enclosure Enclosure.Agrees

variable {c : Enclosure} {g g' : Grammar} {pos : Nat}

/-! ## Suffixes -/

theorem suffixes_levels (h : c.Below g g') (e : Expr) : c.Levels (suffixes g e) (suffixes g' e) c.entry := by
  unfold suffixes
  refine .current ?_
  have again {r : Rule .expr} (hf : r.Fits c.stream c.entry) :
      c.Levels (g r >>= fun e => g (.suffixes e)) (g' r >>= fun e => g' (.suffixes e)) c.entry :=
    (h.plain r at_entry hf).bind fun e p hp => h.plain (.suffixes e) hp trivial
  split <;> rename_i hk
  · exact again (r := .subscript e) (.inl hk)
  · exact again (r := .subscript e) (.inr hk)
  · exact again (r := .call e) trivial
  · exact again (r := .filter e) trivial
  · exact again (r := .test e) trivial
  · exact .pure at_entry

/-! ## Subscripts -/

theorem dotIndex_levels (hpos : c.At [] pos) : c.Levels dotIndex dotIndex pos := by
  unfold dotIndex
  refine .current ?_
  extract_lets after
  have hafter (hk : (c.stream.get pos).kind.isBracket = false) (index : Expr) :
      c.Levels (after index) (after index) pos := .advance hpos hk fun p hp => .pure hp
  split <;> rename_i hk
  · exact hafter (by rw [hk]; rfl) _
  · -- the number is looked at where it stands, and read over afterwards
    refine (integer_stays _).bind ?_
    rintro index _ rfl
    exact hafter (by rw [hk]; rfl) index
  · have hreport (ctx : MessageContext) (l : Location) : c.Agrees (Parser.report .invalidAttribute ctx l)
        (Parser.report .invalidAttribute ctx l) pos fun (_ : Expr) _ => False := .report nofun
    exact (hreport _ _).bind nofun

/-- The subscripts behind the bracket that a rule begins with, up to their closer. -/
theorem bracketIndex_levels (h : c.Below g g') (opened : Token)
    (hk : (c.stream.get c.entry).kind = .symbol .openBracket) :
    c.Levels (bracketIndex g opened) (bracketIndex g' opened) (c.entry + 1) := by
  unfold bracketIndex
  refine (h.inside (.subscriptItems true) .brackets hk trivial).bind fun items p hp => .previousEnd fun stop => ?_
  refine .expect_closing hp .brackets fun _ p hp => ?_
  split <;> exact .pure hp

theorem subscript_levels (h : c.Below g g') (object : Expr) (hf : (Rule.subscript object).Fits c.stream c.entry) :
    c.Levels (subscript g object) (subscript g' object) c.entry := by
  unfold subscript
  rcases hf with hk | hk
  · refine .advance at_entry (by rw [hk]; rfl) fun p hp => ?_
    rw [hk]
    exact (dotIndex_levels hp).bind fun index p hp => .previousEnd fun _ => .pure hp
  · refine (move_opening .brackets hk).bind ?_
    rintro _ _ ⟨rfl, rfl⟩
    rw [hk]
    exact (bracketIndex_levels h _ hk).bind fun index p hp => .previousEnd fun _ => .pure hp

theorem subscriptItems_levels (h : c.Below g g') (first : Bool) :
    c.Levels (subscriptItems g first) (subscriptItems g' first) c.entry := by
  unfold subscriptItems
  refine .check (fun _ => .pure at_entry) fun _ => ?_
  extract_lets rest rest'
  refine comma_levels at_entry fun p hp => ?_
  refine (h.plain .subscriptItem hp trivial).bind fun e p hp => ?_
  exact (h.plain (.subscriptItems false) hp trivial).bind fun es p hp => .pure hp

theorem sliceStep_levels (h : c.Below g g') (hpos : c.At [] pos) : c.Levels (sliceStep g) (sliceStep g') pos := by
  unfold sliceStep
  refine .check (fun hk => .advance_of_mem hpos hk (by decide) fun p hp => ?_) fun _ => .pure hpos
  refine .check (fun _ => .pure hp) fun _ => ?_
  exact (h.plain (.expression true) hp trivial).bind fun e p hp => .pure hp

theorem sliceRest_levels (h : c.Below g g') (begun : Location) (start : Option Expr) (hpos : c.At [] pos) :
    c.Levels (sliceRest g begun start) (sliceRest g' begun start) pos := by
  unfold sliceRest
  refine .checked fun b _ => ?_
  extract_lets rest rest'
  have hrest (stop : Option Expr) {p : Nat} (hp : c.At [] p) : c.Levels (rest stop) (rest' stop) p :=
    (sliceStep_levels h hp).bind fun step p hp => .previousEnd fun _ => .pure hp
  refine .ite (fun _ => hrest _ hpos) fun _ => ?_
  exact (h.plain (.expression true) hpos trivial).bind fun e p hp => hrest _ hp

theorem subscriptItem_levels (h : c.Below g g') : c.Levels (subscriptItem g) (subscriptItem g') c.entry := by
  unfold subscriptItem
  refine .current (.check (fun hk => .advance_of_mem at_entry hk (by decide) fun p hp => ?_) fun _ => ?_)
  · exact sliceRest_levels h _ _ hp
  · refine (h.plain (.expression true) at_entry trivial).bind fun e p hp => ?_
    refine .check (fun hk => .advance_of_mem hp hk (by decide) fun p hp => ?_) fun _ => .pure hp
    exact sliceRest_levels h _ _ hp

/-! ## Arguments -/

theorem call_levels (h : c.Below g g') (callee : Expr) : c.Levels (call g callee) (call g' callee) c.entry := by
  unfold call
  exact (h.plain .arguments at_entry trivial).bind fun args p hp => .previousEnd fun _ => .pure hp

theorem arguments_levels (h : c.Below g g') : c.Levels (arguments g) (arguments g') c.entry := by
  unfold arguments
  refine .expect_opening .parens fun hk => ?_
  refine (h.inside (.argumentsRest _ .empty) .parens hk (by trivial)).bind fun args p hp => ?_
  exact .expect_closing hp .parens fun _ p hp => .pure hp

theorem ensureOrder_stays (opened : Location) (valid : Bool) :
    c.Agrees (ensureOrder opened valid) (ensureOrder opened valid) pos fun _ q => q = pos := by
  unfold ensureOrder
  exact .ite (fun _ => .pure rfl) fun _ => .report nofun

theorem argument_levels (h : c.Below g g') (opened : Location) (args : Arguments) (hpos : c.At [] pos) :
    c.Levels (argument g opened args) (argument g' opened args) pos := by
  obtain ⟨positional, keywords, spread, keywordSpread⟩ := args
  have ensured {valid : Bool} {x x' : Parser Arguments} (k : c.Levels x x' pos) :
      c.Levels (ensureOrder opened valid >>= fun _ => x) (ensureOrder opened valid >>= fun _ => x') pos := by
    refine (ensureOrder_stays opened valid).bind ?_
    rintro _ _ rfl
    exact k
  -- a value behind what marks the argument, if anything does
  have value {q : Nat} (hq : c.At [] q) {f : Expr → Arguments} :
      c.Levels (g (.expression true) >>= fun e => pure (f e)) (g' (.expression true) >>= fun e => pure (f e)) q :=
    (h.plain (.expression true) hq trivial).bind fun e r hr => .pure hr
  unfold argument
  refine .check (fun hk => ensured (.advance_of_mem hpos hk (by decide) fun p hp => value hp)) fun _ => ?_
  refine .check (fun hk => ensured (.advance_of_mem hpos hk (by decide) fun p hp => value hp)) fun _ => ?_
  refine ensured (.current (.next (.ite (fun hn => ?_) fun _ => ensured (value hpos))))
  exact .skip_two hpos (by rw [hn.1]; rfl) (by rw [hn.1]; nofun) (by rw [hn.2]; rfl) fun _ p hp => value hp

theorem argumentsRest_levels (h : c.Below g g') (opened : Location) (args : Arguments) :
    c.Levels (argumentsRest g opened args) (argumentsRest g' opened args) c.entry := by
  unfold argumentsRest
  refine .check (fun _ => .pure at_entry) fun _ => ?_
  extract_lets rest rest'
  refine comma_levels at_entry fun p hp => .checked fun b _ => .ite (fun _ => .pure hp) fun _ => ?_
  exact (argument_levels h opened args hp).bind fun args p hp => h.plain (.argumentsRest opened args) hp trivial

/-! ## Filters and tests -/

theorem filter_levels (h : c.Below g g') (input : Expr) : c.Levels (filter g input) (filter g' input) c.entry := by
  unfold filter
  refine .check (fun hk => .advance_of_mem at_entry hk (by decide) fun p hp => ?_) fun _ => .pure at_entry
  exact h.plain (.filterChain (some input)) hp trivial

theorem optionalArguments_levels (h : c.Below g g') (hpos : c.At [] pos) :
    c.Levels (optionalArguments g) (optionalArguments g') pos := by
  unfold optionalArguments
  exact .check (fun _ => h.plain .arguments hpos trivial) fun _ => .pure hpos

theorem singleFilter_levels (h : c.Below g g') (input : Option Expr) :
    c.Levels (singleFilter g input) (singleFilter g' input) c.entry := by
  unfold singleFilter
  refine .expect at_entry rfl fun p hp _ => (optionalArguments_levels h hp).bind fun args p hp => ?_
  exact .previousEnd fun _ => .pure hp

theorem filterChain_levels (h : c.Below g g') (input : Option Expr) :
    c.Levels (filterChain g input) (filterChain g' input) c.entry := by
  unfold filterChain
  exact (h.plain (.singleFilter input) at_entry trivial).bind fun e p hp => h.plain (.filterRest e) hp trivial

theorem filterRest_levels (h : c.Below g g') (e : Expr) :
    c.Levels (filterRest g e) (filterRest g' e) c.entry := by
  unfold filterRest
  refine .check (fun hk => .advance_of_mem at_entry hk (by decide) fun p hp => ?_) fun _ => .pure at_entry
  exact (h.plain (.singleFilter (some e)) hp trivial).bind fun e p hp => h.plain (.filterRest e) hp trivial

theorem testArguments_levels (h : c.Below g g') (hpos : c.At [] pos) :
    c.Levels (testArguments g) (testArguments g') pos := by
  unfold testArguments
  refine .check (fun _ => h.plain .arguments hpos trivial) fun _ => .check (fun _ => ?_) fun _ => .pure hpos
  exact (h.plain (.expression true) hpos trivial).bind fun e p hp => .pure hp

theorem test_levels (h : c.Below g g') (subject : Expr) :
    c.Levels (test g subject) (test g' subject) c.entry := by
  unfold test
  refine .expect at_entry rfl fun p hp _ => .checked fun negated hn => ?_
  extract_lets rest rest'
  have hrest {p : Nat} (hp : c.At [] p) : c.Levels (rest ()) (rest' ()) p := by
    refine .expect hp rfl fun p hp _ => (testArguments_levels h hp).bind fun args p hp => .previousEnd fun stop => ?_
    exact .ite (fun _ => .pure hp) fun _ => .pure hp
  refine .ite (fun hb => ?_) fun _ => hrest hp
  exact .advance_of_mem hp (hn.1 hb) (by decide) fun p hp => hrest hp

end Stencil.Grammar
