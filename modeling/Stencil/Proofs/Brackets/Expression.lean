/-
The rules for operators, primary expressions, tuples, lists and dictionaries agree in every enclosure below
which their parts agree. Parentheses, lists and dictionaries open a bracket; what stands in it ends where its
closer is awaited.
-/
import Stencil.Proofs.Brackets.Enclosure

namespace Stencil.Grammar

open Enclosure Enclosure.Agrees

variable {c : Enclosure} {g g' : Grammar} {pos : Nat}

/-! ## Conditional expressions -/

theorem expression_levels (h : c.Below g g') (conditional : Bool) :
    c.Levels (expression g conditional) (expression g' conditional) c.entry := by
  unfold expression
  refine .ite (fun _ => ?_) fun _ => ?_
  · exact h.plain .cond at_entry trivial
  · exact h.plain (.binary .or) at_entry trivial

theorem cond_levels (h : c.Below g g') : c.Levels (cond g) (cond g') c.entry := by
  unfold cond
  exact (h.plain (.binary .or) at_entry trivial).bind fun value p hp => h.plain (.condRest value) hp trivial

theorem condRest_levels (h : c.Below g g') (value : Expr) :
    c.Levels (condRest g value) (condRest g' value) c.entry := by
  unfold condRest
  refine .check (fun hk => .advance_of_mem at_entry hk (by decide) fun p hp => ?_) fun _ => .pure at_entry
  refine (h.plain (.binary .or) hp trivial).bind fun test p hp => .expect hp rfl fun p hp _ => ?_
  refine (h.plain .cond hp trivial).bind fun other p hp => ?_
  exact h.plain (.condRest _) hp (by trivial)

/-! ## Operators between two operands -/

theorem operand_levels (h : c.Below g g') (op : BinaryOp) (hpos : c.At [] pos) :
    c.Levels (g (operandRule op)) (g' (operandRule op)) pos :=
  h.plain (operandRule op) hpos (by cases op <;> trivial)

theorem binary_levels (op : BinaryOp) (h : c.Below g g') : c.Levels (binary g op) (binary g' op) c.entry := by
  unfold binary
  exact (operand_levels h op at_entry).bind fun left p hp => h.plain (.binaryRest op left) hp trivial

theorem operatorKind_not_isBracket (op : BinaryOp) : (operatorKind op).isBracket = false := by cases op <;> rfl

theorem binaryRest_levels (h : c.Below g g') (op : BinaryOp) (left : Expr) :
    c.Levels (binaryRest g op left) (binaryRest g' op left) c.entry := by
  unfold binaryRest
  refine .check (fun hk => ?_) fun _ => .pure at_entry
  rw [List.mem_singleton] at hk
  refine .advance at_entry (hk ▸ operatorKind_not_isBracket op) fun p hp => ?_
  refine (operand_levels h op hp).bind fun right p hp => ?_
  exact h.plain (.binaryRest op _) hp (by trivial)

/-! ## Comparisons -/

theorem comparison?_not_isBracket {k : TokenKind} {op : CompareOp} (h : comparison? k = some op) :
    k.isBracket = false := by
  unfold comparison? at h
  split at h <;> first | rfl | cases h

theorem comparisonOp_levels (hpos : c.At [] pos) : c.Levels comparisonOp comparisonOp pos := by
  unfold comparisonOp
  refine .current ?_
  split
  · rename_i op hop
    exact .advance hpos (comparison?_not_isBracket hop) fun p hp => .pure hp
  · refine .next (.ite (fun hn => ?_) fun _ => .pure hpos)
    exact .skip_two hpos (by rw [hn.1]; rfl) (by rw [hn.1]; nofun) (by rw [hn.2]; rfl) fun _ p hp => .pure hp

theorem compare_levels (h : c.Below g g') : c.Levels (compare g) (compare g') c.entry := by
  unfold compare
  refine (h.plain (.binary .add) at_entry trivial).bind fun first p hp => ?_
  refine (h.plain .compareRest hp trivial).bind fun operands p hp => ?_
  exact .ite (fun _ => .pure hp) fun _ => .previousEnd fun _ => .pure hp

theorem compareRest_levels (h : c.Below g g') : c.Levels (compareRest g) (compareRest g') c.entry := by
  unfold compareRest
  refine .current ((comparisonOp_levels at_entry).bind fun op p hp => ?_)
  cases op with
  | none => exact .pure hp
  | some op =>
    refine (h.plain (.binary .add) hp trivial).bind fun operand p hp => ?_
    exact (h.plain .compareRest hp trivial).bind fun rest p hp => .pure hp

/-! ## Operators before an operand -/

theorem unaryOp?_not_isBracket {k : TokenKind} {op : UnaryOp} (h : unaryOp? k = some op) : k.isBracket = false := by
  unfold unaryOp? at h
  split at h <;> first | rfl | cases h

theorem unary_levels (h : c.Below g g') : c.Levels (unary g) (unary g') c.entry := by
  unfold unary
  refine .current ?_
  split
  · exact h.plain (.primary true) at_entry trivial
  · rename_i op hop
    refine .advance at_entry (unaryOp?_not_isBracket hop) fun p hp => ?_
    exact (h.plain .unary hp trivial).bind fun operand p hp => .pure hp

/-! ## Primary expressions -/

theorem integer_stays (t : Token) : c.Agrees (integer t) (integer t) pos fun _ q => q = pos := by
  unfold integer
  split
  · exact .pure rfl
  · exact .fault

theorem atom_levels (h : c.Below g g') : c.Levels (atom g) (atom g') c.entry := by
  unfold atom
  refine .current ?_
  split <;> rename_i hk
  · exact .advance at_entry (by rw [hk]; rfl) fun p hp => .pure hp
  · exact .advance at_entry (by rw [hk]; rfl) fun p hp => (integer_stays _).mono fun _ _ hq => hq ▸ hp
  · exact .advance at_entry (by rw [hk]; rfl) fun p hp => .pure hp
  · exact .advance at_entry (by rw [hk]; rfl) fun p hp => .pure hp
  · refine (move_opening .parens hk).bind ?_
    rintro _ _ ⟨rfl, rfl⟩
    refine (h.inside (.tuple (.expression true)) .parens hk trivial).bind fun inner p hp => ?_
    exact .expect_closing hp .parens fun _ p hp => .previousEnd fun _ => .pure hp
  · exact h.plain .list at_entry trivial
  · exact h.plain .dict at_entry trivial
  · exact .report nofun

theorem primary_levels (h : c.Below g g') (withSuffixes : Bool) :
    c.Levels (primary g withSuffixes) (primary g' withSuffixes) c.entry := by
  unfold primary
  exact (atom_levels h).bind fun e p hp => .ite (fun _ => h.plain (.suffixes e) hp trivial) fun _ => .pure hp

/-! ## Tuples -/

theorem tupleItem_levels (h : c.Below g g') (item : TupleItem) (hpos : c.At [] pos) :
    c.Levels (tupleItem g item) (tupleItem g' item) pos := by
  cases item with
  | primary => exact h.plain (.primary true) hpos trivial
  | expression conditional => exact h.plain (.expression conditional) hpos trivial

theorem tuple_levels (h : c.Below g g') (item : TupleItem) : c.Levels (tuple g item) (tuple g' item) c.entry := by
  unfold tuple
  refine .current (.check (fun _ => .pure at_entry) fun _ => ?_)
  refine (tupleItem_levels h item at_entry).bind fun first p hp => .check (fun _ => ?_) fun _ => .pure hp
  exact (h.plain (.tupleRest item) hp trivial).bind fun rest p hp => .previousEnd fun _ => .pure hp

theorem tupleRest_levels (h : c.Below g g') (item : TupleItem) :
    c.Levels (tupleRest g item) (tupleRest g' item) c.entry := by
  unfold tupleRest
  refine .expect at_entry rfl fun p hp _ => .check (fun _ => .pure hp) fun _ => ?_
  refine (tupleItem_levels h item hp).bind fun e p hp => .check (fun _ => ?_) fun _ => .pure hp
  exact (h.plain (.tupleRest item) hp trivial).bind fun rest p hp => .pure hp

/-! ## Lists and dictionaries -/

theorem list_levels (h : c.Below g g') : c.Levels (list g) (list g') c.entry := by
  unfold list
  refine .expect_opening .brackets fun hk => ?_
  refine (h.inside (.listItems true) .brackets hk trivial).bind fun items p hp => ?_
  exact .expect_closing hp .brackets fun _ p hp => .previousEnd fun _ => .pure hp

/-- The comma before every item but the first one. -/
theorem comma_levels {b : Prop} [Decidable b] {α : Type} {rest rest' : Unit → Parser α} (hpos : c.At [] pos)
    (k : ∀ p, c.At [] p → c.Levels (rest ()) (rest' ()) p) :
    c.Levels (if b then do let _ ← Parser.expectSymbol .comma; rest () else rest ())
      (if b then do let _ ← Parser.expectSymbol .comma; rest' () else rest' ()) pos :=
  .ite (fun _ => .expect hpos rfl fun p hp _ => k p hp) fun _ => k pos hpos

theorem listItems_levels (h : c.Below g g') (first : Bool) :
    c.Levels (listItems g first) (listItems g' first) c.entry := by
  unfold listItems
  refine .check (fun _ => .pure at_entry) fun _ => ?_
  extract_lets rest rest'
  refine comma_levels at_entry fun p hp => .check (fun _ => .pure hp) fun _ => ?_
  refine (h.plain (.expression true) hp trivial).bind fun e p hp => ?_
  exact (h.plain (.listItems false) hp trivial).bind fun es p hp => .pure hp

theorem dict_levels (h : c.Below g g') : c.Levels (dict g) (dict g') c.entry := by
  unfold dict
  refine .expect_opening .braces fun hk => ?_
  refine (h.inside (.dictItems true) .braces hk trivial).bind fun items p hp => ?_
  exact .expect_closing hp .braces fun _ p hp => .previousEnd fun _ => .pure hp

theorem dictItems_levels (h : c.Below g g') (first : Bool) :
    c.Levels (dictItems g first) (dictItems g' first) c.entry := by
  unfold dictItems
  refine .check (fun _ => .pure at_entry) fun _ => ?_
  extract_lets rest rest'
  refine comma_levels at_entry fun p hp => .check (fun _ => .pure hp) fun _ => ?_
  refine (h.plain (.expression true) hp trivial).bind fun key p hp => .expect hp rfl fun p hp _ => ?_
  refine (h.plain (.expression true) hp trivial).bind fun value p hp => ?_
  exact (h.plain (.dictItems false) hp trivial).bind fun ps p hp => .pure hp

end Stencil.Grammar
