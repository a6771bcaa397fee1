/-
The rules for operators, primary expressions, tuples, lists and dictionaries agree in every frame below
which their parts agree.
-/
import Stencil.Proofs.Progress.Frame

namespace Stencil.Grammar

open Stencil.Frame

variable {c : Frame} {g g' : Grammar}

/-! ## Conditional expressions -/

theorem expression_gains (h : c.Below g g' 15) (conditional : Bool) :
    c.Gains (expression g conditional) (expression g' conditional) c.entry 1 := by
  unfold expression
  refine .ite (fun _ => ?_) fun _ => ?_
  · exact h.plain .cond h.within (.inr (by decide)) rfl trivial
  · exact h.plain (.binary .or) h.within (.inr (by decide)) rfl trivial

theorem cond_gains (h : c.Below g g' 14) : c.Gains (cond g) (cond g') c.entry 1 := by
  unfold cond
  refine (h.plain (.binary .or) h.within (.inr (by decide)) rfl trivial).bind fun value p hp hw => ?_
  exact (h.plain (.condRest value) hw (.inl hp) rfl trivial).since hp

theorem condRest_gains (h : c.Below g g' 0) (value : Expr) :
    c.Gains (condRest g value) (condRest g' value) c.entry 0 := by
  unfold condRest
  refine .check (fun hk => ?_) fun _ => .pure ⟨Nat.le_refl _, h.within⟩
  refine .advance_of_mem h.within hk rfl fun hw => ?_
  refine (h.plain (.binary .or) hw (.inl (by omega)) rfl trivial).bind fun test p hp hw => ?_
  simp only [Rule.least] at hp
  refine .expect hw nofun fun _ hw => ?_
  refine (h.plain .cond hw (.inl (by omega)) rfl trivial).bind fun other q hq hw => ?_
  simp only [Rule.least] at hq
  exact (h.plain (.condRest _) hw (.inl (by omega)) rfl (by trivial)).since (by omega)

/-! ## Operators between two operands -/

theorem rank_operandRule (op : BinaryOp) : (operandRule op).rank < op.rank := by cases op <;> decide

theorem least_operandRule (op : BinaryOp) (k : TokenKind) : (operandRule op).least k = 1 := by
  cases op <;> rfl

theorem operand_gains {n pos : Nat} (h : c.Below g g' n) (op : BinaryOp) (hw : c.Within pos)
    (hr : c.entry < pos ∨ (operandRule op).rank < n) :
    c.Gains (g (operandRule op)) (g' (operandRule op)) pos 1 := by
  have hs : (operandRule op).isStatement = false := by cases op <;> rfl
  have ha : (operandRule op).Admits c.stream pos := by cases op <;> trivial
  have := h.rule (operandRule op) hw hr (by rw [hs]; nofun) fun _ => ha
  rwa [least_operandRule] at this

theorem binary_gains (op : BinaryOp) (h : c.Below g g' op.rank) :
    c.Gains (binary g op) (binary g' op) c.entry 1 := by
  unfold binary
  refine (operand_gains h op h.within (.inr (rank_operandRule op))).bind fun left p hp hw => ?_
  exact (h.plain (.binaryRest op left) hw (.inl hp) rfl trivial).since hp

theorem operatorKind_ne_eof (op : BinaryOp) : operatorKind op ≠ .eof := by cases op <;> decide

theorem binaryRest_gains (h : c.Below g g' 0) (op : BinaryOp) (left : Expr) :
    c.Gains (binaryRest g op left) (binaryRest g' op left) c.entry 0 := by
  unfold binaryRest
  refine .check (fun hk => ?_) fun _ => .pure ⟨Nat.le_refl _, h.within⟩
  rw [List.mem_singleton] at hk
  refine .advance h.within (hk ▸ operatorKind_ne_eof op) fun hw => ?_
  refine (operand_gains h op hw (.inl (by omega))).bind fun right p hp hw => ?_
  exact (h.plain (.binaryRest op _) hw (.inl (by omega)) rfl (by trivial)).since (by omega)

/-! ## Comparisons -/

theorem skip_two_gains {pos : Nat} (hw : c.Within pos) (hk : (c.stream.get pos).kind ≠ .eof) :
    c.Gains (Parser.skip 2) (Parser.skip 2) pos 1 := by
  show c.Agrees (Parser.advance >>= fun _ => Parser.advance) _ pos _
  exact .advance hw hk fun hw => (Agrees.move hw).mono fun _ _ hp => ⟨hp.2.1, hp.2.2.1⟩

/-- A comparison is read with the tokens that write it, or none is read at all. -/
theorem comparisonOp_agrees {pos : Nat} (hw : c.Within pos) :
    c.Agrees comparisonOp comparisonOp pos fun op p =>
      c.Within p ∧ (op = none ∧ p = pos ∨ op ≠ none ∧ pos < p) := by
  unfold comparisonOp
  refine .current ?_
  split
  · rename_i op hop
    have hk : (c.stream.get pos).kind ≠ .eof := by
      intro hk; rw [hk] at hop; cases hop
    exact .advance hw hk fun hw => .pure ⟨hw, .inr ⟨nofun, Nat.lt_succ_self _⟩⟩
  · refine .peek fun next => .ite (fun hn => ?_) fun _ => .pure ⟨hw, .inl ⟨rfl, rfl⟩⟩
    have hk : (c.stream.get pos).kind ≠ .eof := by rw [hn.1]; nofun
    exact (skip_two_gains hw hk).bind fun _ p hp hw => .pure ⟨hw, .inr ⟨nofun, hp⟩⟩

theorem compare_gains (h : c.Below g g' 11) : c.Gains (compare g) (compare g') c.entry 1 := by
  unfold compare
  refine (h.plain (.binary .add) h.within (.inr (by decide)) rfl trivial).bind fun first p hp hw => ?_
  refine (h.plain .compareRest hw (.inl hp) rfl trivial).bind fun operands q hq hw => ?_
  simp only [Rule.least] at hp hq
  refine .ite (fun _ => .pure ⟨by omega, hw⟩) fun _ => ?_
  exact .previousEnd fun _ => .pure ⟨by omega, hw⟩

theorem compareRest_gains (h : c.Below g g' 0) :
    c.Gains (compareRest g) (compareRest g') c.entry 0 := by
  unfold compareRest
  refine .current ?_
  refine (comparisonOp_agrees h.within).bind ?_
  rintro op p ⟨hw, ⟨rfl, rfl⟩ | ⟨hop, hp⟩⟩
  · exact .pure ⟨Nat.le_refl _, h.within⟩
  · obtain ⟨op, rfl⟩ := Option.ne_none_iff_exists'.1 hop
    refine (h.plain (.binary .add) hw (.inl hp) rfl trivial).bind fun operand q hq hw => ?_
    simp only [Rule.least] at hq
    refine (h.plain .compareRest hw (.inl (by omega)) rfl trivial).bind fun rest r hr hw => ?_
    simp only [Rule.least] at hr
    exact .pure ⟨by omega, hw⟩

/-! ## Operators before an operand -/

theorem unary_gains (h : c.Below g g' 2) : c.Gains (unary g) (unary g') c.entry 1 := by
  unfold unary
  refine .current ?_
  split
  · exact h.plain (.primary true) h.within (.inr (by decide)) rfl trivial
  · rename_i op hop
    have hk : (c.stream.get c.entry).kind ≠ .eof := by
      intro hk; rw [hk] at hop; cases hop
    refine .advance h.within hk fun hw => ?_
    refine (h.plain .unary hw (.inl (by omega)) rfl trivial).bind fun operand p hp hw => ?_
    simp only [Rule.least] at hp
    exact .pure ⟨by omega, hw⟩

/-! ## Primary expressions -/

/-- An integer token can be read unless the stream is at fault. -/
theorem integer_agrees {pos i : Nat} (hw : c.Within pos) (hi : (c.stream.get i).kind = .integer) :
    c.Agrees (integer (c.stream.get i)) (integer (c.stream.get i)) pos fun _ p => p = pos := by
  unfold integer
  split
  · exact .pure rfl
  · rename_i hn
    exact .fault hw nofun fun _ => ⟨i, hi, rfl, hn⟩

theorem atom_gains (h : c.Below g g' 1) : c.Gains (atom g) (atom g') c.entry 1 := by
  unfold atom
  refine .current ?_
  have moves {f f' : Token → Parser Expr} (hk : (c.stream.get c.entry).kind ≠ .eof)
      (k : c.Within (c.entry + 1) → c.Agrees (f (c.stream.get c.entry)) (f' (c.stream.get c.entry))
        (c.entry + 1) fun _ p => c.entry + 1 ≤ p ∧ c.Within p) :
      c.Gains (Parser.advance >>= f) (Parser.advance >>= f') c.entry 1 := .advance h.within hk k
  split <;> rename_i hk
  · exact moves (by rw [hk]; nofun) fun hw => .pure ⟨Nat.le_refl _, hw⟩
  · refine moves (by rw [hk]; nofun) fun hw => (integer_agrees hw hk).mono ?_
    rintro _ _ rfl
    exact ⟨Nat.le_refl _, hw⟩
  · exact moves (by rw [hk]; nofun) fun hw => .pure ⟨Nat.le_refl _, hw⟩
  · exact moves (by rw [hk]; nofun) fun hw => .pure ⟨Nat.le_refl _, hw⟩
  · refine moves (by rw [hk]; nofun) fun hw => ?_
    refine (h.plain (.tuple (.expression true)) hw (.inl (by omega)) rfl trivial).bind fun inner p hp hw => ?_
    simp only [Rule.least] at hp
    refine .expect hw nofun fun _ hw => .previousEnd fun _ => .pure ⟨by omega, hw⟩
  · exact h.plain .list h.within (.inr (by decide)) rfl trivial
  · exact h.plain .dict h.within (.inr (by decide)) rfl trivial
  · exact .report h.within rfl

theorem primary_gains (h : c.Below g g' 1) (withSuffixes : Bool) :
    c.Gains (primary g withSuffixes) (primary g' withSuffixes) c.entry 1 := by
  unfold primary
  refine (atom_gains h).bind fun e p hp hw => .ite (fun _ => ?_) fun _ => .pure ⟨hp, hw⟩
  exact (h.plain (.suffixes e) hw (.inl hp) rfl trivial).since hp

/-! ## Tuples -/

theorem tupleItem_gains {pos n : Nat} (h : c.Below g g' n) (item : TupleItem) (hw : c.Within pos)
    (hr : c.entry < pos ∨ 15 < n) : c.Gains (tupleItem g item) (tupleItem g' item) pos 1 := by
  cases item with
  | primary => exact h.plain (.primary true) hw (hr.imp_right fun hn => by simp only [Rule.rank]; omega) rfl trivial
  | expression conditional => exact h.plain (.expression conditional) hw hr rfl trivial

theorem tuple_gains (h : c.Below g g' 16) (item : TupleItem) :
    c.Gains (tuple g item) (tuple g' item) c.entry 0 := by
  unfold tuple
  refine .current (.check (fun _ => .pure ⟨Nat.le_refl _, h.within⟩) fun _ => ?_)
  refine (tupleItem_gains h item h.within (.inr (by decide))).bind fun first p hp hw => ?_
  refine .check (fun _ => ?_) fun _ => .pure ⟨by omega, hw⟩
  refine (h.plain (.tupleRest item) hw (.inl hp) rfl trivial).bind fun rest q hq hw => ?_
  simp only [Rule.least] at hq
  exact .previousEnd fun _ => .pure ⟨by omega, hw⟩

theorem tupleRest_gains (h : c.Below g g' 0) (item : TupleItem) :
    c.Gains (tupleRest g item) (tupleRest g' item) c.entry 1 := by
  unfold tupleRest
  refine .expect h.within nofun fun _ hw => ?_
  refine .check (fun _ => .pure ⟨Nat.le_refl _, hw⟩) fun _ => ?_
  refine (tupleItem_gains h item hw (.inl (by omega))).bind fun e p hp hw => ?_
  refine .check (fun _ => ?_) fun _ => .pure ⟨by omega, hw⟩
  refine (h.plain (.tupleRest item) hw (.inl (by omega)) rfl trivial).bind fun rest q hq hw => ?_
  exact .pure ⟨by omega, hw⟩

/-! ## Lists and dictionaries -/

theorem list_gains (h : c.Below g g' 0) : c.Gains (list g) (list g') c.entry 1 := by
  unfold list
  refine .expect h.within nofun fun _ hw => ?_
  refine (h.plain (.listItems true) hw (.inl (by omega)) rfl trivial).bind fun items p hp hw => ?_
  simp only [Rule.least] at hp
  exact .expect hw nofun fun _ hw => .previousEnd fun _ => .pure ⟨by omega, hw⟩

/-- The comma before every item but the first one. -/
theorem comma_gains {pos : Nat} {b : Prop} [Decidable b] {α : Type} {rest rest' : Unit → Parser α}
    {good : α → Nat → Prop} (hw : c.Within pos)
    (k : ∀ p, pos ≤ p → c.Within p → c.Agrees (rest ()) (rest' ()) p good) :
    c.Agrees (if b then do let _ ← Parser.expectSymbol .comma; rest () else rest ())
      (if b then do let _ ← Parser.expectSymbol .comma; rest' () else rest' ()) pos good :=
  .ite (fun _ => .expect hw nofun fun _ hw => k _ (Nat.le_succ _) hw) fun _ => k _ (Nat.le_refl _) hw

theorem listItems_gains (h : c.Below g g' 16) (first : Bool) :
    c.Gains (listItems g first) (listItems g' first) c.entry 0 := by
  unfold listItems
  refine .check (fun _ => .pure ⟨Nat.le_refl _, h.within⟩) fun _ => ?_
  extract_lets rest rest'
  refine comma_gains h.within fun p hp hw => .check (fun _ => .pure ⟨hp, hw⟩) fun _ => ?_
  have hr : c.entry < p ∨ 15 < 16 := .inr (by decide)
  refine (h.plain (.expression true) hw hr rfl trivial).bind fun e q hq hw => ?_
  simp only [Rule.least] at hq
  refine (h.plain (.listItems false) hw (.inl (by omega)) rfl trivial).bind fun es r hr hw => ?_
  exact .pure ⟨by omega, hw⟩

theorem dict_gains (h : c.Below g g' 0) : c.Gains (dict g) (dict g') c.entry 1 := by
  unfold dict
  refine .expect h.within nofun fun _ hw => ?_
  refine (h.plain (.dictItems true) hw (.inl (by omega)) rfl trivial).bind fun items p hp hw => ?_
  simp only [Rule.least] at hp
  exact .expect hw nofun fun _ hw => .previousEnd fun _ => .pure ⟨by omega, hw⟩

theorem dictItems_gains (h : c.Below g g' 16) (first : Bool) :
    c.Gains (dictItems g first) (dictItems g' first) c.entry 0 := by
  unfold dictItems
  refine .check (fun _ => .pure ⟨Nat.le_refl _, h.within⟩) fun _ => ?_
  extract_lets rest rest'
  refine comma_gains h.within fun p hp hw => .check (fun _ => .pure ⟨hp, hw⟩) fun _ => ?_
  have hr : c.entry < p ∨ 15 < 16 := .inr (by decide)
  refine (h.plain (.expression true) hw hr rfl trivial).bind fun key q hq hw => ?_
  simp only [Rule.least] at hq
  refine .expect hw nofun fun _ hw => ?_
  refine (h.plain (.expression true) hw (.inl (by omega)) rfl trivial).bind fun value r hr hw => ?_
  simp only [Rule.least] at hr
  refine (h.plain (.dictItems false) hw (.inl (by omega)) rfl trivial).bind fun ps t ht hw => ?_
  exact .pure ⟨by omega, hw⟩

end Stencil.Grammar
